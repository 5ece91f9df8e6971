import SophiaTX.Plugins.TokenActions

/-!
# The supply of custom tokens

What accounts hold of a token, together with what has been burned of it, is its supply. This is so
as long as no token is created above its limit, no addition to a supply wraps around, and no token
is paused that does not exist.
-/

namespace SophiaTX.Plugins

open SophiaTX.Protocol SophiaTX.Lib

variable {s s' : TokenTables} {note : Notification} {sender : AccountName}
  {recipients : List AccountName} {doc : TokenDocument} {tokenSymbol : AssetSymbol}
  {name : AccountName} {amount : UInt64} {plugin : TokenPlugin}

/-! ## Supplies -/

/-- What accounts hold of a token and what has been burned of it is its supply, and that keeps to
its limit. -/
def SupplyInOrder (s : TokenTables) : Prop :=
  ∀ symbol token, s.tokens.find? symbol = some token →
    heldTokens s.holdings symbol + token.burned.toNat = token.totalSupply.toNat ∧
      token.totalSupply ≤ token.maxSupply

/-- Accounts hold tokens that exist. -/
def Backed (s : TokenTables) : Prop :=
  ∀ symbol name row, s.holdings.find? (symbol, name) = some row →
    ∃ token, s.tokens.find? symbol = some token

theorem find?_debited_of_ne {holdings : TokenHoldings} {key : AssetSymbol × AccountName}
    (hkey : key ≠ (tokenSymbol, name)) :
    (debited holdings tokenSymbol name amount).find? key = holdings.find? key := by
  rw [debited, Table.find?_modify, if_neg hkey]

theorem heldTokens_eq_zero {holdings : TokenHoldings}
    (h : ∀ name, holdings.find? (tokenSymbol, name) = none) :
    heldTokens holdings tokenSymbol = 0 := by
  have hzero : heldTokens holdings tokenSymbol = holdings.sum fun _ _ ↦ 0 := by
    refine Table.sum_congr fun key row hrow ↦ if_neg fun hkey ↦ ?_
    obtain ⟨symbol, name⟩ := key
    cases hkey
    cases (h name).symm.trans hrow
  rw [hzero]
  simp [Table.sum]

/-- Where one token changes, the others stay in order. -/
theorem supplyInOrder_iff (tokenSymbol : AssetSymbol) (h : SupplyInOrder s)
    (htokens : ∀ other, other ≠ tokenSymbol → s'.tokens.find? other = s.tokens.find? other)
    (hheld : ∀ other, other ≠ tokenSymbol →
      heldTokens s'.holdings other = heldTokens s.holdings other) :
    SupplyInOrder s' ↔ ∀ token, s'.tokens.find? tokenSymbol = some token →
      heldTokens s'.holdings tokenSymbol + token.burned.toNat = token.totalSupply.toNat ∧
        token.totalSupply ≤ token.maxSupply := by
  refine ⟨fun h' token htoken ↦ h' tokenSymbol token htoken, fun h' symbol token htoken ↦ ?_⟩
  by_cases hsymbol : symbol = tokenSymbol
  · subst hsymbol
    exact h' token htoken
  · rw [htokens symbol hsymbol] at htoken
    rw [hheld symbol hsymbol]
    exact h symbol token htoken

/-- The condition under which an action that goes through leaves the supplies in order: a token is
created within its limit, and an addition to a supply does not wrap around, or what the owner holds
wraps around with it. -/
def WithinLimits (doc : TokenDocument) (sender : AccountName) (s : TokenTables) : Prop :=
  (doc.action = some .createToken → ∀ symbol total max, Creates doc s symbol total max →
    total ≤ max) ∧
  (doc.action = some .issueToken → ∀ symbol additional token,
    Issues doc sender s symbol additional token →
      token.totalSupply.toNat + additional.toNat < 2 ^ 64 ∨
        2 ^ 64 ≤ (holding s.holdings symbol sender).toNat + additional.toNat)

theorem TokenChange.supplyInOrder_create {total max : UInt64} (hs : SupplyInOrder s)
    (hbacked : Backed s) (h : Creates doc s tokenSymbol total max) :
    SupplyInOrder ({ s with
      tokens := s.tokens.emplace tokenSymbol ⟨sender, total, max, 0, false⟩
      holdings := credited s.holdings tokenSymbol sender total
      }.logOperation sender tokenSymbol note) ↔ total ≤ max := by
  have hempty : ∀ name, s.holdings.find? (tokenSymbol, name) = none := by
    intro name
    by_contra hsome
    obtain ⟨row, hrow⟩ := Option.ne_none_iff_exists'.1 hsome
    obtain ⟨token, htoken⟩ := hbacked _ _ row hrow
    cases h.fresh.symm.trans htoken
  have hheld := @heldTokens_credited_self s.holdings tokenSymbol sender total
  rw [heldTokens_eq_zero hempty, holding, hempty, Option.elim_none, UInt64.zero_add,
    UInt64.toNat_zero, Nat.add_zero, Nat.zero_add] at hheld
  rw [Plugins.supplyInOrder_iff tokenSymbol hs]
  · simp only [TokenTables.logOperation, Table.find?_emplace h.fresh, if_true, hheld,
      Option.some.injEq, forall_eq', UInt64.toNat_zero, Nat.add_zero, true_and]
  · intro other hother
    simp only [TokenTables.logOperation, Table.find?_emplace h.fresh, if_neg hother]
  · intro other hother
    exact heldTokens_credited_of_ne hother

theorem TokenChange.supplyInOrder_issue {additional : UInt64} {token : CustomToken}
    (hs : SupplyInOrder s) (h : Issues doc sender s tokenSymbol additional token) :
    SupplyInOrder ({ s with
      tokens := s.tokens.modify tokenSymbol fun token ↦
        { token with totalSupply := token.totalSupply + additional }
      holdings := credited s.holdings tokenSymbol sender additional
      }.logOperation sender tokenSymbol note) ↔
      (token.totalSupply.toNat + additional.toNat < 2 ^ 64 ∨
        2 ^ 64 ≤ (holding s.holdings tokenSymbol sender).toNat + additional.toNat) := by
  have hheld := @heldTokens_credited_self s.holdings tokenSymbol sender additional
  obtain ⟨hsum, _⟩ := hs _ _ h.exists_token
  have hle := @holding_le_heldTokens s.holdings tokenSymbol sender
  have hlimit := UInt64.le_of_lt h.limit
  have htotal := token.totalSupply.toNat_lt
  have hadditional := additional.toNat_lt
  rw [Plugins.supplyInOrder_iff tokenSymbol hs]
  · simp only [TokenTables.logOperation, Table.find?_modify_self, h.exists_token, Option.map_some,
      Option.some.injEq, forall_eq', hlimit, and_true]
    rw [UInt64.toNat_add] at hheld ⊢
    omega
  · intro other hother
    simp only [TokenTables.logOperation, Table.find?_modify_of_ne _ _ hother]
  · intro other hother
    exact heldTokens_credited_of_ne hother

theorem TokenChange.supplyInOrder_iff (hs : SupplyInOrder s) (hbacked : Backed s)
    (h : TokenChange note sender recipients doc s s') :
    SupplyInOrder s' ↔ WithinLimits doc sender s := by
  cases h with
  | create haction h =>
    rw [supplyInOrder_create hs hbacked h, WithinLimits]
    constructor
    · refine fun hle ↦ ⟨fun _ symbol total max h' ↦ ?_, fun hissue ↦ ?_⟩
      · cases h.symbol.symm.trans h'.symbol
        cases h.supply.symm.trans h'.supply
        cases h.limit.symm.trans h'.limit
        exact hle
      · cases haction.symm.trans hissue
    · exact fun hlimits ↦ hlimits.1 haction _ _ _ h
  | issue haction h =>
    rw [supplyInOrder_issue hs h, WithinLimits]
    constructor
    · refine fun hle ↦ ⟨fun hcreate ↦ ?_, fun _ symbol additional token h' ↦ ?_⟩
      · cases haction.symm.trans hcreate
      · cases h.symbol.symm.trans h'.symbol
        cases h.exists_token.symm.trans h'.exists_token
        cases h.amount.symm.trans h'.amount
        exact hle
    · exact fun hlimits ↦ hlimits.2 haction _ _ _ h
  | @pause symbol token haction hsymbol htoken howner =>
    refine iff_of_true ?_ ⟨fun h ↦ ?_, fun h ↦ ?_⟩
    · rw [Plugins.supplyInOrder_iff symbol hs]
      · simp only [TokenTables.logOperation, Table.find?_modify_self, htoken, Option.map_some,
          Option.some.injEq, forall_eq']
        exact hs symbol token htoken
      · intro other hother
        simp only [TokenTables.logOperation, Table.find?_modify_of_ne _ _ hother]
      · exact fun _ _ ↦ rfl
    · cases haction.symm.trans h
    · cases haction.symm.trans h
  | @transfer amount token recipient others haction hamount htoken hrunning hrecipient henough =>
    refine iff_of_true ?_ ⟨fun h ↦ ?_, fun h ↦ ?_⟩
    · rw [Plugins.supplyInOrder_iff amount.symbol hs]
      · intro token' htoken'
        cases htoken.symm.trans htoken'
        obtain ⟨hsum, hmax⟩ := hs _ _ htoken
        refine ⟨?_, hmax⟩
        have hdebited := heldTokens_debited_self henough
        have hcredited := @heldTokens_credited_self
          (debited s.holdings amount.symbol sender (tokenAmount amount)) amount.symbol recipient
          (tokenAmount amount)
        have hle := @holding_le_heldTokens
          (debited s.holdings amount.symbol sender (tokenAmount amount)) amount.symbol recipient
        have htotal := token.totalSupply.toNat_lt
        rw [UInt64.toNat_add] at hcredited
        simp only [TokenTables.logOperation]
        omega
      · exact fun _ _ ↦ rfl
      · intro other hother
        exact (heldTokens_credited_of_ne hother).trans (heldTokens_debited_of_ne hother)
    · cases haction.symm.trans h
    · cases haction.symm.trans h
  | @burn amount token haction hamount htoken hrunning henough =>
    refine iff_of_true ?_ ⟨fun h ↦ ?_, fun h ↦ ?_⟩
    · rw [Plugins.supplyInOrder_iff amount.symbol hs]
      · simp only [TokenTables.logOperation, Table.find?_modify_self, htoken, Option.map_some,
          Option.some.injEq, forall_eq']
        obtain ⟨hsum, hmax⟩ := hs _ _ htoken
        refine ⟨?_, hmax⟩
        have hdebited := heldTokens_debited_self henough
        have htotal := token.totalSupply.toNat_lt
        rw [UInt64.toNat_add]
        omega
      · intro other hother
        simp only [Table.find?_modify_of_ne _ _ hother]
      · intro other hother
        exact heldTokens_debited_of_ne hother
    · cases haction.symm.trans h
    · cases haction.symm.trans h

/-- Holdings of paused tokens stay as they are. -/
theorem TokenChange.paused (h : TokenChange note sender recipients doc s s')
    {symbol : AssetSymbol} {token : CustomToken} (htoken : s.tokens.find? symbol = some token)
    (hpaused : token.paused = true) (name : AccountName) :
    s'.holdings.find? (symbol, name) = s.holdings.find? (symbol, name) := by
  have hne : ∀ {other : AssetSymbol} {row : CustomToken} (account : AccountName),
      s.tokens.find? other = some row → row.paused = false →
        (symbol, name) ≠ (other, account) := by
    rintro other row account hrow hrunning heq
    cases heq
    cases htoken.symm.trans hrow
    cases hpaused.symm.trans hrunning
  cases h with
  | create _ h =>
    refine find?_credited_of_ne fun heq ↦ ?_
    cases heq
    cases h.fresh.symm.trans htoken
  | pause _ _ _ _ => rfl
  | transfer _ _ hrow hrunning _ _ =>
    exact (find?_credited_of_ne (hne _ hrow hrunning)).trans
      (find?_debited_of_ne (hne _ hrow hrunning))
  | burn _ _ hrow hrunning _ => exact find?_debited_of_ne (hne _ hrow hrunning)
  | issue _ h => exact find?_credited_of_ne (hne _ h.exists_token h.running)

/-- Tokens stay, and rows are written of one that exists. -/
theorem Backed.of_rows (tokenSymbol : AssetSymbol) (h : Backed s)
    (htokens : ∀ symbol token, s.tokens.find? symbol = some token →
      ∃ token', s'.tokens.find? symbol = some token')
    (hself : ∃ token, s'.tokens.find? tokenSymbol = some token)
    (hrows : ∀ key, key.1 ≠ tokenSymbol → s'.holdings.find? key = s.holdings.find? key) :
    Backed s' := by
  intro symbol name row hrow
  by_cases hsymbol : symbol = tokenSymbol
  · exact hsymbol ▸ hself
  · rw [hrows (symbol, name) hsymbol] at hrow
    obtain ⟨token, htoken⟩ := h symbol name row hrow
    exact htokens symbol token htoken

theorem exists_find?_modify {tokens : Table AssetSymbol CustomToken} {symbol other : AssetSymbol}
    {token : CustomToken} (f : CustomToken → CustomToken) (h : tokens.find? symbol = some token) :
    ∃ token', (tokens.modify other f).find? symbol = some token' := by
  rw [Table.find?_modify, h]
  split
  · exact ⟨_, rfl⟩
  · exact ⟨_, rfl⟩

theorem TokenChange.backed (hbacked : Backed s)
    (h : TokenChange note sender recipients doc s s') : Backed s' := by
  have hne : ∀ {symbol : AssetSymbol} {key : AssetSymbol × AccountName} (account : AccountName),
      key.1 ≠ symbol → key ≠ (symbol, account) := by
    rintro symbol key account hkey rfl
    exact hkey rfl
  cases h with
  | @create symbol total max _ h =>
    have hfind : ∀ other, (s.tokens.emplace symbol ⟨sender, total, max, 0, false⟩).find? other =
        if other = symbol then some _ else s.tokens.find? other := Table.find?_emplace h.fresh _
    refine hbacked.of_rows symbol (fun other token htoken ↦ ?_)
      ⟨_, (hfind symbol).trans (if_pos rfl)⟩
      fun key hkey ↦ find?_credited_of_ne (hne _ hkey)
    have hother : other ≠ symbol := by
      rintro rfl
      cases h.fresh.symm.trans htoken
    exact ⟨token, ((hfind other).trans (if_neg hother)).trans htoken⟩
  | @pause symbol token _ _ htoken _ =>
    exact hbacked.of_rows symbol (fun _ _ hrow ↦ exists_find?_modify _ hrow)
      (exists_find?_modify _ htoken) fun _ _ ↦ rfl
  | @transfer amount token _ _ _ _ htoken _ _ _ =>
    refine hbacked.of_rows amount.symbol (fun _ token hrow ↦ ⟨token, hrow⟩) ⟨token, htoken⟩ ?_
    exact fun key hkey ↦
      (find?_credited_of_ne (hne _ hkey)).trans (find?_debited_of_ne (hne _ hkey))
  | @burn amount _ _ _ htoken _ _ =>
    exact hbacked.of_rows amount.symbol (fun _ _ hrow ↦ exists_find?_modify _ hrow)
      (exists_find?_modify _ htoken) fun key hkey ↦ find?_debited_of_ne (hne _ hkey)
  | @issue symbol _ _ _ h =>
    exact hbacked.of_rows symbol (fun _ _ hrow ↦ exists_find?_modify _ hrow)
      (exists_find?_modify _ h.exists_token) fun key hkey ↦ find?_credited_of_ne (hne _ hkey)

/-! ## Runs -/

/-- The handling of an operation dereferences no token that does not exist, makes its whole change
or none, changes no holdings of paused tokens, and leaves the supplies in order. -/
structure HandledRight (plugin : TokenPlugin) (s : TokenTables) (note : Notification) : Prop where
  defined : thrown (plugin.postOperation note) s ≠ some .nullDereference
  whole : SameBooks s (stateAfter (plugin.postOperation note) s) ∨
    thrown (plugin.postOperation note) s = none ∧
      ∃ sender recipients doc, plugin.Reads note sender recipients doc ∧
        TokenChange note sender recipients doc s (stateAfter (plugin.postOperation note) s)
  paused : ∀ symbol token, s.tokens.find? symbol = some token → token.paused = true →
    ∀ name, (stateAfter (plugin.postOperation note) s).holdings.find? (symbol, name) =
      s.holdings.find? (symbol, name)
  supply : SupplyInOrder (stateAfter (plugin.postOperation note) s)

/-- The condition on an operation and the tables before it: no token is paused that does not exist,
and actions that go through keep within the limits. -/
def SafeForTokens (plugin : TokenPlugin) (s : TokenTables) (note : Notification) : Prop :=
  ∀ sender recipients doc, plugin.Reads note sender recipients doc →
    ¬ PausesMissing doc s ∧ WithinLimits doc sender s

theorem SameBooks.supplyInOrder (h : SameBooks s s') (hs : SupplyInOrder s) : SupplyInOrder s' := by
  obtain ⟨htokens, hholdings, _⟩ := h
  rw [SupplyInOrder, htokens, hholdings]
  exact hs

theorem SameBooks.backed (h : SameBooks s s') (hs : Backed s) : Backed s' := by
  obtain ⟨htokens, hholdings, _⟩ := h
  rw [Backed, htokens, hholdings]
  exact hs

theorem backed_stateAfter (hbacked : Backed s) :
    Backed (stateAfter (plugin.postOperation note) s) := by
  have houtcome := plugin.postOperation_outcome note s
  generalize thrown (plugin.postOperation note) s = e at houtcome
  generalize stateAfter (plugin.postOperation note) s = s' at houtcome ⊢
  cases houtcome with
  | change _ hchange => exact hchange.backed hbacked
  | unchanged hsame _ _ _ => exact hsame.backed hbacked

/-- One operation. -/
theorem handledRight_iff (hs : SupplyInOrder s) (hbacked : Backed s) :
    HandledRight plugin s note ↔ SafeForTokens plugin s note := by
  have houtcome := plugin.postOperation_outcome note s
  generalize hthrown : thrown (plugin.postOperation note) s = e at houtcome
  generalize hafter : stateAfter (plugin.postOperation note) s = s' at houtcome
  cases houtcome with
  | @change sender recipients doc _ hreads hchange =>
    have hsupply := hchange.supplyInOrder_iff hs hbacked
    have hexists : ¬ PausesMissing doc s := by
      rintro ⟨hpause, symbol, hsymbol, hnone⟩
      cases hchange with
      | pause _ hsymbol' htoken _ =>
        cases hsymbol.symm.trans hsymbol'
        cases hnone.symm.trans htoken
      | create haction _ | transfer haction _ _ _ _ _ | burn haction _ _ _ _ | issue haction _ =>
        cases haction.symm.trans hpause
    constructor
    · intro h sender' recipients' doc' hreads'
      obtain ⟨rfl, rfl⟩ := hreads.unique hreads'
      exact ⟨hexists, hsupply.1 (hafter ▸ h.supply)⟩
    · intro h
      refine ⟨by simp [hthrown], .inr ⟨hthrown, sender, recipients, doc, hreads, ?_⟩, ?_, ?_⟩
      · exact hafter ▸ hchange
      · exact hafter ▸ fun _ _ htoken hpaused ↦ hchange.paused htoken hpaused
      · exact hafter ▸ hsupply.2 (h _ _ _ hreads).2
  | unchanged hsame hnull hcreates hissues =>
    constructor
    · refine fun h sender recipients doc hreads ↦
        ⟨fun hpauses ↦ ?_, fun haction ↦ ?_, fun haction ↦ ?_⟩
      · exact h.defined (hthrown.trans (hnull.2 ⟨_, _, _, hreads, hpauses⟩))
      · exact fun _ _ _ hgoes ↦ absurd hgoes (hcreates _ _ _ hreads haction _ _ _)
      · exact fun _ _ _ hgoes ↦ absurd hgoes (hissues _ _ _ hreads haction _ _ _)
    · intro h
      refine ⟨fun he ↦ ?_, .inl (hafter ▸ hsame), fun _ _ _ _ name ↦ ?_, ?_⟩
      · obtain ⟨_, _, _, hreads, hpauses⟩ := hnull.1 (hthrown.symm.trans he)
        exact (h _ _ _ hreads).1 hpauses
      · rw [hafter, hsame.2.1]
      · exact hafter ▸ hsame.supplyInOrder hs

theorem TokenPlugin.tables_concat (done : List Notification) (note : Notification) :
    plugin.tables (done ++ [note]) =
      stateAfter (plugin.postOperation note) (plugin.tables done) := by
  rw [tables, List.foldl_append]
  rfl

theorem TokenPlugin.tables_backed (done : List Notification) : Backed (plugin.tables done) := by
  induction done using List.reverseRecOn with
  | nil => exact fun _ _ _ hrow ↦ by cases hrow
  | append_singleton done note ih =>
    rw [tables_concat]
    exact backed_stateAfter ih

/-- In every run, all operations are handled right if and only if each of them meets the condition
in the tables it comes to. -/
theorem tokens_handled_right_iff (plugin : TokenPlugin) (notes : List Notification) :
    (∀ done note rest, notes = done ++ note :: rest →
        HandledRight plugin (plugin.tables done) note) ↔
      ∀ done note rest, notes = done ++ note :: rest →
        SafeForTokens plugin (plugin.tables done) note := by
  have hempty : SupplyInOrder (plugin.tables []) := fun _ _ htoken ↦ by cases htoken
  constructor
  · intro h done note rest hsplit
    refine (handledRight_iff ?_ (TokenPlugin.tables_backed done)).1 (h done note rest hsplit)
    cases hdone : done using List.reverseRecOn with
    | nil => exact hempty
    | append_singleton before last _ =>
      rw [TokenPlugin.tables_concat]
      refine (h before last (note :: rest) ?_).supply
      rw [hsplit, hdone, List.append_assoc, List.singleton_append]
  · intro h done note rest hsplit
    have hsupply : SupplyInOrder (plugin.tables done) := by
      induction done using List.reverseRecOn generalizing note rest with
      | nil => exact hempty
      | append_singleton before last ih =>
        rw [List.append_assoc, List.singleton_append] at hsplit
        have hbefore := ih last (note :: rest) hsplit
        rw [TokenPlugin.tables_concat]
        exact ((handledRight_iff hbefore (TokenPlugin.tables_backed before)).2
          (h before last _ hsplit)).supply
    exact (handledRight_iff hsupply (TokenPlugin.tables_backed done)).2 (h done note rest hsplit)

/-! ## An addition that wraps around -/

/-- The symbol ABC. -/
def abcSymbol : AssetSymbol := 0x434241

/-- A document with none of the optional fields. -/
def bareDocument (action : TokenAction) : TokenDocument where
  hasTokenSymbol := true
  action := some action
  tokenSymbol := some abcSymbol
  totalSupply := none
  hasMaxSupply := false
  maxSupply := none
  amount := none
  additionalAmount := none

def createJson : Bytes :=
  "\x7b\"action\":\"create_token\",\"token_symbol\":\"ABC\",\"total_supply\":10\x7d".toUTF8.toList

def transferJson : Bytes :=
  "\x7b\"action\":\"transfer_token\",\"token_symbol\":\"ABC\",\"amount\":\"0.000007 ABC\"\x7d".toUTF8.toList

def issueJson : Bytes :=
  "\x7b\"action\":\"issue_token\",\"token_symbol\":\"ABC\",\"additional_amount\":18446744073709551611\x7d".toUTF8.toList

/-- The plugin with its reading of three documents. -/
def devTokens : TokenPlugin where
  appId := 2
  read json :=
    if json = createJson then some { bareDocument .createToken with totalSupply := some 10 }
    else if json = transferJson then
      some { bareDocument .transferToken with amount := some ⟨7, abcSymbol⟩ }
    else if json = issueJson then
      some { bareDocument .issueToken with additionalAmount := some 18446744073709551611 }
    else none

/-- Account 1000 creates 10 ABC, gives 7 of them to 1001, and issues 2 ^ 64 - 5 more. -/
def wrappingNotes : List Notification :=
  [⟨1, 1, 1531512803, .customJson 1000 [] 2 createJson⟩,
    ⟨2, 2, 1531512806, .customJson 1000 [1001] 2 transferJson⟩,
    ⟨3, 3, 1531512809, .customJson 1000 [] 2 issueJson⟩]

/-- The supply wraps around to 5, and the accounts hold 2 ^ 64 + 5. -/
theorem issue_wraps_around :
    heldTokens (devTokens.tables wrappingNotes).holdings abcSymbol = 2 ^ 64 + 5 ∧
      ((devTokens.tables wrappingNotes).tokens.find? abcSymbol).map (fun token ↦
        (token.totalSupply, token.burned)) = some (5, 0) ∧
      ¬ SupplyInOrder (devTokens.tables wrappingNotes) := by
  have hheld : heldTokens (devTokens.tables wrappingNotes).holdings abcSymbol = 2 ^ 64 + 5 := by
    decide +kernel
  have htoken : ((devTokens.tables wrappingNotes).tokens.find? abcSymbol).map (fun token ↦
      (token.totalSupply, token.burned)) = some (5, 0) := by
    decide +kernel
  refine ⟨hheld, htoken, fun horder ↦ ?_⟩
  obtain ⟨token, hrow, hsupply⟩ := Option.map_eq_some_iff.1 htoken
  rw [Prod.mk.injEq] at hsupply
  have hsum := (horder abcSymbol token hrow).1
  rw [hheld, hsupply.1, hsupply.2] at hsum
  revert hsum
  decide

end SophiaTX.Plugins
