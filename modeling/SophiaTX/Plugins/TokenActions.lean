import SophiaTX.Lib.MultiIndex
import SophiaTX.Plugins.CustomTokens

/-!
# Token actions

How the handling of an operation by the `custom_tokens` plugin ends: with the whole change of its
action, or with nothing changed but the errors.
-/

namespace SophiaTX.Plugins

open SophiaTX.Protocol SophiaTX.Lib

abbrev TokenHoldings := Table (AssetSymbol × AccountName) CustomTokenAccount

/-! ## Holdings -/

section Holdings

variable {holdings : TokenHoldings} {tokenSymbol : AssetSymbol} {name : AccountName}
  {amount : UInt64}

/-- Holdings after tokens have been added to those of an account. -/
def credited (holdings : TokenHoldings) (tokenSymbol : AssetSymbol) (name : AccountName)
    (amount : UInt64) : TokenHoldings :=
  match holdings.find? (tokenSymbol, name) with
  | some _ => holdings.modify (tokenSymbol, name) fun row ↦
    { row with amount := row.amount + amount }
  | none => holdings.emplace (tokenSymbol, name) (newTokenAccount holdings name tokenSymbol amount)

def debited (holdings : TokenHoldings) (tokenSymbol : AssetSymbol) (name : AccountName)
    (amount : UInt64) : TokenHoldings :=
  holdings.modify (tokenSymbol, name) fun row ↦ { row with amount := row.amount - amount }

/-- What an account holds of a token. -/
def holding (holdings : TokenHoldings) (tokenSymbol : AssetSymbol) (name : AccountName) : UInt64 :=
  (holdings.find? (tokenSymbol, name)).elim 0 fun row ↦ row.amount

/-- What all accounts together hold of a token. -/
def heldTokens (holdings : TokenHoldings) (tokenSymbol : AssetSymbol) : ℕ :=
  holdings.sum fun key row ↦ if key.1 = tokenSymbol then row.amount.toNat else 0

theorem find?_credited_of_ne {key : AssetSymbol × AccountName} (hkey : key ≠ (tokenSymbol, name)) :
    (credited holdings tokenSymbol name amount).find? key = holdings.find? key := by
  unfold credited
  split
  · rw [Table.find?_modify, if_neg hkey]
  · rename_i hnone
    rw [Table.find?_emplace hnone, if_neg hkey]

theorem heldTokens_credited_self :
    heldTokens (credited holdings tokenSymbol name amount) tokenSymbol +
        (holding holdings tokenSymbol name).toNat =
      heldTokens holdings tokenSymbol + (holding holdings tokenSymbol name + amount).toNat := by
  unfold credited holding heldTokens
  split
  · rename_i row hrow
    rw [hrow]
    simpa using Table.sum_modify_add hrow (fun row ↦ { row with amount := row.amount + amount })
      fun key row ↦ if key.1 = tokenSymbol then row.amount.toNat else 0
  · rename_i hnone
    rw [hnone, Table.sum_emplace? (Table.emplace?_of_find?_eq_none hnone _)]
    simp [newTokenAccount]

theorem heldTokens_credited_of_ne {other : AssetSymbol} (hother : other ≠ tokenSymbol) :
    heldTokens (credited holdings tokenSymbol name amount) other = heldTokens holdings other := by
  unfold credited heldTokens
  split
  · exact Table.sum_modify_of_eq _ _ _ _ fun row _ ↦ by simp [hother.symm]
  · rename_i hnone
    rw [Table.sum_emplace? (Table.emplace?_of_find?_eq_none hnone _)]
    simp [hother.symm]

theorem heldTokens_debited_self (hamount : amount ≤ holding holdings tokenSymbol name) :
    heldTokens (debited holdings tokenSymbol name amount) tokenSymbol + amount.toNat =
      heldTokens holdings tokenSymbol := by
  unfold debited heldTokens
  unfold holding at hamount
  cases hrow : holdings.find? (tokenSymbol, name) with
  | none =>
    rw [hrow, Option.elim_none, UInt64.le_iff_toNat_le, UInt64.toNat_zero] at hamount
    rw [Table.sum_modify_of_eq _ _ _ _ fun row hsome ↦ ?_, Nat.le_zero.1 hamount, add_zero]
    rw [hrow] at hsome
    cases hsome
  | some row =>
    rw [hrow, Option.elim_some] at hamount
    have hsum := Table.sum_modify_add hrow (fun row ↦ { row with amount := row.amount - amount })
      fun key row ↦ if key.1 = tokenSymbol then row.amount.toNat else 0
    simp only [if_true, UInt64.toNat_sub_of_le _ _ hamount] at hsum
    have hle := UInt64.le_iff_toNat_le.1 hamount
    omega

theorem heldTokens_debited_of_ne {other : AssetSymbol} (hother : other ≠ tokenSymbol) :
    heldTokens (debited holdings tokenSymbol name amount) other = heldTokens holdings other :=
  Table.sum_modify_of_eq _ _ _ _ fun row _ ↦ by simp [hother.symm]

theorem holding_le_heldTokens : (holding holdings tokenSymbol name).toNat ≤
    heldTokens holdings tokenSymbol := by
  have hself := heldTokens_debited_self (UInt64.le_refl (holding holdings tokenSymbol name))
  omega

end Holdings

/-! ## How the parts of the plugin end -/

/-- Tables that differ in the errors only. -/
def SameBooks (s s' : TokenTables) : Prop :=
  s'.tokens = s.tokens ∧ s'.holdings = s.holdings ∧ s'.operations = s.operations

/-- An exception, and nothing written but an error. -/
def Refused (s : TokenTables) (e : TokenFailure) (s' : TokenTables) : Prop :=
  e ≠ .nullDereference ∧ SameBooks s s'

variable {s s' : TokenTables} {note : Notification} {sender : AccountName}
  {recipients : List AccountName} {doc : TokenDocument} {tokenSymbol : AssetSymbol}
  {name : AccountName} {amount : UInt64} {trxId : ℕ} {error : String} {α : Type}
  {post : Unit → TokenTables → Prop} {fail : TokenFailure → TokenTables → Prop}

theorem SameBooks.refl (s : TokenTables) : SameBooks s s := ⟨rfl, rfl, rfl⟩

@[simp]
theorem ends_orBadJson {x : Option α} {post : α → TokenTables → Prop} :
    Ends (orBadJson x) s post fail ↔
      (∀ a, x = some a → post a s) ∧ (x = none → fail .badJson s) := by
  cases x <;> simp [orBadJson]

@[simp]
theorem ends_findToken {post : Option CustomToken → TokenTables → Prop} :
    Ends (findToken tokenSymbol) s post fail ↔ post (s.tokens.find? tokenSymbol) s := Iff.rfl

@[simp]
theorem ends_derefToken {token : Option CustomToken} {post : CustomToken → TokenTables → Prop} :
    Ends (derefToken token) s post fail ↔
      (∀ row, token = some row → post row s) ∧ (token = none → fail .nullDereference s) := by
  cases token <;> simp [derefToken]

@[simp]
theorem ends_modifyToken {f : CustomToken → CustomToken} :
    Ends (modifyToken tokenSymbol f) s post fail ↔
      post () { s with tokens := s.tokens.modify tokenSymbol f } := Iff.rfl

@[simp]
theorem ends_saveTokenOperation :
    Ends (saveTokenOperation name tokenSymbol note) s post fail ↔
      post () (s.logOperation name tokenSymbol note) := Iff.rfl

@[simp]
theorem ends_addAccountTokens : Ends (addAccountTokens name tokenSymbol amount) s post fail ↔
    post () { s with holdings := credited s.holdings tokenSymbol name amount } := by
  unfold addAccountTokens credited
  rw [ends_bind, ends_get]
  cases hrow : s.holdings.find? (tokenSymbol, name) with
  | some row => rfl
  | none =>
    simp only [Table.emplace?_of_find?_eq_none hrow]
    rfl

theorem ends_insertToken {token : CustomToken} (hnone : s.tokens.find? tokenSymbol = none) :
    Ends (insertToken tokenSymbol token) s post fail ↔
      post () { s with tokens := s.tokens.emplace tokenSymbol token } := by
  unfold insertToken
  rw [ends_bind, ends_get, Table.emplace?_of_find?_eq_none hnone]
  rfl

/-- An assertion with a message that is saved holds, or refuses. -/
theorem ends_assertOrSave {p : Prop} [Decidable p] (hpost : p → post () s)
    (hfail : ¬ p → ∀ e s', Refused s e s' → fail e s') :
    Ends (assertOrSave p trxId error tokenSymbol) s post fail := by
  unfold assertOrSave
  rw [ends_ite]
  refine ⟨fun hp ↦ hpost hp, fun hp ↦ ?_⟩
  simp only [saveTokenError, ends_bind, ends_get]
  split
  · exact hfail hp _ _ ⟨by simp, rfl, rfl, rfl⟩
  · exact hfail hp _ _ ⟨by simp, rfl, rfl, rfl⟩

theorem ends_checkIfPaused
    (hpost : ∀ token, s.tokens.find? tokenSymbol = some token → token.paused = false → post () s)
    (hfail : (∀ token, s.tokens.find? tokenSymbol = some token → token.paused = true) →
      ∀ e s', Refused s e s' → fail e s') :
    Ends (checkIfPaused tokenSymbol trxId) s post fail := by
  simp only [checkIfPaused, ends_bind, ends_findToken]
  refine ends_assertOrSave (fun hsome ↦ ?_) fun hnone ↦ hfail ?_
  · rw [ends_derefToken]
    refine ⟨fun token htoken ↦ ends_assertOrSave (hpost token htoken) fun hpaused ↦ ?_,
      fun hnone ↦ ?_⟩
    · refine hfail fun other hother ↦ ?_
      rw [htoken] at hother
      cases hother
      exact Bool.not_eq_false _ ▸ hpaused
    · rw [hnone] at hsome
      cases hsome
  · intro token htoken
    rw [htoken] at hnone
    exact absurd rfl hnone

theorem ends_removeAccountTokens
    (hpost : amount ≤ holding s.holdings tokenSymbol name →
      post () { s with holdings := debited s.holdings tokenSymbol name amount })
    (hfail : ∀ e s', Refused s e s' → fail e s') :
    Ends (removeAccountTokens name tokenSymbol amount trxId) s post fail := by
  simp only [removeAccountTokens, ends_bind, ends_get]
  refine ends_assertOrSave (fun hsome ↦ ?_) fun _ ↦ hfail
  refine ends_assertOrSave (fun hamount ↦ ?_) fun _ ↦ hfail
  obtain ⟨row, hrow⟩ := Option.isSome_iff_exists.1 hsome
  refine hpost ?_
  rw [holding, hrow]
  exact hamount row hrow

/-! ## Actions -/

/-- `create_token` goes through. -/
structure Creates (doc : TokenDocument) (s : TokenTables) (tokenSymbol : AssetSymbol)
    (total max : UInt64) : Prop where
  symbol : doc.tokenSymbol = some tokenSymbol
  usable : tokenSymbol ≠ noneSymbol
  fresh : s.tokens.find? tokenSymbol = none
  supply : doc.totalSupply = some total
  limit : (if doc.hasMaxSupply then doc.maxSupply else some uint64Max) = some max

/-- `issue_token` goes through. -/
structure Issues (doc : TokenDocument) (sender : AccountName) (s : TokenTables)
    (tokenSymbol : AssetSymbol) (additional : UInt64) (token : CustomToken) : Prop where
  symbol : doc.tokenSymbol = some tokenSymbol
  exists_token : s.tokens.find? tokenSymbol = some token
  running : token.paused = false
  amount : doc.additionalAmount = some additional
  owner : token.ownerName = sender
  limit : token.totalSupply + additional < token.maxSupply

/-- What the actions do when they go through, each as a whole. -/
inductive TokenChange (note : Notification) (sender : AccountName) (recipients : List AccountName)
    (doc : TokenDocument) (s : TokenTables) : TokenTables → Prop
  | create {tokenSymbol : AssetSymbol} {total max : UInt64}
      (haction : doc.action = some .createToken) (h : Creates doc s tokenSymbol total max) :
      TokenChange note sender recipients doc s
        ({ s with
          tokens := s.tokens.emplace tokenSymbol ⟨sender, total, max, 0, false⟩
          holdings := credited s.holdings tokenSymbol sender total
          }.logOperation sender tokenSymbol note)
  | pause {tokenSymbol : AssetSymbol} {token : CustomToken}
      (haction : doc.action = some .pauseToken) (hsymbol : doc.tokenSymbol = some tokenSymbol)
      (htoken : s.tokens.find? tokenSymbol = some token) (howner : token.ownerName = sender) :
      TokenChange note sender recipients doc s
        ({ s with
          tokens := s.tokens.modify tokenSymbol fun token ↦ { token with paused := !token.paused }
          }.logOperation sender tokenSymbol note)
  | transfer {amount : Asset} {token : CustomToken} {recipient : AccountName}
      {others : List AccountName} (haction : doc.action = some .transferToken)
      (hamount : doc.amount = some amount) (htoken : s.tokens.find? amount.symbol = some token)
      (hrunning : token.paused = false) (hrecipient : recipients = recipient :: others)
      (henough : tokenAmount amount ≤ holding s.holdings amount.symbol sender) :
      TokenChange note sender recipients doc s
        (({ s with
          holdings := credited (debited s.holdings amount.symbol sender (tokenAmount amount))
            amount.symbol recipient (tokenAmount amount)
          }.logOperation sender amount.symbol note).logOperation recipient amount.symbol note)
  | burn {amount : Asset} {token : CustomToken} (haction : doc.action = some .burnToken)
      (hamount : doc.amount = some amount) (htoken : s.tokens.find? amount.symbol = some token)
      (hrunning : token.paused = false)
      (henough : tokenAmount amount ≤ holding s.holdings amount.symbol sender) :
      TokenChange note sender recipients doc s
        { ({ s with
            holdings := debited s.holdings amount.symbol sender (tokenAmount amount)
            }.logOperation sender amount.symbol note) with
          tokens := s.tokens.modify amount.symbol fun token ↦
            { token with burned := token.burned + tokenAmount amount } }
  | issue {tokenSymbol : AssetSymbol} {additional : UInt64} {token : CustomToken}
      (haction : doc.action = some .issueToken)
      (h : Issues doc sender s tokenSymbol additional token) :
      TokenChange note sender recipients doc s
        ({ s with
          tokens := s.tokens.modify tokenSymbol fun token ↦
            { token with totalSupply := token.totalSupply + additional }
          holdings := credited s.holdings tokenSymbol sender additional
          }.logOperation sender tokenSymbol note)

theorem createToken_ends (haction : doc.action = some .createToken) :
    Ends (createToken doc sender note) s
      (fun _ s' ↦ TokenChange note sender recipients doc s s')
      fun e s' ↦ Refused s e s' ∧ ∀ symbol total max, ¬ Creates doc s symbol total max := by
  simp only [createToken, ends_bind, ends_orBadJson, ends_findToken]
  refine ⟨fun symbol hsymbol ↦ ?_, fun hnone ↦ ?_⟩
  · refine ends_assertOrSave (fun husable ↦ ?_) fun hunusable e s' hrefused ↦ ?_
    · refine ends_assertOrSave (fun hfresh ↦ ?_) fun htaken e s' hrefused ↦ ?_
      · refine ⟨fun total htotal ↦ ?_, fun hnone ↦ ?_⟩
        · rw [ends_ite]
          refine ⟨fun hhas ↦ ?_, fun hhas ↦ ?_⟩
          · rw [ends_orBadJson]
            refine ⟨fun max hmax ↦ ?_, fun hnone ↦ ?_⟩
            · rw [ends_insertToken hfresh, ends_addAccountTokens, ends_saveTokenOperation]
              exact .create haction ⟨hsymbol, husable, hfresh, htotal, by rw [if_pos hhas, hmax]⟩
            · refine ⟨⟨by simp, .refl s⟩, fun _ _ _ h ↦ ?_⟩
              have hlimit := h.limit
              rw [if_pos hhas, hnone] at hlimit
              cases hlimit
          · rw [ends_pure, ends_insertToken hfresh, ends_addAccountTokens, ends_saveTokenOperation]
            exact .create haction ⟨hsymbol, husable, hfresh, htotal, by rw [if_neg hhas]⟩
        · refine ⟨⟨by simp, .refl s⟩, fun _ _ _ h ↦ ?_⟩
          cases hnone.symm.trans h.supply
      · refine ⟨hrefused, fun other _ _ h ↦ htaken ?_⟩
        cases hsymbol.symm.trans h.symbol
        exact h.fresh
    · refine ⟨hrefused, fun other _ _ h ↦ hunusable ?_⟩
      cases hsymbol.symm.trans h.symbol
      exact h.usable
  · refine ⟨⟨by simp, .refl s⟩, fun _ _ _ h ↦ ?_⟩
    cases hnone.symm.trans h.symbol

theorem pauseToken_ends (recipients : List AccountName)
    (haction : doc.action = some .pauseToken) :
    Ends (pauseToken doc sender note) s
      (fun _ s' ↦ (∀ symbol, doc.tokenSymbol = some symbol → s.tokens.find? symbol ≠ none) ∧
        (TokenChange note sender recipients doc s s' ∨ s' = s))
      fun e s' ↦ s' = s ∧ (e = .nullDereference ↔
        ∃ symbol, doc.tokenSymbol = some symbol ∧ s.tokens.find? symbol = none) := by
  simp only [pauseToken, ends_bind, ends_orBadJson, ends_findToken, ends_derefToken, ends_ite,
    ends_modifyToken, ends_saveTokenOperation, ends_pure]
  refine ⟨fun symbol hsymbol ↦ ⟨fun token htoken ↦ ?_, fun hnone ↦ ?_⟩, fun hnone ↦ ?_⟩
  · have hexists : ∀ other, doc.tokenSymbol = some other → s.tokens.find? other ≠ none := by
      intro other hother
      cases hsymbol.symm.trans hother
      rw [htoken]
      simp
    exact ⟨fun howner ↦ ⟨hexists, .inl (.pause haction hsymbol htoken howner)⟩,
      fun _ ↦ ⟨hexists, .inr trivial⟩⟩
  · exact ⟨trivial, iff_of_true trivial ⟨symbol, hsymbol, hnone⟩⟩
  · refine ⟨trivial, iff_of_false (by simp) ?_⟩
    rintro ⟨symbol, hsymbol, _⟩
    cases hnone.symm.trans hsymbol

theorem transferToken_ends (haction : doc.action = some .transferToken) :
    Ends (transferToken doc sender recipients note) s
      (fun _ s' ↦ TokenChange note sender recipients doc s s') (Refused s) := by
  simp only [transferToken, ends_bind, ends_orBadJson]
  refine ⟨fun amount hamount ↦ ?_, fun _ ↦ ⟨by simp, .refl s⟩⟩
  refine ends_checkIfPaused (fun token htoken hrunning ↦ ?_) fun _ _ _ hrefused ↦ hrefused
  cases recipients with
  | nil => exact ends_assertOrSave (fun hfalse ↦ hfalse.elim) fun _ _ _ hrefused ↦ hrefused
  | cons recipient others =>
    simp only [ends_bind, ends_addAccountTokens, ends_saveTokenOperation]
    refine ends_removeAccountTokens (fun henough ↦ ?_) fun _ _ hrefused ↦ hrefused
    exact .transfer haction hamount htoken hrunning rfl henough

theorem burnToken_ends (haction : doc.action = some .burnToken) :
    Ends (burnToken doc sender note) s
      (fun _ s' ↦ TokenChange note sender recipients doc s s') (Refused s) := by
  simp only [burnToken, ends_bind, ends_orBadJson, ends_saveTokenOperation, ends_findToken]
  refine ⟨fun amount hamount ↦ ?_, fun _ ↦ ⟨by simp, .refl s⟩⟩
  refine ends_checkIfPaused (fun token htoken hrunning ↦ ?_) fun _ _ _ hrefused ↦ hrefused
  refine ends_removeAccountTokens (fun henough ↦ ?_) fun _ _ hrefused ↦ hrefused
  have hsome : (s.tokens.find? amount.symbol).isSome = true := by rw [htoken, Option.isSome_some]
  show Ends (if (s.tokens.find? amount.symbol).isSome = true then _ else _) _ _ _
  rw [if_pos hsome, ends_modifyToken]
  exact .burn haction hamount htoken hrunning henough

theorem issueToken_ends (recipients : List AccountName)
    (haction : doc.action = some .issueToken) :
    Ends (issueToken doc sender note) s
      (fun _ s' ↦ TokenChange note sender recipients doc s s' ∨
        s' = s ∧ ∀ symbol additional token, ¬ Issues doc sender s symbol additional token)
      fun e s' ↦ Refused s e s' ∧
        ∀ symbol additional token, ¬ Issues doc sender s symbol additional token := by
  simp only [issueToken, ends_bind, ends_orBadJson, ends_findToken]
  refine ⟨fun symbol hsymbol ↦ ?_, fun hnone ↦ ?_⟩
  · refine ends_checkIfPaused (fun token htoken hrunning ↦ ⟨fun additional hadditional ↦ ?_,
      fun hnone ↦ ?_⟩) fun hpaused e s' hrefused ↦ ?_
    · refine ends_assertOrSave (fun _ ↦ ?_) fun hnone ↦ ?_
      · simp only [ends_derefToken, ends_ite, ends_modifyToken, ends_bind, ends_addAccountTokens,
          ends_saveTokenOperation, ends_pure]
        refine ⟨fun row hrow ↦ ?_, fun hnone ↦ ?_⟩
        · cases htoken.symm.trans hrow
          refine ⟨fun hgoes ↦ .inl (.issue haction
            ⟨hsymbol, htoken, hrunning, hadditional, hgoes.1, hgoes.2⟩), fun hstays ↦ ?_⟩
          refine .inr ⟨trivial, fun other more row h ↦ hstays ?_⟩
          cases hsymbol.symm.trans h.symbol
          cases htoken.symm.trans h.exists_token
          cases hadditional.symm.trans h.amount
          exact ⟨h.owner, h.limit⟩
        · cases htoken.symm.trans hnone
      · rw [htoken] at hnone
        exact absurd rfl hnone
    · refine ⟨⟨by simp, .refl s⟩, fun _ _ _ h ↦ ?_⟩
      cases hnone.symm.trans h.amount
    · refine ⟨hrefused, fun other _ row h ↦ ?_⟩
      cases hsymbol.symm.trans h.symbol
      cases (hpaused row h.exists_token).symm.trans h.running
  · refine ⟨⟨by simp, .refl s⟩, fun _ _ _ h ↦ ?_⟩
    cases hnone.symm.trans h.symbol

/-! ## Operations -/

/-- An operation is for the plugin, and holds a document that it looks into. -/
def TokenPlugin.Reads (plugin : TokenPlugin) (note : Notification) (sender : AccountName)
    (recipients : List AccountName) (doc : TokenDocument) : Prop :=
  ∃ json, note.op = .customJson sender recipients plugin.appId json ∧ json ≠ [] ∧
    plugin.read json = some doc ∧ doc.hasTokenSymbol = true

/-- A token is to be paused that does not exist. -/
def PausesMissing (doc : TokenDocument) (s : TokenTables) : Prop :=
  doc.action = some .pauseToken ∧
    ∃ symbol, doc.tokenSymbol = some symbol ∧ s.tokens.find? symbol = none

/-- How the handling of an operation ends: with the whole change of its action, or with nothing
changed but the errors. -/
inductive TokenOutcome (plugin : TokenPlugin) (note : Notification) (s : TokenTables) :
    Option TokenFailure → TokenTables → Prop
  | change {sender : AccountName} {recipients : List AccountName} {doc : TokenDocument}
      {s' : TokenTables} (hreads : plugin.Reads note sender recipients doc)
      (hchange : TokenChange note sender recipients doc s s') : TokenOutcome plugin note s none s'
  | unchanged {e : Option TokenFailure} {s' : TokenTables} (hsame : SameBooks s s')
      (hnull : e = some .nullDereference ↔
        ∃ sender recipients doc, plugin.Reads note sender recipients doc ∧ PausesMissing doc s)
      (hcreates : ∀ sender recipients doc, plugin.Reads note sender recipients doc →
        doc.action = some .createToken → ∀ symbol total max, ¬ Creates doc s symbol total max)
      (hissues : ∀ sender recipients doc, plugin.Reads note sender recipients doc →
        doc.action = some .issueToken →
          ∀ symbol additional token, ¬ Issues doc sender s symbol additional token) :
      TokenOutcome plugin note s e s'

variable {plugin : TokenPlugin}

theorem TokenPlugin.Reads.unique {sender' : AccountName} {recipients' : List AccountName}
    {doc' : TokenDocument} (h : plugin.Reads note sender recipients doc)
    (h' : plugin.Reads note sender' recipients' doc') : sender' = sender ∧ doc' = doc := by
  obtain ⟨json, hop, _, hread, _⟩ := h
  obtain ⟨json', hop', _, hread', _⟩ := h'
  rw [hop] at hop'
  cases hop'
  rw [hread] at hread'
  cases hread'
  exact ⟨rfl, rfl⟩

/-- Nothing is changed by an operation without a document, or with one of no known action. -/
theorem TokenOutcome.idle {e : Option TokenFailure} (hsame : SameBooks s s')
    (he : e ≠ some .nullDereference)
    (hreads : ∀ sender recipients doc, plugin.Reads note sender recipients doc →
      doc.action = none ∨ doc.action = some .other ∨ doc.action = some .transferToken ∨
        doc.action = some .burnToken) : TokenOutcome plugin note s e s' := by
  refine .unchanged hsame (iff_of_false he ?_) ?_ ?_
  · rintro ⟨_, _, doc, hdoc, haction, _⟩
    rcases hreads _ _ _ hdoc with h | h | h | h <;> cases haction.symm.trans h
  · intro _ _ doc hdoc haction
    rcases hreads _ _ _ hdoc with h | h | h | h <;> cases haction.symm.trans h
  · intro _ _ doc hdoc haction
    rcases hreads _ _ _ hdoc with h | h | h | h <;> cases haction.symm.trans h

/-- Nothing is changed by an operation whose document is known. -/
theorem TokenOutcome.refused {e : Option TokenFailure} (hsame : SameBooks s s')
    (hdoc : plugin.Reads note sender recipients doc)
    (hnull : e = some .nullDereference ↔ PausesMissing doc s)
    (hcreates : doc.action = some .createToken →
      ∀ symbol total max, ¬ Creates doc s symbol total max)
    (hissues : doc.action = some .issueToken →
      ∀ symbol additional token, ¬ Issues doc sender s symbol additional token) :
    TokenOutcome plugin note s e s' := by
  refine .unchanged hsame (hnull.trans ⟨fun h ↦ ⟨_, _, _, hdoc, h⟩, ?_⟩) ?_ ?_
  · rintro ⟨_, _, _, hdoc', h⟩
    obtain ⟨_, rfl⟩ := hdoc.unique hdoc'
    exact h
  · intro _ _ _ hdoc'
    obtain ⟨_, rfl⟩ := hdoc.unique hdoc'
    exact hcreates
  · intro _ _ _ hdoc'
    obtain ⟨rfl, rfl⟩ := hdoc.unique hdoc'
    exact hissues

theorem not_pausesMissing (h : doc.action ≠ some .pauseToken) : ¬ PausesMissing doc s :=
  fun hpauses ↦ h hpauses.1

theorem Refused.ne_null {e : TokenFailure} (h : Refused s e s') :
    some e ≠ some TokenFailure.nullDereference := fun he ↦ h.1 (Option.some.inj he)

/-- The end of the handling of an action. -/
theorem TokenPlugin.handle_ends {json : Bytes}
    (hop : note.op = .customJson sender recipients plugin.appId json) :
    Ends (plugin.handle note sender recipients json) s
      (fun _ s' ↦ TokenOutcome plugin note s none s')
      fun e s' ↦ TokenOutcome plugin note s (some e) s' := by
  have hjson : ∀ sender' recipients' doc', plugin.Reads note sender' recipients' doc' →
      json ≠ [] ∧ plugin.read json = some doc' ∧ doc'.hasTokenSymbol = true := by
    rintro _ _ _ ⟨json', hop', h⟩
    rw [hop] at hop'
    cases hop'
    exact h
  simp only [handle, ends_bind, ends_orBadJson]
  refine ends_assertOrSave (fun hne ↦ ⟨fun doc hread ↦ ?_, fun hnone ↦ ?_⟩)
    fun hempty e s' hrefused ↦ ?_
  · refine ends_assertOrSave (fun hsymbol ↦ ⟨fun action haction ↦ ?_, fun hnone ↦ ?_⟩)
      fun hmissing e s' hrefused ↦ ?_
    · have hdoc : plugin.Reads note sender recipients doc := ⟨json, hop, hne, hread, hsymbol⟩
      cases action with
      | createToken =>
        refine (createToken_ends haction).mono (fun _ s' hchange ↦ .change hdoc hchange) ?_
        rintro e s' ⟨hrefused, hcreates⟩
        refine .refused hrefused.2 hdoc (iff_of_false hrefused.ne_null (not_pausesMissing ?_))
          (fun _ ↦ hcreates) fun hissue ↦ ?_
        · simp [haction]
        · cases haction.symm.trans hissue
      | pauseToken =>
        have hnot : ∀ action, action ≠ TokenAction.pauseToken → doc.action ≠ some action := by
          intro action hne haction'
          exact hne (Option.some.inj (haction'.symm.trans haction))
        refine (pauseToken_ends recipients haction).mono ?_ ?_
        · rintro _ s' ⟨hexists, hchange | rfl⟩
          · exact .change hdoc hchange
          · refine .refused (.refl _) hdoc (iff_of_false (by simp) ?_)
              (fun h ↦ absurd h (hnot _ (by simp))) fun h ↦ absurd h (hnot _ (by simp))
            rintro ⟨_, symbol, hsymbol, hnone⟩
            exact hexists symbol hsymbol hnone
        · rintro e s' ⟨rfl, he⟩
          refine .refused (.refl _) hdoc ?_ (fun h ↦ absurd h (hnot _ (by simp)))
            fun h ↦ absurd h (hnot _ (by simp))
          rw [Option.some.injEq, he]
          exact (and_iff_right haction).symm
      | transferToken =>
        refine (transferToken_ends haction).mono (fun _ s' hchange ↦ .change hdoc hchange) ?_
        refine fun e s' hrefused ↦ .idle hrefused.2 hrefused.ne_null fun _ _ _ hdoc' ↦ ?_
        obtain ⟨_, rfl⟩ := hdoc.unique hdoc'
        exact .inr (.inr (.inl haction))
      | burnToken =>
        refine (burnToken_ends haction).mono (fun _ s' hchange ↦ .change hdoc hchange) ?_
        refine fun e s' hrefused ↦ .idle hrefused.2 hrefused.ne_null fun _ _ _ hdoc' ↦ ?_
        obtain ⟨_, rfl⟩ := hdoc.unique hdoc'
        exact .inr (.inr (.inr haction))
      | issueToken =>
        have hpause : ¬ PausesMissing doc s := not_pausesMissing (by simp [haction])
        refine (issueToken_ends recipients haction).mono ?_ ?_
        · rintro _ s' (hchange | ⟨rfl, hissues⟩)
          · exact .change hdoc hchange
          · refine .refused (.refl _) hdoc (iff_of_false (by simp) hpause) (fun h ↦ ?_)
              fun _ ↦ hissues
            cases haction.symm.trans h
        · rintro e s' ⟨hrefused, hissues⟩
          refine .refused hrefused.2 hdoc (iff_of_false hrefused.ne_null hpause) (fun h ↦ ?_)
            fun _ ↦ hissues
          cases haction.symm.trans h
      | other =>
        refine ends_assertOrSave (fun hfalse ↦ hfalse.elim) fun _ e s' hrefused ↦ ?_
        refine .idle hrefused.2 hrefused.ne_null fun _ _ _ hdoc' ↦ ?_
        obtain ⟨_, rfl⟩ := hdoc.unique hdoc'
        exact .inr (.inl haction)
    · refine .idle (.refl s) (by simp) fun _ _ doc' hdoc' ↦ ?_
      obtain ⟨_, hread', _⟩ := hjson _ _ _ hdoc'
      cases hread.symm.trans hread'
      exact .inl hnone
    · refine .idle hrefused.2 hrefused.ne_null fun _ _ doc' hdoc' ↦ ?_
      obtain ⟨_, hread', hsymbol⟩ := hjson _ _ _ hdoc'
      cases hread.symm.trans hread'
      exact absurd hsymbol hmissing
  · refine .idle (.refl s) (by simp) fun _ _ doc' hdoc' ↦ ?_
    obtain ⟨_, hread', _⟩ := hjson _ _ _ hdoc'
    cases hnone.symm.trans hread'
  · refine .idle hrefused.2 hrefused.ne_null fun _ _ doc' hdoc' ↦ ?_
    exact absurd (hjson _ _ _ hdoc').1 hempty

theorem TokenPlugin.postOperation_outcome (plugin : TokenPlugin) (note : Notification)
    (s : TokenTables) : TokenOutcome plugin note s (thrown (plugin.postOperation note) s)
      (stateAfter (plugin.postOperation note) s) := by
  refine Ends.stateAfter (P := TokenOutcome plugin note s) ?_
  have hother : (∀ sender recipients json,
      note.op ≠ .customJson sender recipients plugin.appId json) →
      TokenOutcome plugin note s none s := by
    refine fun h ↦ .idle (.refl s) (by simp) ?_
    rintro _ _ _ ⟨json, hop, _⟩
    exact absurd hop (h _ _ _)
  unfold postOperation
  split
  · rename_i sender recipients appId json hop
    rw [ends_ite]
    refine ⟨?_, fun happ ↦ hother fun _ _ _ hop' ↦ ?_⟩
    · rintro rfl
      exact handle_ends hop
    · rw [hop] at hop'
      cases hop'
      exact happ rfl
  · rename_i hop
    exact hother fun _ _ _ hop' ↦ hop _ _ _ _ hop'

end SophiaTX.Plugins
