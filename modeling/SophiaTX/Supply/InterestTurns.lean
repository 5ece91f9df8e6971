import SophiaTX.Chainbase.Ids
import SophiaTX.Supply.TimeWeighted
import SophiaTX.Chain.MainChain

/-!
# Interest turns and the supply window

Every account has its turn for interests once in a period, in the block whose number has the
remainder of its id. What is paid there is a share by the supplies of the blocks of a period, whose
sum is kept in step with the ring buffer they are recorded in.
-/

open scoped BigOperators

namespace SophiaTX.Chain

open SophiaTX.Protocol SophiaTX.Lib

/-! ## The supply history -/

/-- Only `record_block` writes the supply history. -/
theorem Move.Direct.history {s t : Database} {m : Move} (hm : ∀ num, m ≠ .recordBlock num)
    (h : m.Direct s t) : s.economics.SameHistory t.economics := by
  cases m with
  | recordBlock num => exact absurd rfl (hm num)
  | advanceHead _ =>
    obtain ⟨_, _, rfl⟩ := h
    exact .refl _
  | payInterest _ _ =>
    obtain ⟨_, _, _, _, _, _, hhistory, rfl⟩ := h
    exact hhistory
  | burnVesting _ =>
    obtain ⟨_, _, _, rfl⟩ := h
    exact .refl _
  | _ => exact (Move.Direct.drift (by trivial) h).history

theorem EconomicModel.SameHistory.trans {e e₁ e₂ : EconomicModel} (h : e.SameHistory e₁)
    (h' : e₁.SameHistory e₂) : e.SameHistory e₂ :=
  ⟨h'.historicSupply.trans h.historicSupply, h'.accumulatedSupply.trans h.accumulatedSupply⟩

theorem Explained.history {g : GenesisState} {stage : Stage} {s s' : Database}
    {effect : ShareType × ShareType × ShareType} (h : Explained g stage effect s s') (hs : Sound s)
    (hstage : ∀ b, stage ≠ .recordBlock b) : s.economics.SameHistory s'.economics := by
  obtain ⟨ms, hms, hallowed, _⟩ := h
  refine (hms.invariant (I := fun t ↦ Sound t ∧ s.economics.SameHistory t.economics) ?_
    ⟨hs, .refl _⟩).2
  rintro s₁ m s₂ hm hstep ⟨hs₁, hhistory⟩
  have hrecord : ∀ num, m ≠ .recordBlock num := by
    rintro num rfl
    obtain ⟨b, hb, _⟩ := hallowed _ hm
    exact hstage b hb
  obtain ⟨t, hdirect, hmoney⟩ := Move.Step.direct hstep hs₁.accumulated
  refine ⟨Move.Step.sound hstep hs₁, (hhistory.trans (hdirect.history hrecord)).trans ?_⟩
  exact hmoney.drift.history

/-! ## Ids of accounts -/

/-- The index of the accounts: names are unique. -/
abbrev AccountIndex := Chainbase.GenericIndex fun entry : AccountName × Account ↦ [entry.1]

/-- An index that accounts were created in holds the rows of a table under their positions. -/
structure AccountIndex.Holds (t : AccountIndex) (accounts : Table AccountName Account) : Prop where
  grown : t.Grown
  rows : ∀ id, t.indices.find? id = accounts.entries[id]?

namespace AccountIndex.Holds

variable {t : AccountIndex} {accounts : Table AccountName Account}

/-- The next id is the number of accounts. -/
theorem nextId_eq (h : Holds t accounts) : t.nextId = accounts.size := by
  have hids : ∀ id, id < t.nextId ↔ id < accounts.size := by
    intro id
    rw [← h.grown.contiguous.1, h.rows, isSome_getElem?]
    rfl
  exact le_antisymm (le_of_forall_lt fun id hid ↦ (hids id).1 hid)
    (le_of_forall_lt fun id hid ↦ (hids id).2 hid)

theorem taken_iff (h : Holds t accounts) (name : AccountName) (a : Account) :
    t.indices.Taken t.nextId (name, a) ↔ name ∈ accounts.entries.map Prod.fst := by
  simp only [MultiIndex.taken_iff, h.rows, Clash, List.mem_singleton, exists_eq_left, List.mem_map]
  constructor
  · rintro ⟨id, entry, hentry, _, hname⟩
    exact ⟨entry, List.mem_of_getElem? hentry, hname.symm⟩
  · rintro ⟨entry, hmem, hname⟩
    obtain ⟨id, hid, hentry⟩ := List.getElem_of_mem hmem
    refine ⟨id, entry, by rw [List.getElem?_eq_getElem hid, hentry], ?_, hname.symm⟩
    rw [h.nextId_eq]
    exact hid.ne

/-- `emplace` in the index is the creation of a row in the table, with the number of rows as its
id. It fails in both or in neither, and a failure takes no id. -/
theorem emplace (h : Holds t accounts) (name : AccountName) (c : ℕ → Account) :
    match accounts.emplace? name (c accounts.size) with
    | none => (t.emplace fun id ↦ (name, c id)).2 = false ∧
        Holds (t.emplace fun id ↦ (name, c id)).1 accounts
    | some accounts' => (t.emplace fun id ↦ (name, c id)).2 = true ∧
        Holds (t.emplace fun id ↦ (name, c id)).1 accounts' := by
  have hgrown : Chainbase.GenericIndex.Grown (t.emplace fun id ↦ (name, c id)).1 :=
    h.grown.emplace fun id ↦ (name, c id)
  have hfree : t.indices.find? t.nextId = none := by
    rw [h.rows, h.nextId_eq]
    exact List.getElem?_eq_none le_rfl
  cases haccounts : accounts.emplace? name (c accounts.size) with
  | none =>
    have htaken : t.indices.Taken t.nextId (name, c t.nextId) := by
      refine (h.taken_iff name _).2 ?_
      by_contra hname
      simp [Table.emplace?, hname] at haccounts
    cases hindices : t.indices.emplace? t.nextId (name, c t.nextId) with
    | none =>
      simp only [Chainbase.GenericIndex.emplace, hindices]
      exact ⟨trivial, h⟩
    | some indices => exact absurd htaken (MultiIndex.emplace?_eq_some hindices).2.1
  | some accounts' =>
    obtain ⟨hname, hentries⟩ := Table.emplace?_eq_some haccounts
    have hnot : ¬ t.indices.Taken t.nextId (name, c t.nextId) := by
      rw [h.taken_iff]
      exact (Table.find?_eq_none_iff _ _).1 hname
    obtain ⟨indices, hindices⟩ := MultiIndex.emplace?_isSome hfree hnot
    have hfind := (MultiIndex.emplace?_eq_some hindices).2.2
    have hrows : (t.emplace fun id ↦ (name, c id)).1.indices = indices := by
      unfold Chainbase.GenericIndex.emplace Chainbase.GenericIndex.record
      simp only [hindices]
      cases t.stack <;> rfl
    refine ⟨?_, hgrown, fun id ↦ ?_⟩
    · simp only [Chainbase.GenericIndex.emplace, hindices]
    · rw [hrows, hfind, hentries, h.rows, h.nextId_eq, Table.size]
      rcases lt_trichotomy id accounts.entries.length with hlt | heq | hgt
      · rw [if_neg hlt.ne, List.getElem?_append_left hlt]
      · simp [heq]
      · rw [if_neg hgt.ne', List.getElem?_eq_none hgt.le, List.getElem?_eq_none]
        simpa using hgt

end AccountIndex.Holds

/-! ## The turns of a block -/

namespace Database

/-- The loop of `process_interests`, which notes the accounts it pays. -/
def payInterestsNoting (g : GenesisState) :
    ℕ → ℕ → Database → ShareType → Exec ((Database × ShareType) × List AccountName)
  | 0, _, s, supplyIncrease => pure ((s, supplyIncrease), [])
  | rounds + 1, id, s, supplyIncrease =>
    match s.findAccountById id with
    | none => pure ((s, supplyIncrease), [])
    | some (name, a) => do
      let (s, interest) ← s.payInterest g name a
      let supplyIncrease ← (if 0 < interest then safeAdd supplyIncrease interest
        else pure supplyIncrease)
      let (paid, turns) ← payInterestsNoting g rounds (id + interestBlocks) s supplyIncrease
      pure (paid, name :: turns)

/-- The accounts that get their turn in `process_interests`. -/
def interestTurns (g : GenesisState) (s : Database) : List AccountName :=
  match payInterestsNoting g (s.accounts.size + 1) (s.dgp.headBlockNumber % interestBlocks) s 0 with
  | .error _ => []
  | .ok (_, turns) => turns

variable {g : GenesisState} {s s' : Database}

/-- Noting the accounts changes nothing in the loop. -/
theorem payInterestsNoting_fst (rounds id : ℕ) (s : Database) (supplyIncrease : ShareType) :
    Prod.fst <$> payInterestsNoting g rounds id s supplyIncrease =
      payInterests g rounds id s supplyIncrease := by
  induction rounds generalizing id s supplyIncrease with
  | zero => rfl
  | succ rounds ih =>
    unfold payInterestsNoting payInterests
    cases s.findAccountById id with
    | none => rfl
    | some entry =>
      obtain ⟨name, a⟩ := entry
      simp only [← ih, map_eq_pure_bind, bind_assoc, pure_bind]

theorem exists_turns {rounds id : ℕ} {supplyIncrease : ShareType} {paid : Database × ShareType}
    (hpay : payInterests g rounds id s supplyIncrease = .ok paid) :
    ∃ turns, payInterestsNoting g rounds id s supplyIncrease = .ok (paid, turns) := by
  rw [← payInterestsNoting_fst] at hpay
  cases hnoting : payInterestsNoting g rounds id s supplyIncrease with
  | error e =>
    rw [hnoting] at hpay
    cases hpay
  | ok noted =>
    obtain ⟨paid', turns⟩ := noted
    rw [hnoting] at hpay
    cases hpay
    exact ⟨turns, rfl⟩

/-- The loop comes once to every account of the batch that it has not passed yet. -/
theorem count_turns {rounds id : ℕ} {supplyIncrease : ShareType} {paid : Database × ShareType}
    {turns : List AccountName} (hs : Sound s) (horder : InOrder s.accounts)
    (hbatch : id % interestBlocks = s.dgp.headBlockNumber % interestBlocks)
    (hrounds : s.accounts.size ≤ id + rounds)
    (hpay : payInterestsNoting g rounds id s supplyIncrease = .ok (paid, turns))
    {name : AccountName} {a : Account} (ha : s.accounts.find? name = some a) :
    turns.count name = if id ≤ a.id ∧ a.OnTurn s.dgp.headBlockNumber then 1 else 0 := by
  have hid := horder.id_lt ha
  induction rounds generalizing id s a supplyIncrease turns with
  | zero =>
    cases hpay
    rw [List.count_nil, if_neg]
    omega
  | succ rounds ih =>
    unfold payInterestsNoting at hpay
    cases hfind : s.findAccountById id with
    | none =>
      have hsize := horder.size_le_of_findAccountById hfind
      rw [hfind] at hpay
      cases hpay
      rw [List.count_nil, if_neg]
      omega
    | some entry =>
      obtain ⟨first, b⟩ := entry
      simp only [hfind, bind_eq_ok, Prod.exists] at hpay
      obtain ⟨s₁, interest, hturn, increased, _, s₂, paid', rest, hpay, hnoted⟩ := hpay
      cases hnoted
      obtain ⟨hb, rfl⟩ := find?_of_findAccountById hfind
      have hstep : Explained g .processInterests (-interest, 0, -interest) s s₁ :=
        .single (m := .payInterest first interest) ⟨b, hb, hbatch, hturn⟩ rfl
      have hsame := hstep.sameIds hs
      have hhead : s₁.dgp.headBlockNumber = s.dgp.headBlockNumber :=
        (hstep.head_eq hs (by simp)).1
      obtain ⟨_, _, _, _, hmoney⟩ := payInterest_money hb hs.accumulated hturn
      have hkeys : s₁.accounts.keys = s.accounts.keys := by
        rw [hmoney.accounts.1]
        exact Table.keys_modify _ _ _
      have hsize : s₁.accounts.size = s.accounts.size := by
        simpa [Table.keys, Table.size] using congrArg List.length hkeys
      obtain ⟨a₁, ha₁, hid₁⟩ := hsame.ids name a ha
      have hrest := ih (hstep.sound hs) (hsame.order horder)
        (by rw [hhead, Nat.add_mod_right]; exact hbatch)
        (by rw [hsize]; unfold interestBlocks; omega) hpay ha₁ (by rw [hsize, hid₁]; exact hid)
      rw [List.count_cons, hrest, hhead, hid₁]
      have honTurn : a₁.OnTurn s.dgp.headBlockNumber ↔ a.OnTurn s.dgp.headBlockNumber := by
        rw [AccountHoldings.OnTurn, AccountHoldings.OnTurn, hid₁]
      simp only [honTurn]
      by_cases hfirst : first = name
      · obtain rfl := hfirst
        cases ha.symm.trans hb
        have hturn : a.OnTurn s.dgp.headBlockNumber := hbatch
        have hpassed : ¬ a.id + interestBlocks ≤ a.id := by
          unfold interestBlocks
          omega
        simp [hturn, hpassed]
      · -- Ids of the batch are a period apart, and no two accounts share one.
        have hne : a.id ≠ b.id := fun hsameId ↦ hfirst (horder.key_eq hb ha hsameId.symm)
        have hlater : a.OnTurn s.dgp.headBlockNumber →
            (b.id + interestBlocks ≤ a.id ↔ b.id ≤ a.id) := by
          intro hturn
          have hmod : a.id % 2400 = b.id % 2400 := hturn.trans hbatch.symm
          unfold interestBlocks
          omega
        have hname : (first == name) = false := beq_eq_false_iff_ne.2 hfirst
        by_cases hturn : a.OnTurn s.dgp.headBlockNumber
        · simp [hturn, hlater hturn, hname]
        · simp [hturn, hname]

/-- In `process_interests` every account of the batch gets one turn. -/
theorem count_interestTurns (hs : Sound s) (horder : InOrder s.accounts)
    (hrun : s.processInterests g = .ok s') {name : AccountName} {a : Account}
    (ha : s.accounts.find? name = some a) :
    (s.interestTurns g).count name = if a.OnTurn s.dgp.headBlockNumber then 1 else 0 := by
  simp only [processInterests, bind_eq_ok, Prod.exists] at hrun
  obtain ⟨s₁, total, hpay, _⟩ := hrun
  obtain ⟨turns, hnoting⟩ := exists_turns hpay
  simp only [interestTurns, hnoting]
  rw [count_turns hs horder (Nat.mod_mod _ _) (by omega) hnoting ha]
  have hfirst : a.OnTurn s.dgp.headBlockNumber → s.dgp.headBlockNumber % interestBlocks ≤ a.id := by
    intro hturn
    have hbatch : a.id % interestBlocks = s.dgp.headBlockNumber % interestBlocks := hturn
    rw [← hbatch]
    exact Nat.mod_le _ _
  simp only [and_iff_right_of_imp hfirst]

end Database

/-! ## Blocks -/

/-- Stages up to `process_interests`. -/
def SignedBlock.stagesBeforeInterests (b : SignedBlock) : List Stage :=
  SignedBlock.stagesBeforeCommit b ++
    [.createBlockSummary b, .clearExpiredTransactions, .updateWitnessSchedule]

/-- Stages after `process_interests` up to `record_block`. -/
def SignedBlock.stagesBeforeRecord : SignedBlock → List Stage
  | b => [.updateMedianFeeds, .clearNullAccountBalance, .processFunds b, .processVestingWithdrawals,
    .accountRecoveryProcessing, .expireEscrowRatification, .processHardforks]

theorem stages_interests (b : SignedBlock) : SignedBlock.stages b =
    SignedBlock.stagesBeforeInterests b ++
      .processInterests :: (SignedBlock.stagesBeforeRecord b ++ [.recordBlock b]) := by
  simp [SignedBlock.stages, SignedBlock.stagesBeforeInterests, SignedBlock.stagesBeforeRecord,
    SignedBlock.stagesAfterCommit]

/-- What holds between two blocks of a chain on a public network. -/
structure TurnsSettled (s : Database) : Prop where
  sound : Sound s
  numbered : HeadNumbered s
  order : InOrder s.accounts
  publicNet : s.dgp.privateNet = false

/-- What the stages of a block before its supply is recorded keep of the state before it. -/
structure Continues (s u : Database) : Prop where
  settled : TurnsSettled u
  ids : SameIds s u
  history : s.economics.SameHistory u.economics

namespace TurnsSettled

variable {ctx : Context} {s u : Database} {b : SignedBlock} {done rest : List Stage}

theorem runStages (hskip : ctx.skip.validate = false) (hs : TurnsSettled s)
    (hb : SignedBlock.stages b = done ++ rest) (hrecord : ∀ c, .recordBlock c ∉ done)
    (hrun : Chain.runStages ctx done s = .ok u) :
    Continues s u ∧ ∃ c, Position c u rest := by
  have hstages : RunsFrom ctx (fun _ stage ↦ ∀ c, stage ≠ .recordBlock c) s (some rest) u := by
    refine RunsFrom.runStages ?_ (fun stage hmem _ c hstage ↦ hrecord c (hstage ▸ hmem)) hrun
    exact hb ▸ RunsFrom.refl.start b
  obtain ⟨hnumbered, hposition⟩ := hstages.position hskip hs.sound hs.numbered
  have hkept : Sound u ∧ SameIds s u ∧ u.dgp.privateNet = false ∧
      s.economics.SameHistory u.economics := by
    refine hstages.invariant (I := fun t ↦ Sound t ∧ SameIds s t ∧ t.dgp.privateNet = false ∧
      s.economics.SameHistory t.economics) hskip ?_
      ⟨hs.sound, .of_agree (.refl _), hs.publicNet, .refl _⟩
    rintro t stage t' hstage hvalid hstep ⟨ht, hids, hpublic, hhistory⟩
    have hexplained := Stage.explained ht hvalid hstep
    exact ⟨hexplained.sound ht, hids.trans (hexplained.sameIds ht),
      (hexplained.privateNet_eq ht).trans hpublic, hhistory.trans (hexplained.history ht hstage)⟩
  obtain ⟨hsound, hids, hpublic, hhistory⟩ := hkept
  exact ⟨⟨⟨hsound, hnumbered, hids.order hs.order, hpublic⟩, hids, hhistory⟩, hposition rest rfl⟩

/-- The number of a block is the next one. -/
theorem blockNum_eq (hs : TurnsSettled s)
    (hrun : Chain.runStages ctx (.openBlock b :: done) s = .ok u) :
    b.blockNum = s.dgp.headBlockNumber + 1 := by
  rw [Chain.runStages, List.foldlM_cons, bind_eq_ok] at hrun
  obtain ⟨s₁, hopen, _⟩ := hrun
  have hprevious : s.dgp.headBlockId = b.previous := openBlock_previous hs.sound hopen
  calc b.blockNum = b.previous.num + 1 := rfl
    _ = s.dgp.headBlockNumber + 1 := by rw [← hprevious, hs.numbered]

/-- The state `process_interests` starts in. -/
theorem beforeInterests (hskip : ctx.skip.validate = false) (hs : TurnsSettled s)
    (hrun : Chain.runStages ctx (SignedBlock.stagesBeforeInterests b) s = .ok u) :
    Continues s u ∧ u.dgp.headBlockNumber = s.dgp.headBlockNumber + 1 := by
  obtain ⟨hcontinues, c, hposition⟩ := hs.runStages hskip (stages_interests b)
    (by simp [SignedBlock.stagesBeforeInterests, SignedBlock.stagesBeforeCommit,
      transactionStages]) hrun
  obtain ⟨hsuffix, hhead⟩ := hposition.suffix (by simp) rfl (by simp [Stage.InTransaction])
  have hsame : b = c := by
    simp [SignedBlock.stagesAfterHead, SignedBlock.stagesAfterCommit,
      SignedBlock.stagesBeforeRecord, List.suffix_cons_iff] at hsuffix
    exact hsuffix
  refine ⟨hcontinues, hhead.trans ?_⟩
  rw [← hsame]
  exact hs.blockNum_eq hrun

end TurnsSettled

/-- The accounts that get their turn in a block. On a private network nobody does. -/
def blockTurns (ctx : Context) (entry : Database × SignedBlock) : List AccountName :=
  match runStages ctx (SignedBlock.stagesBeforeInterests entry.2) entry.1 with
  | .error _ => []
  | .ok u => if u.dgp.privateNet then [] else u.interestTurns ctx.genesis

/-- The supply at the end of a block, which `record_block` records. -/
def recordedSupply (ctx : Context) (entry : Database × SignedBlock) : ShareType :=
  match applyBlock ctx entry.1 entry.2 with
  | .error _ => 0
  | .ok s => s.dgp.currentSupply

namespace TurnsSettled

variable {ctx : Context} {s s' : Database} {b : SignedBlock}

/-- A block gives a turn to the accounts whose ids have the remainder of its number. -/
theorem blockTurns (hskip : ctx.skip.validate = false) (hs : TurnsSettled s)
    (h : applyBlock ctx s b = .ok s') {name : AccountName} {a : Account}
    (ha : s.accounts.find? name = some a) :
    (Chain.blockTurns ctx (s, b)).count name =
      if a.OnTurn (s.dgp.headBlockNumber + 1) then 1 else 0 := by
  simp only [applyBlock, Chain.runStages, stages_interests, List.foldlM_append, List.foldlM_cons,
    bind_eq_ok] at h
  obtain ⟨_, ⟨u, hbefore, v, hinterests, _⟩, _⟩ := h
  obtain ⟨hu, hhead⟩ := hs.beforeInterests hskip hbefore
  simp only [Stage.run, onPublicNet, hu.settled.publicNet, if_neg Bool.false_ne_true] at hinterests
  obtain ⟨a', ha', hid⟩ := hu.ids.ids name a ha
  have hturns : Chain.blockTurns ctx (s, b) = u.interestTurns ctx.genesis := by
    have hrun : Chain.runStages ctx (SignedBlock.stagesBeforeInterests b) s = .ok u := hbefore
    simp only [Chain.blockTurns, hrun, hu.settled.publicNet, if_neg Bool.false_ne_true]
  have honTurn : a'.OnTurn (s.dgp.headBlockNumber + 1) ↔ a.OnTurn (s.dgp.headBlockNumber + 1) := by
    rw [AccountHoldings.OnTurn, AccountHoldings.OnTurn, hid]
  calc (Chain.blockTurns ctx (s, b)).count name
      = (u.interestTurns ctx.genesis).count name := by rw [hturns]
    _ = if a'.OnTurn u.dgp.headBlockNumber then 1 else 0 :=
      Database.count_interestTurns hu.settled.sound hu.settled.order hinterests ha'
    _ = if a.OnTurn (s.dgp.headBlockNumber + 1) then 1 else 0 := by
      rw [hhead]
      simp only [honTurn]

/-- A block that is applied records its supply. -/
theorem applyBlock (hskip : ctx.skip.validate = false) (hs : TurnsSettled s)
    (h : Chain.applyBlock ctx s b = .ok s') :
    TurnsSettled s' ∧ SameIds s s' ∧ s'.dgp.headBlockNumber = s.dgp.headBlockNumber + 1 ∧
      ∃ economics, economics.recordBlock (s.dgp.headBlockNumber + 1) s'.dgp.currentSupply =
        .ok s'.economics ∧ s.economics.SameHistory economics := by
  have hblock := h
  simp only [Chain.applyBlock, Chain.runStages, stages_interests, bind_eq_ok, pure_eq_ok] at h
  obtain ⟨_, hrun, _, _, rfl⟩ := h
  rw [← List.cons_append, ← List.append_assoc, List.foldlM_append, bind_eq_ok] at hrun
  obtain ⟨w, hbefore, hrecord⟩ := hrun
  have hstages : SignedBlock.stages b = (SignedBlock.stagesBeforeInterests b ++
      .processInterests :: SignedBlock.stagesBeforeRecord b) ++ [.recordBlock b] := by
    rw [stages_interests, List.append_assoc, List.cons_append]
  obtain ⟨hw, c, hposition⟩ := hs.runStages hskip hstages
    (by simp [SignedBlock.stagesBeforeInterests, SignedBlock.stagesBeforeCommit,
      SignedBlock.stagesBeforeRecord, transactionStages]) hbefore
  have hnumber : b.blockNum = s.dgp.headBlockNumber + 1 := hs.blockNum_eq hbefore
  have hhead : w.dgp.headBlockNumber = s.dgp.headBlockNumber + 1 :=
    hposition.recordBlock.2.trans hnumber
  simp only [List.foldlM_cons, List.foldlM_nil, Stage.run, onPublicNet, hw.settled.publicNet,
    if_neg Bool.false_ne_true, bind_eq_ok, pure_eq_ok] at hrecord
  obtain ⟨_, hrecord, rfl⟩ := hrecord
  obtain ⟨economics, heconomics, rfl⟩ := Database.recordBlock_eq_ok hrecord
  have hstart : RunsFrom ctx (fun _ _ ↦ True) s none s := .refl
  have hsound := (hstart.applyBlock (fun _ _ _ ↦ trivial) hblock).sound hskip hs.sound
  refine ⟨⟨hsound, hw.settled.numbered, hw.settled.order, hw.settled.publicNet⟩,
    ⟨hw.ids.ids, hw.ids.order⟩, hhead, w.economics, ?_, hw.history⟩
  rw [← hnumber]
  exact heconomics

end TurnsSettled

/-! ## Chains of blocks -/

section

variable {ctx : Context} {s₀ s t : Database} {newer older chain : List (Database × SignedBlock)}

theorem GenesisBooks.settled {g : GenesisState} (h : GenesisBooks g s₀)
    (hpublic : g.isPrivateNet = false) : TurnsSettled s₀ where
  sound := h.sound
  numbered := by
    rw [HeadNumbered, h.headId, h.head]
    rfl
  order := h.order
  publicNet := h.privateNet.trans hpublic

/-- The supply history is that of the blocks of the chain. -/
structure Recorded (ctx : Context) (chain : List (Database × SignedBlock)) (s : Database) :
    Prop where
  head : s.dgp.headBlockNumber = chain.length
  historic : s.economics.historicSupply = ring interestBlocks (chain.map (recordedSupply ctx))
  accumulated : s.economics.accumulatedSupply =
    ((chain.map (recordedSupply ctx)).take interestBlocks).sum

theorem Recorded.applyBlock {b : SignedBlock} (h : Recorded ctx chain s)
    (hskip : ctx.skip.validate = false) (hs : TurnsSettled s)
    (hb : Chain.applyBlock ctx s b = .ok t) :
    Recorded ctx ((s, b) :: chain) t := by
  obtain ⟨_, _, hhead, economics, hrecord, hhistory⟩ := hs.applyBlock hskip hb
  obtain ⟨_, hhistoric, haccumulated, _⟩ := EconomicModel.recordBlock_eq_ok hrecord
  have hsupply : recordedSupply ctx (s, b) = t.dgp.currentSupply := by
    simp only [recordedSupply, hb]
  rw [hhistory.historicSupply, h.historic, h.head] at hhistoric
  rw [hhistory.historicSupply, hhistory.accumulatedSupply, h.historic, h.accumulated, h.head]
    at haccumulated
  have hring : t.economics.historicSupply =
      ring interestBlocks (((s, b) :: chain).map (recordedSupply ctx)) := by
    rw [hhistoric, List.map_cons, ring, List.length_map, hsupply]
  -- The slot that is written in the first period is empty, so the sum is that of all slots.
  have hslot : ring interestBlocks (chain.map (recordedSupply ctx))
      ((chain.length + 1) % interestBlocks) =
        if interestBlocks ≤ chain.length + 1 then ring interestBlocks
          (chain.map (recordedSupply ctx)) ((chain.length + 1) % interestBlocks) else 0 := by
    split
    · rfl
    · rename_i hfirst
      have hempty := ring_slot (chain.map (recordedSupply ctx))
        (show interestBlocks - 1 < interestBlocks by decide)
      rw [List.length_map, show chain.length + interestBlocks - (interestBlocks - 1) =
        chain.length + 1 by unfold interestBlocks; omega] at hempty
      rw [hempty, List.getD_eq_getElem?_getD, List.getElem?_eq_none, Option.getD_none]
      rw [List.length_map]
      omega
  refine ⟨?_, hring, ?_⟩
  · rw [hhead, h.head, List.length_cons]
  · calc t.economics.accumulatedSupply
        = ∑ slot ∈ Finset.range interestBlocks,
            ring interestBlocks (chain.map (recordedSupply ctx)) slot -
          ring interestBlocks (chain.map (recordedSupply ctx))
            ((chain.length + 1) % interestBlocks) + t.dgp.currentSupply := by
          rw [haccumulated, sum_ring (by decide), ← hslot]
          exact add_sub_right_comm _ _ _
      _ = ∑ slot ∈ Finset.range interestBlocks, t.economics.historicSupply slot := by
          rw [hhistoric, sum_slots_update _ _ (by decide)]
      _ = ((((s, b) :: chain).map (recordedSupply ctx)).take interestBlocks).sum := by
          rw [hring, sum_ring (by decide)]

theorem Linked.settled (hskip : ctx.skip.validate = false)
    (hpublic : ctx.genesis.isPrivateNet = false) (hgenesis : initGenesis ctx.genesis = .ok s₀)
    (h : Linked ctx s₀ chain s) : TurnsSettled s ∧ Recorded ctx chain s := by
  induction chain generalizing s with
  | nil =>
    obtain rfl : s = s₀ := h
    have hbooks := initGenesis_books hgenesis
    exact ⟨hbooks.settled hpublic, hbooks.head, hbooks.historic, hbooks.accumulated⟩
  | cons entry chain ih =>
    obtain ⟨t, b⟩ := entry
    obtain ⟨hb, hchain⟩ := h
    obtain ⟨ht, hrecorded⟩ := ih hchain
    exact ⟨(ht.applyBlock hskip hb).1, hrecorded.applyBlock hskip ht hb⟩

/-- The turns of an account over some blocks are the numbers among theirs with the remainder of
its id. -/
theorem Linked.turns (hskip : ctx.skip.validate = false)
    (hpublic : ctx.genesis.isPrivateNet = false) (hgenesis : initGenesis ctx.genesis = .ok s₀)
    (h : Linked ctx s₀ (newer ++ older) s) (holder : Linked ctx s₀ older t) {name : AccountName}
    {a : Account} (ha : t.accounts.find? name = some a) :
    SameIds t s ∧ (newer.flatMap (blockTurns ctx)).count name =
      windowSum interestBlocks (fun slot ↦ if a.id % interestBlocks = slot then 1 else 0)
        (older.length + 1) (older.length + 1 + newer.length) := by
  induction newer generalizing s with
  | nil =>
    have hsame : s = t := by
      cases older with
      | nil => exact Eq.trans h holder.symm
      | cons entry older =>
        obtain ⟨r, b⟩ := entry
        have hblock := h.1.symm.trans holder.1
        cases hblock
        rfl
    exact ⟨hsame ▸ .of_agree (.refl _), by simp⟩
  | cons entry newer ih =>
    obtain ⟨r, b⟩ := entry
    obtain ⟨hb, hchain⟩ : applyBlock ctx r b = .ok s ∧ Linked ctx s₀ (newer ++ older) r := h
    obtain ⟨hids, hturns⟩ := ih hchain
    obtain ⟨hr, hrecorded⟩ := Linked.settled hskip hpublic hgenesis hchain
    obtain ⟨a', ha', hid⟩ := hids.ids name a ha
    refine ⟨hids.trans (hr.applyBlock hskip hb).2.1, ?_⟩
    have hnumber : r.dgp.headBlockNumber + 1 = older.length + 1 + newer.length := by
      rw [hrecorded.head, List.length_append]
      omega
    rw [List.flatMap_cons, List.count_append, hturns, hr.blockTurns hskip hb ha', hnumber,
      List.length_cons, ← Nat.add_assoc, windowSum_succ _ (Nat.le_add_right _ _), Nat.add_comm]
    simp only [AccountHoldings.OnTurn, hid]

end

/-- Every account that exists at the end of a block has one turn for interests in the blocks of the
period after it; ids are contiguous wherever a block has got to; and when `process_interests`
starts, the accumulated supply is that of the last blocks, of a period at most. -/
theorem interest_turns_and_window {ctx : Context} (hskip : ctx.skip.validate = false)
    (hpublic : ctx.genesis.isPrivateNet = false) {s₀ s : Database}
    {chain : List (Database × SignedBlock)} (hgenesis : initGenesis ctx.genesis = .ok s₀)
    (h : MainChain ctx s₀ chain s) :
    (∀ newer older t, chain = newer ++ older → newer.length = interestBlocks →
      Linked ctx s₀ older t → ∀ name a, t.accounts.find? name = some a →
        (newer.flatMap (blockTurns ctx)).count name = 1) ∧
    (∀ b done rest u, SignedBlock.stages b = done ++ rest → runStages ctx done s = .ok u →
      u.accounts.entries.map (fun entry ↦ entry.2.id) = List.range u.accounts.entries.length) ∧
    ∀ b u, runStages ctx (SignedBlock.stagesBeforeInterests b) s = .ok u →
      u.dgp.headBlockNumber = chain.length + 1 ∧
      u.economics.accumulatedSupply =
        ((chain.take (min (u.dgp.headBlockNumber - 1) interestBlocks)).map
          (recordedSupply ctx)).sum := by
  obtain ⟨hs, hrecorded⟩ := h.linked.settled hskip hpublic hgenesis
  refine ⟨fun newer older t hchain hperiod holder name a ha ↦ ?_, fun b done rest u hb hrun ↦ ?_,
    fun b u hrun ↦ ?_⟩
  · obtain ⟨_, hturns⟩ := Linked.turns hskip hpublic hgenesis (hchain ▸ h.linked) holder ha
    have hslot : a.id % interestBlocks ∈ Finset.range interestBlocks :=
      Finset.mem_range.2 (Nat.mod_lt _ (by decide))
    rw [hturns, hperiod, windowSum_period, Finset.sum_ite_eq, if_pos hslot]
  · obtain ⟨past, hpast, _⟩ := h.linked.chronicle
    have hstages : RunsFrom ctx (fun _ _ ↦ True) s₀ (some rest) u :=
      RunsFrom.runStages (hb ▸ hpast.runsFrom.start b) (fun _ _ _ ↦ trivial) hrun
    exact (hstages.inOrder hskip hgenesis).2.1
  · obtain ⟨hu, hhead⟩ := hs.beforeInterests hskip hrun
    have hnumber : u.dgp.headBlockNumber = chain.length + 1 := by rw [hhead, hrecorded.head]
    have htake : chain.take (min (u.dgp.headBlockNumber - 1) interestBlocks) =
        chain.take interestBlocks := by
      rw [hnumber, Nat.add_sub_cancel, min_comm, ← List.take_take, List.take_length]
    refine ⟨hnumber, ?_⟩
    rw [hu.history.accumulatedSupply, hrecorded.accumulated, htake, List.map_take]

/-- A block that is popped again leaves nothing in the window. -/
theorem interest_window_after_fork :
    ∃ s₀ s₁ s₂ u b, initGenesis hourlyGenesis = .ok s₀ ∧
      MainChain (devContext hourlyGenesis) s₀
        [(s₁, devBlock ⟨1, 1531515600007⟩ 1531522800 []), (s₀, devBlock .null 1531515600 [])] s₂ ∧
      runStages (devContext hourlyGenesis) (SignedBlock.stagesBeforeInterests b) s₂ = .ok u ∧
      u.economics.accumulatedSupply = s₁.dgp.currentSupply + s₂.dgp.currentSupply := by
  have hok : okAnd (initGenesis hourlyGenesis) (fun s₀ ↦
      okAnd (applyBlock (devContext hourlyGenesis) s₀ (devBlock .null 1531515600 [])) fun s₁ ↦
        okAnd (applyBlock (devContext hourlyGenesis) s₁
          (devBlock ⟨1, 1531515600007⟩ 1531519200 [])) fun _ ↦
          okAnd (applyBlock (devContext hourlyGenesis) s₁
            (devBlock ⟨1, 1531515600007⟩ 1531522800 [])) fun s₂ ↦
            okAnd (runStages (devContext hourlyGenesis) (SignedBlock.stagesBeforeInterests
              (devBlock ⟨2, 1531522800007⟩ 1531526400 [])) s₂) fun _ ↦ true) = true := by
    decide +kernel
  obtain ⟨s₀, hgenesis, hs₀⟩ := exists_of_okAnd hok
  obtain ⟨s₁, hfirst, hs₁⟩ := exists_of_okAnd hs₀
  obtain ⟨_, hpopped, hs⟩ := exists_of_okAnd hs₁
  obtain ⟨s₂, hsecond, hs₂⟩ := exists_of_okAnd hs
  obtain ⟨u, hrun, _⟩ := exists_of_okAnd hs₂
  have hchain := ((MainChain.genesis.apply hfirst).apply hpopped).pop.apply hsecond
  obtain ⟨hnumber, hwindow⟩ := (interest_turns_and_window rfl rfl hgenesis hchain).2.2 _ u hrun
  refine ⟨s₀, s₁, s₂, u, _, hgenesis, hchain, hrun, ?_⟩
  rw [hwindow, hnumber]
  simp only [List.length_cons, List.length_nil, interestBlocks, Nat.add_sub_cancel,
    show min (0 + 1 + 1) 2400 = 2 from rfl, List.take_succ_cons, List.take_zero, List.map_cons,
    List.map_nil, List.sum_cons, List.sum_nil, recordedSupply, hfirst, hsecond]
  ring

end SophiaTX.Chain
