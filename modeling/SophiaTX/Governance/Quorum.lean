import SophiaTX.Chain.Council
import SophiaTX.Chain.MainChain
import SophiaTX.Governance.Schedule
import SophiaTX.Lib.Quorum

/-!
# The quorum behind irreversibility

A witness confirms the blocks it produces. The witness rule makes a block irreversible only when
most of the scheduled witnesses have confirmed it or a later one, and on two branches that both
get that far most of them have produced blocks.
-/

namespace SophiaTX.Chain

open SophiaTX.Protocol SophiaTX.Lib

variable {ctx : Context} {g : GenesisState} {s s' : Database}

/-! ## Confirmations -/

/-- The last block a witness has confirmed. -/
def Database.lastConfirmed (s : Database) (name : AccountName) : Option ℕ :=
  (s.witnesses.find? name).map fun w ↦ w.lastConfirmedBlockNum

theorem Frame.lastConfirmed_eq (h : Frame s s') : s'.lastConfirmed = s.lastConfirmed :=
  funext (h.witnesses.map Prod.snd).2

theorem Commerce.lastConfirmed_eq (h : Commerce s s') : s'.lastConfirmed = s.lastConfirmed :=
  funext (h.witnesses.map fun w : Witness ↦ w.lastConfirmedBlockNum).2

theorem applyHardfork_lastConfirmed {hardfork : ℕ} (h : s.applyHardfork g hardfork = .ok s') :
    s'.lastConfirmed = s.lastConfirmed := by
  simp only [Database.applyHardfork, bind_eq_ok, pure_eq_ok] at h
  obtain ⟨s₁, hvotes, _, _, _, _, rfl⟩ := h
  change s₁.lastConfirmed = _
  split at hvotes
  · have hclear : s.clearVotes.lastConfirmed = s.lastConfirmed := by
      funext name
      exact (Table.AgreeOn.mapRows (p := fun w : Witness ↦ w.lastConfirmedBlockNum) s.witnesses
        (f := fun _ w ↦ { w with votes := 0 }) fun _ _ ↦ rfl).2 name
    exact (Database.recalculateAllVotes_commerce hvotes).lastConfirmed_eq.trans hclear
  · exact pure_eq_ok.1 hvotes ▸ rfl

/-- A confirmation is new only where it is made, or with a new witness, who has confirmed
nothing. -/
theorem Move.Step.lastConfirmed {m : Move} (h : m.Step g s s') {name : AccountName} {num : ℕ}
    (hnum : s'.lastConfirmed name = some num) :
    num = 0 ∨ s.lastConfirmed name = some num ∨ m = .confirmBlock name num := by
  have hkept : s'.lastConfirmed = s.lastConfirmed →
      num = 0 ∨ s.lastConfirmed name = some num ∨ m = .confirmBlock name num :=
    fun heq ↦ .inr (.inl (heq ▸ hnum))
  cases m with
  | bookkeeping => exact hkept (Frame.lastConfirmed_eq h)
  | adjustBalance _ _ => exact hkept (Database.adjustBalance_commerce h).lastConfirmed_eq
  | createVesting _ _ => exact hkept (Database.createVesting_commerce h).lastConfirmed_eq
  | vest _ _ => exact hkept (Database.vest_commerce h.2).lastConfirmed_eq
  | adjustSupply _ => exact hkept (Database.adjustSupply_commerce h).lastConfirmed_eq
  | mintVesting _ => exact hkept (h.2 ▸ rfl)
  | changePools _ => exact hkept (by rw [h.1]; rfl)
  | createEscrow _ _ => exact hkept (by rw [h.2.2.2]; rfl)
  | changeEscrow _ _ _ => exact hkept (by rw [h.2.2.2]; rfl)
  | removeEscrow _ _ => exact hkept (by rw [h.2]; rfl)
  | createAccount _ =>
    obtain ⟨_, _, _, hs'⟩ := h
    exact hkept (by rw [hs']; rfl)
  | createWitness owner =>
    obtain ⟨w, hw, hcreate, _⟩ := h
    unfold Database.lastConfirmed at hnum
    rw [Table.find?_emplace? hcreate] at hnum
    split at hnum
    · rw [Option.map_some, Option.some.injEq] at hnum
      exact .inl (hnum ▸ congrArg Prod.snd hw)
    · exact .inr (.inl hnum)
  | setWithdrawal _ _ => exact hkept (Database.withdrawVestingEvaluator_commerce h).lastConfirmed_eq
  | changeProxy _ _ =>
    exact hkept (Database.accountWitnessProxyEvaluator_commerce h).lastConfirmed_eq
  | changeVote _ _ _ =>
    exact hkept (Database.accountWitnessVoteEvaluator_commerce h).lastConfirmed_eq
  | advanceHead _ =>
    obtain ⟨_, _, _, _, hframe⟩ := h
    exact hkept hframe.lastConfirmed_eq
  | confirmBlock witness confirmed =>
    obtain ⟨aslot, rfl⟩ := h
    unfold Database.lastConfirmed Database.modifyWitness at hnum
    rw [Table.find?_modify] at hnum
    split at hnum
    · rename_i heq
      rw [Option.map_map, Option.map_eq_some_iff] at hnum
      obtain ⟨_, _, rfl⟩ := hnum
      exact .inr (.inr (by rw [heq]; rfl))
    · exact .inr (.inl hnum)
  | setIrreversible _ => exact hkept (by rw [show s' = _ from h]; rfl)
  | payInterest _ _ =>
    obtain ⟨_, _, _, hpay⟩ := h
    exact hkept (Database.payInterest_commerce hpay).lastConfirmed_eq
  | burnVesting _ =>
    obtain ⟨_, _, _, rfl⟩ := h
    exact hkept rfl
  | payWithdrawal _ =>
    obtain ⟨_, ha, hpay⟩ := h
    exact hkept (Database.processVestingWithdrawal_commerce ha hpay).lastConfirmed_eq
  | applyHardfork _ => exact hkept (applyHardfork_lastConfirmed h)
  | recordBlock _ =>
    obtain ⟨_, _, rfl⟩ := Database.recordBlock_eq_ok h
    exact hkept rfl

theorem Explained.lastConfirmed {stage : Stage} {effect : ShareType × ShareType × ShareType}
    (h : Explained g stage effect s s') {name : AccountName} {num : ℕ}
    (hnum : s'.lastConfirmed name = some num) :
    num = 0 ∨ s.lastConfirmed name = some num ∨
      ∃ b, stage = .updateSigningWitness b ∧ b.witness = name ∧ b.blockNum = num := by
  obtain ⟨ms, hms, hallowed, _⟩ := h
  -- The run of moves keeps: what is confirmed now was so before, or the stage confirms it.
  refine hms.invariant (I := fun t ↦ ∀ num, t.lastConfirmed name = some num → num = 0 ∨
    s.lastConfirmed name = some num ∨ ∃ b, stage = .updateSigningWitness b ∧ b.witness = name ∧
      b.blockNum = num) ?_ (fun _ hs ↦ .inr (.inl hs)) num hnum
  intro s₁ m s₂ hm hstep hs₁ num hnum
  rcases Move.Step.lastConfirmed hstep hnum with hzero | hbefore | rfl
  · exact .inl hzero
  · exact hs₁ num hbefore
  · obtain ⟨b, hstage, hwitness, hblock⟩ := hallowed _ hm
    exact .inr (.inr ⟨b, hstage, hwitness.symm, hblock.symm⟩)

/-! ## Confirmations along a run -/

/-- Nobody has confirmed a block above the head. -/
def ConfirmedUpToHead (s : Database) : Prop :=
  ∀ name num, s.lastConfirmed name = some num → num ≤ s.dgp.headBlockNumber

theorem initGenesis_confirmedUpToHead (h : initGenesis g = .ok s) : ConfirmedUpToHead s := by
  simp only [initGenesis, bind_eq_ok, pure_eq_ok] at h
  obtain ⟨_, _, _, _, _, _, rfl⟩ := h
  intro name num hnum
  unfold Database.lastConfirmed at hnum
  obtain ⟨w, hw, rfl⟩ := Option.map_eq_some_iff.1 hnum
  obtain ⟨_, rfl⟩ : initMinerName = name ∧ genesisWitness g = w := by
    simpa [genesisWitnesses, Table.find?, List.lookup_cons] using hw
  exact le_rfl

theorem Position.head_le {b : SignedBlock} {stage : Stage} {rest : List Stage}
    (h : Position b s (stage :: rest)) (hs : Sound s) (hvalid : stage.Valid ctx)
    (hrun : stage.run ctx s = .ok s') : s.dgp.headBlockNumber ≤ s'.dgp.headBlockNumber := by
  by_cases hstage : ∀ b, stage ≠ .updateGlobalDynamicData b
  · exact ((Stage.explained hs hvalid hrun).head_eq hs hstage).1.ge
  · obtain ⟨b', rfl⟩ := not_forall_not.1 hstage
    rw [(Database.updateGlobalDynamicData_eq_ok hrun).1]
    generalize hpending : Stage.updateGlobalDynamicData b' :: rest = pending at h
    cases h with
    | opening => cases hpending
    | @transactions stages hstages hhead =>
      cases stages with
      | nil =>
        cases hpending
        omega
      | cons first stages =>
        cases hpending
        exact (hstages _ List.mem_cons_self).elim
    | @afterHead done _ hdone hhead =>
      rw [← hpending] at hdone
      have hmem : .updateGlobalDynamicData b' ∈ SignedBlock.stagesAfterHead b :=
        hdone ▸ List.mem_append_right done List.mem_cons_self
      simp [SignedBlock.stagesAfterHead, SignedBlock.stagesAfterCommit] at hmem

/-- When a block is confirmed, it is the head. -/
theorem Position.head_of_signing {b b' : SignedBlock} {rest : List Stage}
    (h : Position b s (.updateSigningWitness b' :: rest)) :
    s.dgp.headBlockNumber = b'.blockNum := by
  generalize hpending : Stage.updateSigningWitness b' :: rest = pending at h
  cases h with
  | opening => cases hpending
  | @transactions stages hstages hhead =>
    cases stages with
    | nil => cases hpending
    | cons first stages =>
      cases hpending
      exact (hstages _ List.mem_cons_self).elim
  | @afterHead done _ hdone hhead =>
    rw [← hpending] at hdone
    have hmem : .updateSigningWitness b' ∈ SignedBlock.stagesAfterHead b :=
      hdone ▸ List.mem_append_right done List.mem_cons_self
    obtain rfl : b' = b := by
      simpa [SignedBlock.stagesAfterHead, SignedBlock.stagesAfterCommit] using hmem
    exact hhead

namespace RunsFrom

variable {C : Database → Stage → Prop} {s₀ : Database} {pending : Option (List Stage)}

theorem confirmedUpToHead (hskip : ctx.skip.validate = false) (hs₀ : Sound s₀)
    (hid₀ : HeadNumbered s₀) (hle₀ : ConfirmedUpToHead s₀) (h : RunsFrom ctx C s₀ pending s) :
    ConfirmedUpToHead s := by
  induction h with
  | refl => exact hle₀
  | start _ _ ih => exact ih
  | @stage s s' stage rest h _ hrun ih =>
    obtain ⟨b, hposition⟩ := (h.position hskip hs₀ hid₀).2 _ rfl
    have hs := h.sound hskip hs₀
    have hvalid := (h.guarded hskip).head
    have hhead := hposition.head_le hs hvalid hrun
    intro name num hnum
    rcases (Stage.explained hs hvalid hrun).lastConfirmed hnum with rfl | hbefore |
      ⟨b', rfl, _, rfl⟩
    · exact Nat.zero_le _
    · exact (ih name num hbefore).trans hhead
    · exact hposition.head_of_signing.ge.trans hhead
  | finish _ _ ih => exact ih

/-- What is confirmed in a run was confirmed where it started, or by a block of the run. -/
theorem lastConfirmed (hskip : ctx.skip.validate = false) (hs₀ : Sound s₀)
    (h : RunsFrom ctx C s₀ pending s) {name : AccountName} {num : ℕ}
    (hnum : s.lastConfirmed name = some num) :
    num = 0 ∨ s₀.lastConfirmed name = some num ∨
      ∃ t b, C t (.updateSigningWitness b) ∧ b.witness = name ∧ b.blockNum = num := by
  induction h with
  | refl => exact .inr (.inl hnum)
  | start _ _ ih => exact ih hnum
  | stage h hC hrun ih =>
    rcases (Stage.explained (h.sound hskip hs₀) (h.guarded hskip).head hrun).lastConfirmed hnum with
      hzero | hbefore | ⟨b, rfl, hwitness, hblock⟩
    · exact .inl hzero
    · exact ih hbefore
    · exact .inr (.inr ⟨_, b, hC, hwitness, hblock⟩)
  | finish _ _ ih => exact ih hnum

end RunsFrom

/-! ## The last irreversible block -/

theorem scheduledWitnesses_find? {scheduled : List (AccountName × Witness)}
    (h : s.scheduledWitnesses = .ok scheduled) {entry : AccountName × Witness}
    (hentry : entry ∈ scheduled) : s.witnesses.find? entry.1 = some entry.2 := by
  obtain ⟨place, _, hplace⟩ := exists_of_mem_mapM h hentry
  split at hplace
  · simp only [Database.getWitness, bind_eq_ok, orUnknownKey_eq_ok, pure_eq_ok] at hplace
    obtain ⟨w, hw, rfl⟩ := hplace
    exact hw
  · cases hplace

/-- The new last irreversible block is the old one, a block below the head or one that some witness
has confirmed. -/
theorem newLastIrreversibleBlockNum_le {num : ℕ} (h : s.newLastIrreversibleBlockNum g = .ok num)
    (hconfirmed : ConfirmedUpToHead s)
    (hle : s.dgp.lastIrreversibleBlockNum ≤ s.dgp.headBlockNumber) :
    num ≤ s.dgp.headBlockNumber := by
  unfold Database.newLastIrreversibleBlockNum at h
  split at h
  · obtain rfl := pure_eq_ok.1 h
    split <;> omega
  · simp only [bind_eq_ok] at h
    obtain ⟨scheduled, hscheduled, h⟩ := h
    split at h
    · rename_i confirmed hget
      obtain rfl := pure_eq_ok.1 h
      have hmem := List.mem_of_getElem? hget
      rw [List.mem_insertionSort, List.mem_map] at hmem
      obtain ⟨entry, hentry, rfl⟩ := hmem
      have hfind := scheduledWitnesses_find? hscheduled hentry
      apply max_le _ hle
      apply hconfirmed entry.1
      rw [Database.lastConfirmed, hfind]
      rfl
    · cases h

theorem initGenesis_irreversible (h : initGenesis g = .ok s) :
    s.dgp.lastIrreversibleBlockNum = 0 := by
  simp only [initGenesis, bind_eq_ok, pure_eq_ok] at h
  obtain ⟨_, _, _, _, _, _, rfl⟩ := h
  rfl

theorem RunsFrom.irreversible_le_head {C : Database → Stage → Prop} {s₀ : Database}
    {pending : Option (List Stage)} (hskip : ctx.skip.validate = false)
    (hgenesis : initGenesis ctx.genesis = .ok s₀) (h : RunsFrom ctx C s₀ pending s) :
    s.dgp.lastIrreversibleBlockNum ≤ s.dgp.headBlockNumber := by
  have hbooks := initGenesis_books hgenesis
  have hid₀ : HeadNumbered s₀ := by
    rw [HeadNumbered, hbooks.headId, hbooks.head]
    rfl
  induction h with
  | refl => exact initGenesis_irreversible hgenesis ▸ Nat.zero_le _
  | start _ _ ih => exact ih
  | @stage s s' stage rest h _ hrun ih =>
    have hs := h.sound hskip hbooks.sound
    have hvalid := (h.guarded hskip).head
    obtain ⟨b, hposition⟩ := (h.position hskip hbooks.sound hid₀).2 _ rfl
    by_cases hstage : stage = .updateLastIrreversibleBlock
    · subst hstage
      have hconfirmed := h.confirmedUpToHead hskip hbooks.sound hid₀
        (initGenesis_confirmedUpToHead hgenesis)
      obtain ⟨num, hnum, rfl⟩ : ∃ num, s.newLastIrreversibleBlockNum ctx.genesis = .ok num ∧
          { s with dgp := { s.dgp with lastIrreversibleBlockNum := num } } = s' := by
        simpa only [Stage.run, Database.updateLastIrreversibleBlock, bind_eq_ok, pure_eq_ok]
          using hrun
      have hle := newLastIrreversibleBlockNum_le hnum hconfirmed ih
      exact hle
    · rw [(Stage.explained hs hvalid hrun).irreversible_eq hs hstage]
      exact ih.trans (hposition.head_le hs hvalid hrun)
  | finish _ _ ih => exact ih

theorem Linked.runsFrom {s₀ : Database} {chain : List (Database × SignedBlock)}
    (h : Linked ctx s₀ chain s) : RunsFrom ctx (fun _ _ ↦ True) s₀ none s := by
  induction chain generalizing s with
  | nil =>
    obtain rfl : s = s₀ := h
    exact .refl
  | cons entry chain ih => exact (ih h.2).applyBlock (fun _ _ _ ↦ trivial) h.1

/-- No block above the head is irreversible when a block is committed. -/
theorem MainChain.irreversible_le_head {s₀ : Database} {chain : List (Database × SignedBlock)}
    {b : SignedBlock} (hskip : ctx.skip.validate = false)
    (hgenesis : initGenesis ctx.genesis = .ok s₀) (h : MainChain ctx s₀ chain s)
    (hbefore : runStages ctx (SignedBlock.stagesBeforeCommit b) s = .ok s') :
    s'.dgp.lastIrreversibleBlockNum ≤ s'.dgp.headBlockNumber := by
  have hstart : RunsFrom ctx (fun _ _ ↦ True) s₀
      (some (SignedBlock.stagesBeforeCommit b ++ SignedBlock.stagesAfterCommit b)) s :=
    h.linked.runsFrom.start b
  exact (hstart.runStages (fun _ _ _ ↦ trivial) hbefore).irreversible_le_head hskip hgenesis

/-! ## Quorums on two branches -/

section Branches

variable {base t t' : Database} {branch : List (Database × SignedBlock)} {b : SignedBlock}
  {blocks : List SignedBlock} {scheduled : List AccountName} {done rest : List Stage}

/-- The stage belongs to one of the blocks. -/
def StageOf (blocks : List SignedBlock) (_ : Database) (stage : Stage) : Prop :=
  ∃ b ∈ blocks, stage ∈ SignedBlock.stages b

theorem eq_of_signing_mem {b' : SignedBlock}
    (h : .updateSigningWitness b ∈ SignedBlock.stages b') : b = b' := by
  rw [stages_eq, List.mem_cons, List.mem_append] at h
  rcases h with h | h | h
  · cases h
  · exact (inTransaction_of_mem h).elim
  · simpa [SignedBlock.stagesAfterHead, SignedBlock.stagesAfterCommit] using h

theorem Linked.runsFrom_stageOf (h : Linked ctx base branch s)
    (hblocks : ∀ entry ∈ branch, entry.2 ∈ blocks) :
    RunsFrom ctx (StageOf blocks) base none s := by
  induction branch generalizing s with
  | nil =>
    obtain rfl : s = base := h
    exact .refl
  | cons entry branch ih =>
    have hbefore := ih h.2 fun other hother ↦ hblocks other (List.mem_cons_of_mem _ hother)
    apply hbefore.applyBlock _ h.1
    intro stage hstage _
    exact ⟨entry.2, hblocks entry List.mem_cons_self, hstage⟩

/-- The witness who has confirmed a block above the base of a branch has produced one there. -/
theorem RunsFrom.producedAbove {pending : Option (List Stage)}
    (hskip : ctx.skip.validate = false) (hbase : Sound base) (hconfirmed : ConfirmedUpToHead base)
    (h : RunsFrom ctx (StageOf blocks) base pending t) {name : AccountName} {num : ℕ}
    (hnum : t.lastConfirmed name = some num) (habove : base.dgp.headBlockNumber < num) :
    ∃ b ∈ blocks, b.witness = name ∧ base.dgp.headBlockNumber < b.blockNum := by
  rcases h.lastConfirmed hskip hbase hnum with rfl | hbefore | ⟨_, b, hstage, hwitness, rfl⟩
  · exact absurd habove (Nat.not_lt_zero _)
  · exact absurd habove (Nat.not_lt_of_le (hconfirmed name num hbefore))
  · obtain ⟨b', hb', hmem⟩ := hstage
    obtain rfl := eq_of_signing_mem hmem
    exact ⟨b, hb', hwitness, habove⟩

/-- The witness has produced one of the blocks, above a height. -/
def ProducedAbove (blocks : List SignedBlock) (height : ℕ) (name : AccountName) : Prop :=
  ∃ b ∈ blocks, b.witness = name ∧ height < b.blockNum

instance (blocks : List SignedBlock) (height : ℕ) (name : AccountName) :
    Decidable (ProducedAbove blocks height name) :=
  inferInstanceAs (Decidable (∃ b ∈ blocks, b.witness = name ∧ height < b.blockNum))

/-- On a branch, block `b` on top of it makes a block above the base of the branch irreversible by
the witness rule, with these scheduled witnesses. -/
structure AdvancesAbove (ctx : Context) (base : Database)
    (branch : List (Database × SignedBlock)) (b : SignedBlock) (scheduled : List AccountName) :
    Prop where
  distinct : scheduled.Nodup
  advances : ∃ s t t' done rest entries, Linked ctx base branch s ∧
    SignedBlock.stages b = done ++ .updateLastIrreversibleBlock :: rest ∧
    runStages ctx done s = .ok t ∧ ctx.genesis.startMinerVotingBlock ≤ t.dgp.headBlockNumber ∧
    t.scheduledWitnesses = .ok entries ∧ entries.map Prod.fst = scheduled ∧
    t.updateLastIrreversibleBlock ctx.genesis = .ok t' ∧
    t.dgp.lastIrreversibleBlockNum < t'.dgp.lastIrreversibleBlockNum ∧
    base.dgp.headBlockNumber < t'.dgp.lastIrreversibleBlockNum

/-- What the witness rule advances to, most scheduled witnesses have confirmed. -/
theorem Database.updateLastIrreversibleBlock_countP {entries : List (AccountName × Witness)}
    {height : ℕ} (hpast : g.startMinerVotingBlock ≤ t.dgp.headBlockNumber)
    (hentries : t.scheduledWitnesses = .ok entries)
    (hstep : t.updateLastIrreversibleBlock g = .ok t')
    (hadvance : t.dgp.lastIrreversibleBlockNum < t'.dgp.lastIrreversibleBlockNum)
    (habove : height < t'.dgp.lastIrreversibleBlockNum) :
    entries.length - irreversibilityOffset entries.length ≤
      entries.countP fun entry ↦ decide (height < entry.2.lastConfirmedBlockNum) := by
  simp only [updateLastIrreversibleBlock, newLastIrreversibleBlockNum, hentries, ok_bind,
    if_neg (Nat.not_lt.2 hpast), bind_eq_ok, pure_eq_ok, List.length_map] at hstep
  obtain ⟨num, hnum, rfl⟩ := hstep
  change t.dgp.lastIrreversibleBlockNum < num at hadvance
  change height < num at habove
  split at hnum
  · rename_i confirmed hget
    obtain rfl := pure_eq_ok.1 hnum
    have hconfirmed : height < confirmed := by omega
    have hcount := length_sub_le_countP hget hconfirmed
    rw [List.length_map, List.countP_map] at hcount
    exact hcount
  · cases hnum

theorem AdvancesAbove.card_le (hskip : ctx.skip.validate = false) (hbase : Sound base)
    (hconfirmed : ConfirmedUpToHead base) (h : AdvancesAbove ctx base branch b scheduled) :
    scheduled.length - Database.irreversibilityOffset scheduled.length ≤
      (scheduled.toFinset.filter
        (ProducedAbove (b :: branch.map Prod.snd) base.dgp.headBlockNumber)).card := by
  obtain ⟨s, t, t', done, rest, entries, hbranch, hstages, hrun, hpast, hentries, hnames, hstep,
    hadvance, habove⟩ := h.advances
  have hcount := Database.updateLastIrreversibleBlock_countP hpast hentries hstep hadvance habove
  have hblocks : RunsFrom ctx (StageOf (b :: branch.map Prod.snd)) base none s := by
    apply hbranch.runsFrom_stageOf
    intro entry hentry
    exact List.mem_cons_of_mem _ (List.mem_map_of_mem hentry)
  have hstart := hblocks.start b
  rw [hstages] at hstart
  have ht := hstart.runStages (fun stage hstage _ ↦ ⟨b, List.mem_cons_self, by
    rw [hstages]
    exact List.mem_append_left _ hstage⟩) hrun
  have hlength : entries.length = scheduled.length := by
    rw [← hnames, List.length_map]
  have hconfirming : ((entries.filter fun entry ↦
      decide (base.dgp.headBlockNumber < entry.2.lastConfirmedBlockNum)).map Prod.fst).Sublist
        scheduled := hnames ▸ List.filter_sublist.map Prod.fst
  calc scheduled.length - Database.irreversibilityOffset scheduled.length
      = entries.length - Database.irreversibilityOffset entries.length := by rw [hlength]
    _ ≤ entries.countP fun entry ↦
        decide (base.dgp.headBlockNumber < entry.2.lastConfirmedBlockNum) := hcount
    _ = ((entries.filter fun entry ↦
        decide (base.dgp.headBlockNumber < entry.2.lastConfirmedBlockNum)).map
          Prod.fst).toFinset.card := by
      rw [List.toFinset_card_of_nodup (h.distinct.sublist hconfirming), List.length_map,
        List.countP_eq_length_filter]
    _ ≤ _ := by
      apply Finset.card_le_card
      intro name hname
      rw [List.mem_toFinset] at hname
      obtain ⟨entry, hentry, rfl⟩ := List.mem_map.1 hname
      obtain ⟨hmem, habove⟩ := List.mem_filter.1 hentry
      have hlast : t.lastConfirmed entry.1 = some entry.2.lastConfirmedBlockNum := by
        rw [Database.lastConfirmed, scheduledWitnesses_find? hentries hmem]
        rfl
      rw [Finset.mem_filter, List.mem_toFinset]
      exact ⟨hconfirming.subset hname,
        ht.producedAbove hskip hbase hconfirmed hlast (of_decide_eq_true habove)⟩

/-- Two branches on which the same witnesses make blocks irreversible have most of these witnesses
in common. -/
theorem irreversible_branches_share_witnesses {s₀ : Database}
    {common branch₁ branch₂ : List (Database × SignedBlock)} {b₁ b₂ : SignedBlock}
    {scheduled₁ scheduled₂ : List AccountName} (hskip : ctx.skip.validate = false)
    (hgenesis : initGenesis ctx.genesis = .ok s₀) (hcommon : MainChain ctx s₀ common base)
    (h₁ : AdvancesAbove ctx base branch₁ b₁ scheduled₁)
    (h₂ : AdvancesAbove ctx base branch₂ b₂ scheduled₂)
    (hsame : ∀ name, name ∈ scheduled₁ ↔ name ∈ scheduled₂) :
    scheduled₁.length - 2 * Database.irreversibilityOffset scheduled₁.length ≤
      (scheduled₁.toFinset.filter fun name ↦
        ProducedAbove (b₁ :: branch₁.map Prod.snd) base.dgp.headBlockNumber name ∧
          ProducedAbove (b₂ :: branch₂.map Prod.snd) base.dgp.headBlockNumber name).card := by
  have hbooks := initGenesis_books hgenesis
  have hid₀ : HeadNumbered s₀ := by
    rw [HeadNumbered, hbooks.headId, hbooks.head]
    rfl
  have hruns := hcommon.linked.runsFrom
  have hbase : Sound base := hruns.sound hskip hbooks.sound
  have hconfirmed : ConfirmedUpToHead base := hruns.confirmedUpToHead hskip hbooks.sound hid₀
    (initGenesis_confirmedUpToHead hgenesis)
  have hfinset : scheduled₁.toFinset = scheduled₂.toFinset := by
    ext name
    rw [List.mem_toFinset, List.mem_toFinset, hsame name]
  have hlength : scheduled₁.length = scheduled₂.length := by
    rw [← List.toFinset_card_of_nodup h₁.distinct, hfinset,
      List.toFinset_card_of_nodup h₂.distinct]
  have hcard₁ := h₁.card_le hskip hbase hconfirmed
  have hcard₂ := h₂.card_le hskip hbase hconfirmed
  rw [← hfinset, ← hlength] at hcard₂
  have hmembers := List.toFinset_card_of_nodup h₁.distinct
  rw [← hmembers] at hcard₁ hcard₂ ⊢
  rw [Finset.filter_and]
  exact card_sub_le_card_inter (Finset.filter_subset _ _) (Finset.filter_subset _ _) hcard₁ hcard₂

end Branches

/-! ## Two branches of a council -/

/-- Blocks of the council one on another, each with its slot, its witness, the key it is signed with
and its transactions. -/
def councilBlocks (parent : BlockId) :
    List (ℕ × AccountName × PublicKey × List Transaction) → List SignedBlock
  | [] => []
  | (slot, witness, key, transactions) :: later =>
    let b := { devBlock parent (1531512000 + 3600 * slot) transactions with
      witness := witness
      witnessSignature := key }
    b :: councilBlocks (devEnv.blockId b) later

def lastId (blocks : List SignedBlock) : BlockId :=
  (blocks.getLast?.map devEnv.blockId).getD BlockId.null

/-- A week of the init miner, until the witness rule holds. The others register in the block before
the last one. -/
def firstWeek : List SignedBlock :=
  councilBlocks .null ((List.range 168).map fun i ↦
    (i + 1, initMinerName, 7, if i = 166 then registrations 1532109600 else []))

/-- A round of the three witnesses that have keys. -/
def firstRound : List SignedBlock :=
  councilBlocks (lastId firstWeek)
    [(169, 1000, 21, []), (170, 1001, 22, []), (171, initMinerName, 7, [])]

def firstBranch : List SignedBlock :=
  councilBlocks (lastId firstRound)
    [(172, 1000, 21, []), (173, 1001, 22, []), (174, 1000, 21, [])]

/-- The second branch misses the slots of the first one, and is shuffled in another way. -/
def secondBranch : List SignedBlock :=
  councilBlocks (lastId firstRound) [(175, 1000, 21, []), (177, 1001, 22, [])]

/-- The init miner on top of a branch. -/
def minerOn (branch : List SignedBlock) (slot : ℕ) : SignedBlock :=
  devBlock (lastId branch) (1531512000 + 3600 * slot) []

/-- What the last block on a branch has to show before its last irreversible block is updated. -/
def advancesAbove (base : Database) (blocks : List SignedBlock) (b : SignedBlock)
    (scheduled : List AccountName) : Bool :=
  okAnd (applyBlocks (devContext councilGenesis) base blocks) fun s ↦
    okAnd (runStages (devContext councilGenesis)
      [.openBlock b, .updateGlobalDynamicData b, .updateSigningWitness b] s) fun t ↦
        okAnd t.scheduledWitnesses fun entries ↦
          okAnd (t.updateLastIrreversibleBlock councilGenesis) fun t' ↦
            decide (councilGenesis.startMinerVotingBlock ≤ t.dgp.headBlockNumber ∧
              entries.map Prod.fst = scheduled ∧
              t.dgp.lastIrreversibleBlockNum < t'.dgp.lastIrreversibleBlockNum ∧
              base.dgp.headBlockNumber < t'.dgp.lastIrreversibleBlockNum)

theorem exists_advancesAbove {blocks : List SignedBlock} {b : SignedBlock}
    {scheduled : List AccountName} (hscheduled : scheduled.Nodup) (hb : b.transactions = [])
    (h : advancesAbove s blocks b scheduled = true) :
    ∃ branch, AdvancesAbove (devContext councilGenesis) s branch b scheduled ∧
      branch.map Prod.snd = blocks.reverse := by
  obtain ⟨s', happlied, h⟩ := exists_of_okAnd h
  obtain ⟨t, hrun, h⟩ := exists_of_okAnd h
  obtain ⟨entries, hentries, h⟩ := exists_of_okAnd h
  obtain ⟨t', hstep, h⟩ := exists_of_okAnd h
  obtain ⟨hpast, hnames, hadvance, habove⟩ := of_decide_eq_true h
  obtain ⟨branch, hchain, hbranch⟩ := MainChain.genesis.applyBlocks happlied
  rw [List.append_nil] at hchain
  have hstages : SignedBlock.stages b =
      [.openBlock b, .updateGlobalDynamicData b, .updateSigningWitness b] ++
        .updateLastIrreversibleBlock :: SignedBlock.stagesAfterCommit b := by
    rw [stages_eq, hb]
    rfl
  refine ⟨branch, ⟨hscheduled, ?_⟩, hbranch⟩
  exact ⟨s', t, t', _, _, entries, hchain.linked, hstages, hrun, hpast, hentries, hnames, hstep,
    hadvance, habove⟩

/-- Three witnesses, with a fourth one that has no key, go on after their first round on two
branches. All three have produced blocks on both. -/
theorem irreversible_branches_of_council :
    ∃ s₀ common base, initGenesis councilGenesis = .ok s₀ ∧
      MainChain (devContext councilGenesis) s₀ common base ∧
      common.map Prod.snd = (firstWeek ++ firstRound).reverse ∧
      (base.witnesses.find? 1002).map Witness.signingKey = some nullKey ∧
      3 ≤ ([1000, initMinerName, 1001].toFinset.filter fun name ↦
        ProducedAbove (minerOn firstBranch 175 :: firstBranch.reverse) base.dgp.headBlockNumber
          name ∧
        ProducedAbove (minerOn secondBranch 178 :: secondBranch.reverse) base.dgp.headBlockNumber
          name).card := by
  have hok : okAnd (initGenesis councilGenesis) (fun s₀ ↦
      okAnd (applyBlocks (devContext councilGenesis) s₀ (firstWeek ++ firstRound)) fun base ↦
        advancesAbove base firstBranch (minerOn firstBranch 175) [1000, initMinerName, 1001] &&
          advancesAbove base secondBranch (minerOn secondBranch 178)
            [1001, initMinerName, 1000] &&
          decide ((base.witnesses.find? 1002).map Witness.signingKey = some nullKey)) = true := by
    decide +kernel
  obtain ⟨s₀, hgenesis, hs₀⟩ := exists_of_okAnd hok
  obtain ⟨base, hweek, hbase⟩ := exists_of_okAnd hs₀
  rw [Bool.and_eq_true, Bool.and_eq_true] at hbase
  obtain ⟨⟨hfirst, hsecond⟩, hnull⟩ := hbase
  obtain ⟨common, hchain, hcommon⟩ := MainChain.genesis.applyBlocks hweek
  rw [List.append_nil] at hchain
  obtain ⟨branch₁, hadvances₁, hbranch₁⟩ := exists_advancesAbove (by decide) rfl hfirst
  obtain ⟨branch₂, hadvances₂, hbranch₂⟩ := exists_advancesAbove (by decide) rfl hsecond
  have hperm : List.Perm [1000, initMinerName, 1001] [1001, initMinerName, 1000] := by decide
  have hshared := irreversible_branches_share_witnesses rfl hgenesis hchain hadvances₁ hadvances₂
    fun _ ↦ hperm.mem_iff
  rw [hbranch₁, hbranch₂] at hshared
  exact ⟨s₀, common, base, hgenesis, hchain, hcommon, of_decide_eq_true hnull, hshared⟩

end SophiaTX.Chain
