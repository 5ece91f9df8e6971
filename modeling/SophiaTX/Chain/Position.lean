import SophiaTX.Chain.Genesis

/-!
# Position of a run in a block

Only one stage of a block moves the head. Before it the run is still at the parent of the block,
after it at the block itself.
-/

namespace SophiaTX.Chain

open SophiaTX.Protocol SophiaTX.Lib

/-! ## What stages leave of the chain's own properties -/

theorem Move.Direct.chain_eq {s t : Database} {m : Move} (h : m.Direct s t) :
    t.dgp.privateNet = s.dgp.privateNet ∧
      ((∀ num, m ≠ .advanceHead num) → t.dgp.headBlockNumber = s.dgp.headBlockNumber ∧
        t.dgp.headBlockId = s.dgp.headBlockId) ∧
      ((∀ num, m ≠ .setIrreversible num) →
        t.dgp.lastIrreversibleBlockNum = s.dgp.lastIrreversibleBlockNum) := by
  cases m <;> simp only [Direct, Database.modifyAccount, Database.modifyEscrow] at h <;> grind

theorem Move.Step.chain_eq {g : GenesisState} {s s' : Database} {m : Move} (h : m.Step g s s')
    (hs : Sound s) : s'.dgp.privateNet = s.dgp.privateNet ∧
      ((∀ num, m ≠ .advanceHead num) → s'.dgp.headBlockNumber = s.dgp.headBlockNumber ∧
        s'.dgp.headBlockId = s.dgp.headBlockId) ∧
      ((∀ num, m ≠ .setIrreversible num) →
        s'.dgp.lastIrreversibleBlockNum = s.dgp.lastIrreversibleBlockNum) := by
  obtain ⟨t, hdirect, hmoney⟩ := h.direct hs.accumulated
  rw [hmoney.privateNet, hmoney.headBlockNumber, hmoney.headBlockId,
    hmoney.lastIrreversibleBlockNum]
  exact hdirect.chain_eq

section Explained

variable {g : GenesisState} {stage : Stage} {s s' : Database}
  {effect : ShareType × ShareType × ShareType}

theorem Explained.privateNet_eq (h : Explained g stage effect s s') (hs : Sound s) :
    s'.dgp.privateNet = s.dgp.privateNet := by
  obtain ⟨ms, hms, _, _⟩ := h
  refine (hms.invariant (I := fun t ↦ Sound t ∧ t.dgp.privateNet = s.dgp.privateNet) ?_
    ⟨hs, rfl⟩).2
  rintro s₁ m s₂ - hstep ⟨hs₁, heq⟩
  exact ⟨Move.Step.sound hstep hs₁, (Move.Step.chain_eq hstep hs₁).1.trans heq⟩

theorem Explained.head_eq (h : Explained g stage effect s s') (hs : Sound s)
    (hstage : ∀ b, stage ≠ .updateGlobalDynamicData b) :
    s'.dgp.headBlockNumber = s.dgp.headBlockNumber ∧ s'.dgp.headBlockId = s.dgp.headBlockId := by
  obtain ⟨ms, hms, hallowed, _⟩ := h
  refine (hms.invariant (I := fun t ↦ Sound t ∧ t.dgp.headBlockNumber = s.dgp.headBlockNumber ∧
    t.dgp.headBlockId = s.dgp.headBlockId) ?_ ⟨hs, rfl, rfl⟩).2
  rintro s₁ m s₂ hm hstep ⟨hs₁, hnumber, hid⟩
  have hadvance : ∀ num, m ≠ .advanceHead num := by
    rintro num rfl
    obtain ⟨b, hb, _⟩ := hallowed _ hm
    exact hstage b hb
  obtain ⟨hnumber', hid'⟩ := (Move.Step.chain_eq hstep hs₁).2.1 hadvance
  exact ⟨Move.Step.sound hstep hs₁, hnumber'.trans hnumber, hid'.trans hid⟩

theorem Explained.irreversible_eq (h : Explained g stage effect s s') (hs : Sound s)
    (hstage : stage ≠ .updateLastIrreversibleBlock) :
    s'.dgp.lastIrreversibleBlockNum = s.dgp.lastIrreversibleBlockNum := by
  obtain ⟨ms, hms, hallowed, _⟩ := h
  refine (hms.invariant (I := fun t ↦ Sound t ∧
    t.dgp.lastIrreversibleBlockNum = s.dgp.lastIrreversibleBlockNum) ?_ ⟨hs, rfl⟩).2
  rintro s₁ m s₂ hm hstep ⟨hs₁, heq⟩
  have hset : ∀ num, m ≠ .setIrreversible num := by
    rintro num rfl
    exact hstage (hallowed _ hm)
  exact ⟨Move.Step.sound hstep hs₁, ((Move.Step.chain_eq hstep hs₁).2.2 hset).trans heq⟩

end Explained

/-! ## Positions -/

/-- Stages of the transactions of a block. -/
def Stage.InTransaction : Stage → Prop
  | .openTransaction _ | .operation _ _ | .closeTransaction _ => True
  | _ => False

/-- The stages after the head has moved. -/
def SignedBlock.stagesAfterHead (b : SignedBlock) : List Stage :=
  .updateSigningWitness b :: .updateLastIrreversibleBlock :: SignedBlock.stagesAfterCommit b

theorem stages_eq (b : SignedBlock) : SignedBlock.stages b =
    .openBlock b :: (b.transactions.flatMap transactionStages ++
      .updateGlobalDynamicData b :: SignedBlock.stagesAfterHead b) := by
  simp [SignedBlock.stages, SignedBlock.stagesBeforeCommit, SignedBlock.stagesAfterHead]

theorem inTransaction_of_mem {trxs : List Transaction} {stage : Stage}
    (h : stage ∈ trxs.flatMap transactionStages) : stage.InTransaction := by
  simp only [transactionStages, List.mem_flatMap, List.mem_append, List.mem_cons,
    List.mem_map, List.not_mem_nil, or_false] at h
  obtain ⟨trx, _, (rfl | ⟨op, _, rfl⟩) | rfl⟩ := h <;> trivial

/-- Where in a block a run may be, by the stages still to come. -/
inductive Position (b : SignedBlock) (s : Database) : List Stage → Prop
  | opening : Position b s (SignedBlock.stages b)
  | transactions {stages : List Stage} (hstages : ∀ stage ∈ stages, stage.InTransaction)
      (hhead : s.dgp.headBlockNumber + 1 = b.blockNum) :
      Position b s (stages ++ .updateGlobalDynamicData b :: SignedBlock.stagesAfterHead b)
  | afterHead {done pending : List Stage} (hdone : SignedBlock.stagesAfterHead b = done ++ pending)
      (hhead : s.dgp.headBlockNumber = b.blockNum) : Position b s pending

/-- The number of the head is that of its id. -/
def HeadNumbered (s : Database) : Prop := s.dgp.headBlockId.num = s.dgp.headBlockNumber

theorem openBlock_previous {ctx : Context} {s s' : Database} {b : SignedBlock} (hs : Sound s)
    (h : s.openBlock ctx b = .ok s') : s.dgp.headBlockId = b.previous := by
  simp only [Database.openBlock, Database.validateBlockHeader, bind_eq_ok, fcAssert_eq_ok] at h
  obtain ⟨s₁, hforks, _, _, _, ⟨_, hid, _⟩, _⟩ := h
  rw [← hid]
  exact ((Database.applyGenesisHardforks_explained hforks).head_eq hs (by simp)).2.symm

theorem Position.step {ctx : Context} {b : SignedBlock} {s s' : Database} {stage : Stage}
    {rest : List Stage} (h : Position b s (stage :: rest)) (hs : Sound s)
    (hvalid : stage.Valid ctx) (hrun : stage.run ctx s = .ok s') (hid : HeadNumbered s) :
    Position b s' rest ∧ HeadNumbered s' := by
  have hexplained := Stage.explained hs hvalid hrun
  -- All stages but one leave the head where it is.
  have hstay : (∀ b, stage ≠ .updateGlobalDynamicData b) → HeadNumbered s' ∧
      s'.dgp.headBlockNumber = s.dgp.headBlockNumber := by
    intro hstage
    obtain ⟨hnumber', hid'⟩ := hexplained.head_eq hs hstage
    exact ⟨by rw [HeadNumbered, hid', hnumber', hid], hnumber'⟩
  generalize hpending : stage :: rest = pending at h
  cases h with
  | opening =>
    rw [stages_eq, List.cons.injEq] at hpending
    obtain ⟨rfl, rfl⟩ := hpending
    obtain ⟨hid', hnumber'⟩ := hstay (by simp)
    have hprevious : s.dgp.headBlockId = b.previous := openBlock_previous hs hrun
    refine ⟨.transactions (fun _ hmem ↦ inTransaction_of_mem hmem) ?_, hid'⟩
    rw [hnumber', ← hid, hprevious]
    rfl
  | @transactions stages hstages hhead =>
    cases stages with
    | nil =>
      rw [List.nil_append, List.cons.injEq] at hpending
      obtain ⟨rfl, rfl⟩ := hpending
      obtain ⟨hnumber', hid', _⟩ := Database.updateGlobalDynamicData_eq_ok hrun
      refine ⟨.afterHead (List.nil_append _).symm hnumber', ?_⟩
      rw [HeadNumbered, hid', hnumber']
      rfl
    | cons first stages =>
      rw [List.cons_append, List.cons.injEq] at hpending
      obtain ⟨rfl, rfl⟩ := hpending
      have hfirst := hstages stage List.mem_cons_self
      obtain ⟨hid', hnumber'⟩ := hstay (by rintro b rfl; exact hfirst)
      exact ⟨.transactions (fun stage hmem ↦ hstages stage (List.mem_cons_of_mem _ hmem))
        (hnumber' ▸ hhead), hid'⟩
  | @afterHead done _ hdone hhead =>
    rw [← hpending] at hdone
    have hmem : stage ∈ SignedBlock.stagesAfterHead b :=
      hdone ▸ List.mem_append_right done List.mem_cons_self
    obtain ⟨hid', hnumber'⟩ := hstay (by
      rintro b rfl
      simp [SignedBlock.stagesAfterHead, SignedBlock.stagesAfterCommit] at hmem)
    have hdone' : SignedBlock.stagesAfterHead b = (done ++ [stage]) ++ rest := by simpa using hdone
    exact ⟨.afterHead hdone' (hnumber'.trans hhead), hid'⟩

theorem RunsFrom.position {ctx : Context} {C : Database → Stage → Prop} {s₀ s : Database}
    {pending : Option (List Stage)} (hskip : ctx.skip.validate = false) (hs₀ : Sound s₀)
    (hid₀ : HeadNumbered s₀) (h : RunsFrom ctx C s₀ pending s) :
    HeadNumbered s ∧ ∀ stages, pending = some stages → ∃ b, Position b s stages := by
  induction h with
  | refl => exact ⟨hid₀, fun _ h ↦ (by cases h)⟩
  | start b _ ih =>
    refine ⟨ih.1, fun stages hstages ↦ ?_⟩
    cases hstages
    exact ⟨b, .opening⟩
  | stage h _ hrun ih =>
    obtain ⟨hid, hposition⟩ := ih
    obtain ⟨b, hposition⟩ := hposition _ rfl
    obtain ⟨hposition', hid'⟩ :=
      hposition.step (h.sound hskip hs₀) (h.guarded hskip).head hrun hid
    refine ⟨hid', fun stages hstages ↦ ?_⟩
    cases hstages
    exact ⟨b, hposition'⟩
  | finish _ _ ih => exact ⟨ih.1, fun _ h ↦ (by cases h)⟩

end SophiaTX.Chain
