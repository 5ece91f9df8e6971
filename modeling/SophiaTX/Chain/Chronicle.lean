import SophiaTX.Lib.Past
import SophiaTX.Chain.RegistrySteps
import SophiaTX.Chain.Position

/-!
# Runs that remember

A chronicle is a run together with the stages that have been run and the states they started in.
It tells where in a block the run is and which transaction it is in.
-/

namespace SophiaTX.Chain

open SophiaTX.Protocol SophiaTX.Lib

/-- A stage that was run, and the state it started in. -/
abbrev Moment := Database × Stage

/-- Runs of the chain with their past, the newest moment first. -/
inductive Chronicle (ctx : Context) (C : Database → Stage → Prop) (s₀ : Database) :
    List Moment → Option (List Stage) → Database → Prop
  | refl : Chronicle ctx C s₀ [] none s₀
  | start {past : List Moment} {s : Database} (b : SignedBlock)
      (h : Chronicle ctx C s₀ past none s) :
      Chronicle ctx C s₀ past (some (SignedBlock.stages b)) s
  | stage {past : List Moment} {s s' : Database} {stage : Stage} {rest : List Stage}
      (h : Chronicle ctx C s₀ past (some (stage :: rest)) s) (hC : C s stage)
      (hrun : stage.run ctx s = .ok s') :
      Chronicle ctx C s₀ ((s, stage) :: past) (some rest) s'
  | finish {past : List Moment} {s : Database} (h : Chronicle ctx C s₀ past (some []) s)
      (hcheck : s.checkInvariants ctx = .ok ()) : Chronicle ctx C s₀ past none s

variable {ctx : Context} {C : Database → Stage → Prop} {s₀ s : Database}
  {pending : Option (List Stage)} {past : List Moment}

/-- Every run has a chronicle. -/
theorem RunsFrom.chronicle (h : RunsFrom ctx C s₀ pending s) :
    ∃ past, Chronicle ctx C s₀ past pending s := by
  induction h with
  | refl => exact ⟨[], .refl⟩
  | start b _ ih =>
    obtain ⟨past, hpast⟩ := ih
    exact ⟨past, hpast.start b⟩
  | stage _ hC hrun ih =>
    obtain ⟨past, hpast⟩ := ih
    exact ⟨_, hpast.stage hC hrun⟩
  | finish _ hcheck ih =>
    obtain ⟨past, hpast⟩ := ih
    exact ⟨past, hpast.finish hcheck⟩

namespace Chronicle

theorem runsFrom (h : Chronicle ctx C s₀ past pending s) : RunsFrom ctx C s₀ pending s := by
  induction h with
  | refl => exact .refl
  | start b _ ih => exact ih.start b
  | stage _ hC hrun ih => exact ih.stage hC hrun
  | finish _ hcheck ih => exact ih.finish hcheck

/-- The stages of a moment succeeded and met the condition of the run. -/
theorem moment (h : Chronicle ctx C s₀ past pending s) {moment : Moment} (hmem : moment ∈ past) :
    C moment.1 moment.2 ∧ ∃ s', moment.2.run ctx moment.1 = .ok s' := by
  induction h with
  | refl => cases hmem
  | start _ _ ih => exact ih hmem
  | stage _ hC hrun ih =>
    rcases List.mem_cons.1 hmem with rfl | hmem
    · exact ⟨hC, _, hrun⟩
    · exact ih hmem
  | finish _ _ ih => exact ih hmem

/-- The chronicle as it was at a moment. -/
theorem before (h : Chronicle ctx C s₀ past pending s) {moment : Moment} (hmem : moment ∈ past) :
    ∃ older rest, Chronicle ctx C s₀ older (some (moment.2 :: rest)) moment.1 := by
  induction h with
  | refl => cases hmem
  | start _ _ ih => exact ih hmem
  | stage h _ _ ih =>
    rcases List.mem_cons.1 hmem with rfl | hmem
    · exact ⟨_, _, h⟩
    · exact ih hmem
  | finish _ _ ih => exact ih hmem

/-- The newest moments are the stages of the current block that are done. -/
theorem recent {stages : List Stage} (h : Chronicle ctx C s₀ past (some stages) s) :
    ∃ b recent older, past = recent ++ older ∧
      SignedBlock.stages b = (recent.map Prod.snd).reverse ++ stages := by
  generalize hpending : some stages = pending at h
  induction h generalizing stages with
  | refl => cases hpending
  | start b _ _ =>
    cases hpending
    exact ⟨b, [], _, rfl, rfl⟩
  | stage _ _ _ ih =>
    cases hpending
    obtain ⟨b, recent, older, rfl, hb⟩ := ih rfl
    refine ⟨b, _ :: recent, older, rfl, ?_⟩
    rw [hb, List.map_cons, List.reverse_cons, List.append_assoc]
    rfl
  | finish _ _ _ => cases hpending

end Chronicle

/-- Stages that run one after another, each checked to meet a condition, and what they leave in
the past. -/
def recordStages (check : Database → Stage → Exec Database) (stages : List Stage)
    (start : List Moment × Database) : Exec (List Moment × Database) :=
  stages.foldlM (fun recorded stage ↦ do
    let s ← check recorded.2 stage
    pure ((recorded.2, stage) :: recorded.1, s)) start

theorem Chronicle.recordStages {check : Database → Stage → Exec Database}
    (hcheck : ∀ s stage s', check s stage = .ok s' → C s stage ∧ stage.run ctx s = .ok s')
    {done rest : List Stage} {recorded : List Moment × Database}
    (h : Chronicle ctx C s₀ past (some (done ++ rest)) s)
    (hrun : Chain.recordStages check done (past, s) = .ok recorded) :
    Chronicle ctx C s₀ recorded.1 (some rest) recorded.2 := by
  induction done generalizing past s with
  | nil => exact pure_eq_ok.1 hrun ▸ h
  | cons stage done ih =>
    simp only [Chain.recordStages, List.foldlM_cons, bind_eq_ok, pure_eq_ok] at hrun
    obtain ⟨_, ⟨s₁, hstage, rfl⟩, hrun⟩ := hrun
    obtain ⟨hC, hstage⟩ := hcheck s stage s₁ hstage
    exact ih (h.stage hC hstage) hrun

/-- Whole blocks that run one after another, stage by stage. -/
def recordBlocks (ctx : Context) (check : Database → Stage → Exec Database)
    (blocks : List SignedBlock) (start : List Moment × Database) :
    Exec (List Moment × Database) :=
  blocks.foldlM (fun recorded b ↦ do
    let recorded ← recordStages check (SignedBlock.stages b) recorded
    recorded.2.checkInvariants ctx
    pure recorded) start

theorem Chronicle.recordBlocks {check : Database → Stage → Exec Database}
    (hcheck : ∀ s stage s', check s stage = .ok s' → C s stage ∧ stage.run ctx s = .ok s')
    {blocks : List SignedBlock} {recorded : List Moment × Database}
    (h : Chronicle ctx C s₀ past none s)
    (hrun : Chain.recordBlocks ctx check blocks (past, s) = .ok recorded) :
    Chronicle ctx C s₀ recorded.1 none recorded.2 := by
  refine foldlM_invariant (I := fun recorded : List Moment × Database ↦
    Chronicle ctx C s₀ recorded.1 none recorded.2) ?_ hrun h
  rintro start b recorded _ hblock hstart
  simp only [bind_eq_ok, pure_eq_ok] at hblock
  obtain ⟨done, hstages, _, hinvariants, rfl⟩ := hblock
  have hopened := hstart.start b
  rw [← List.append_nil (SignedBlock.stages b)] at hopened
  exact (Chronicle.recordStages hcheck hopened hstages).finish hinvariants

/-! ## The transaction a run is in -/

/-- A transaction was opened in a state, and only operations of it have run since. -/
def Opened (past : List Moment) (trx : Transaction) (opening : Database) : Prop :=
  Since (fun moment _ ↦ moment = (opening, .openTransaction trx))
    (fun later ↦ ∃ op, later.2 = .operation trx op) past

/-- The same inside one transaction. -/
theorem transactionStages_before_operation {first trx : Transaction} {op : FeeOperation}
    {done rest : List Stage} (h : transactionStages first = done ++ .operation trx op :: rest) :
    ∃ ops, done = .openTransaction trx :: ops ∧ ∀ stage ∈ ops, ∃ op, stage = .operation trx op := by
  have hmem : Stage.operation trx op ∈ transactionStages first :=
    h ▸ List.mem_append_right done List.mem_cons_self
  obtain ⟨_, rfl⟩ : op ∈ first.operations ∧ first = trx := by
    simpa [transactionStages] using hmem
  cases done with
  | nil => cases h
  | cons stage ops =>
    rw [transactionStages, List.cons_append, List.cons_append, List.cons.injEq] at h
    obtain ⟨rfl, h⟩ := h
    refine ⟨ops, rfl, fun stage hstage ↦ ?_⟩
    rcases List.append_eq_append_iff.1 h with ⟨mid, rfl, hmid⟩ | ⟨mid, hmid, _⟩
    · -- Only the closing stands behind the operations.
      have hlast : Stage.operation first op ∈ [Stage.closeTransaction first] :=
        hmid ▸ List.mem_append_right mid List.mem_cons_self
      cases List.mem_singleton.1 hlast
    · have hops : stage ∈ first.operations.map (Stage.operation first) :=
        hmid ▸ List.mem_append_left mid hstage
      obtain ⟨other, _, rfl⟩ := List.mem_map.1 hops
      exact ⟨other, rfl⟩

/-- In front of an operation of a block stand the opening of its transaction and other operations
of that. -/
theorem stages_before_operation {trxs : List Transaction} {done rest tail : List Stage}
    {trx : Transaction} {op : FeeOperation} (htail : ∀ trx op, .operation trx op ∉ tail)
    (h : trxs.flatMap transactionStages ++ tail = done ++ .operation trx op :: rest) :
    ∃ before ops, done = before ++ .openTransaction trx :: ops ∧
      ∀ stage ∈ ops, ∃ op, stage = .operation trx op := by
  induction trxs generalizing done with
  | nil =>
    rw [List.flatMap_nil, List.nil_append] at h
    exact absurd (h ▸ List.mem_append_right done List.mem_cons_self) (htail trx op)
  | cons first trxs ih =>
    rw [List.flatMap_cons, List.append_assoc] at h
    rcases List.append_eq_append_iff.1 h with ⟨mid, rfl, hmid⟩ | ⟨mid, hmid, hmid'⟩
    · obtain ⟨before, ops, rfl, hops⟩ := ih hmid
      exact ⟨transactionStages first ++ before, ops, (List.append_assoc _ _ _).symm, hops⟩
    · cases mid with
      | nil =>
        rw [List.nil_append] at hmid'
        obtain ⟨before, ops, hbefore, hops⟩ := @ih [] hmid'.symm
        cases before <;> cases hbefore
      | cons stage mid =>
        rw [List.cons_append, List.cons.injEq] at hmid'
        obtain ⟨rfl, _⟩ := hmid'
        obtain ⟨ops, rfl, hops⟩ := transactionStages_before_operation hmid
        exact ⟨[], ops, rfl, hops⟩

theorem not_operation_mem_stagesAfterHead (b : SignedBlock) (trx : Transaction)
    (op : FeeOperation) : .operation trx op ∉ SignedBlock.stagesAfterHead b := by
  simp [SignedBlock.stagesAfterHead, SignedBlock.stagesAfterCommit]

theorem mem_operations_of_stages {b : SignedBlock} {trx : Transaction} {op : FeeOperation}
    (h : .operation trx op ∈ SignedBlock.stages b) : op ∈ trx.operations := by
  rw [stages_eq] at h
  simp only [List.mem_cons, List.mem_append, reduceCtorEq, false_or,
    not_operation_mem_stagesAfterHead, or_false] at h
  obtain ⟨trx', _, hmem⟩ := List.mem_flatMap.1 h
  simp only [transactionStages, List.mem_append, List.mem_cons, List.mem_map, reduceCtorEq,
    false_or, List.not_mem_nil, or_false, Stage.operation.injEq] at hmem
  obtain ⟨op', hop', rfl, rfl⟩ := hmem
  exact hop'

/-- An operation runs in a transaction that was opened. -/
theorem Chronicle.opened {trx : Transaction} {op : FeeOperation} {rest : List Stage}
    (h : Chronicle ctx C s₀ past (some (.operation trx op :: rest)) s) :
    op ∈ trx.operations ∧ ∃ opening, Opened past trx opening ∧ C opening (.openTransaction trx) ∧
      ∃ s', opening.openTransaction ctx trx = .ok s' := by
  obtain ⟨b, recent, older, hpast, hb⟩ := h.recent
  refine ⟨mem_operations_of_stages (hb ▸ List.mem_append_right _ List.mem_cons_self), ?_⟩
  rw [stages_eq] at hb
  generalize hdone : (recent.map Prod.snd).reverse = done at hb
  cases done with
  | nil => cases hb
  | cons first done =>
    rw [List.cons_append, List.cons.injEq] at hb
    have htail : ∀ trx op, Stage.operation trx op ∉
        .updateGlobalDynamicData b :: SignedBlock.stagesAfterHead b := by
      intro trx op hmem
      rcases List.mem_cons.1 hmem with hmem | hmem
      · cases hmem
      · exact not_operation_mem_stagesAfterHead b trx op hmem
    obtain ⟨before, ops, rfl, hops⟩ := stages_before_operation htail hb.2
    -- The stages that are done, from the newest on.
    have hrecent : recent.map Prod.snd =
        ops.reverse ++ .openTransaction trx :: (before.reverse ++ [first]) := by
      rw [← List.reverse_inj, hdone]
      simp
    obtain ⟨newer, rest', rfl, hnewer, hrest'⟩ := List.map_eq_append_iff.1 hrecent
    obtain ⟨moment, rest'', rfl, hmoment, _⟩ := List.map_eq_cons_iff.1 hrest'
    obtain ⟨opening, stage⟩ := moment
    obtain rfl : stage = .openTransaction trx := hmoment
    have hmem : (opening, Stage.openTransaction trx) ∈ past := by
      rw [hpast]
      simp
    refine ⟨opening, ⟨newer, _, rest'' ++ older, ?_, rfl, fun later hlater ↦ ?_⟩, h.moment hmem⟩
    · rw [hpast, List.append_assoc, List.cons_append]
    · have hstage : later.2 ∈ ops.reverse := hnewer ▸ List.mem_map_of_mem hlater
      exact hops later.2 (List.mem_reverse.1 hstage)

/-! ## Time -/

theorem stages_at_head {b b' : SignedBlock} {done rest : List Stage}
    (h : SignedBlock.stages b = done ++ .updateGlobalDynamicData b' :: rest) :
    b = b' ∧ rest = SignedBlock.stagesAfterHead b := by
  rw [stages_eq, ← List.cons_append] at h
  have hbefore : .updateGlobalDynamicData b' ∉
      Stage.openBlock b :: b.transactions.flatMap transactionStages := by
    intro hmem
    rcases List.mem_cons.1 hmem with hmem | hmem
    · cases hmem
    · exact inTransaction_of_mem hmem
  have hafter : .updateGlobalDynamicData b' ∉ SignedBlock.stagesAfterHead b := by
    simp [SignedBlock.stagesAfterHead, SignedBlock.stagesAfterCommit]
  obtain ⟨_, hhead, hrest⟩ := (List.append_cons_inj_of_notMem hbefore hafter).1 h
  cases hhead
  exact ⟨rfl, hrest.symm⟩

namespace Chronicle

theorem at_head {b : SignedBlock} {rest : List Stage}
    (h : Chronicle ctx C s₀ past (some (.updateGlobalDynamicData b :: rest)) s) :
    rest = SignedBlock.stagesAfterHead b := by
  obtain ⟨b', recent, older, _, hb⟩ := h.recent
  obtain ⟨rfl, hrest⟩ := stages_at_head hb
  exact hrest

/-- The time of a block that is opened is later than that of the head. -/
theorem clock {b : SignedBlock} {stages : List Stage}
    (h : Chronicle ctx C s₀ past (some stages) s) (hb : .updateGlobalDynamicData b ∈ stages) :
    .openBlock b ∈ stages ∨ s.registry.time < b.timestamp := by
  generalize hpending : some stages = pending at h
  induction h generalizing stages with
  | refl => cases hpending
  | start b' _ _ =>
    cases hpending
    rw [stages_eq] at hb ⊢
    simp only [List.mem_cons, List.mem_append, reduceCtorEq, false_or] at hb
    rcases hb with hb | hb | hb
    · exact absurd (inTransaction_of_mem hb) (by simp [Stage.InTransaction])
    · cases hb
      exact .inl List.mem_cons_self
    · simp [SignedBlock.stagesAfterHead, SignedBlock.stagesAfterCommit] at hb
  | @stage past s s' stage rest h _ hrun ih =>
    cases hpending
    have hne : ∀ b', stage ≠ .updateGlobalDynamicData b' := by
      rintro b' rfl
      rw [h.at_head] at hb
      simp [SignedBlock.stagesAfterHead, SignedBlock.stagesAfterCommit] at hb
    have hstep := Stage.registry_step hrun
    rw [hstep.time_eq hne]
    rcases ih (List.mem_cons_of_mem _ hb) rfl with hopen | hlater
    · rcases List.mem_cons.1 hopen with rfl | hopen
      · exact .inr hstep.1
      · exact .inl hopen
    · exact .inr hlater
  | finish _ _ _ => cases hpending

/-- Time never goes back. -/
theorem time_le_of_stage {stage : Stage} {rest : List Stage} {s' : Database}
    (h : Chronicle ctx C s₀ past (some (stage :: rest)) s) (hrun : stage.run ctx s = .ok s') :
    s.registry.time ≤ s'.registry.time := by
  by_cases hne : ∀ b, stage ≠ .updateGlobalDynamicData b
  · exact ((Stage.registry_step hrun).time_eq hne).ge
  · obtain ⟨b, rfl⟩ := not_forall_not.1 hne
    rw [Stage.registry_step hrun]
    rcases h.clock List.mem_cons_self with hopen | hlater
    · rw [h.at_head] at hopen
      simp [SignedBlock.stagesAfterHead, SignedBlock.stagesAfterCommit] at hopen
    · exact hlater.le

theorem time_le {moment : Moment} (h : Chronicle ctx C s₀ past pending s) (hmem : moment ∈ past) :
    moment.1.registry.time ≤ s.registry.time := by
  induction h with
  | refl => cases hmem
  | start _ _ ih => exact ih hmem
  | stage h _ hrun ih =>
    rcases List.mem_cons.1 hmem with rfl | hmem
    · exact h.time_le_of_stage hrun
    · exact (ih hmem).trans (h.time_le_of_stage hrun)
  | finish _ _ ih => exact ih hmem

end Chronicle

end SophiaTX.Chain
