import SophiaTX.Chain.StageMoves

/-!
# Invariants of runs

What every stage keeps, a run keeps. The operations of a transaction run after the transaction
was opened, so each has passed its own checks by then.
-/

namespace SophiaTX.Chain

open SophiaTX.Protocol SophiaTX.Lib

variable {ctx : Context}

/-- Every operation still to come is valid, or comes after the opening of its transaction. -/
def Guarded (ctx : Context) (pending : List Stage) : Prop :=
  ∀ before trx op after, pending = before ++ .operation trx op :: after →
    (op ∈ trx.operations ∧ .openTransaction trx ∈ before) ∨
      op.op.validate ctx.env ctx.genesis = .ok ()

theorem Guarded.head {stage : Stage} {rest : List Stage} (h : Guarded ctx (stage :: rest)) :
    stage.Valid ctx := by
  cases stage with
  | operation trx op =>
    rcases h [] trx op rest rfl with ⟨_, hmem⟩ | hvalid
    · cases hmem
    · exact hvalid
  | _ => trivial

theorem Guarded.tail {stage : Stage} {rest : List Stage} {s s' : Database}
    (hskip : ctx.skip.validate = false) (h : Guarded ctx (stage :: rest))
    (hrun : stage.run ctx s = .ok s') : Guarded ctx rest := by
  intro before trx op after hrest
  rcases h (stage :: before) trx op after (by rw [hrest, List.cons_append]) with
    ⟨hop, hmem⟩ | hvalid
  · rcases List.mem_cons.1 hmem with rfl | hmem
    · exact .inr (Database.openTransaction_validate hskip hrun hop)
    · exact .inl ⟨hop, hmem⟩
  · exact .inr hvalid

/-- Stages without operations in front change nothing. -/
theorem Guarded.append {stages rest : List Stage} (hrest : Guarded ctx rest)
    (hstages : Guarded ctx stages) : Guarded ctx (stages ++ rest) := by
  intro before trx op after hsplit
  rcases List.append_eq_append_iff.1 hsplit with ⟨mid, rfl, hmid⟩ | ⟨mid, hmid, hmid'⟩
  · rcases hrest mid trx op after hmid with ⟨hop, hmem⟩ | hvalid
    · exact .inl ⟨hop, List.mem_append_right _ hmem⟩
    · exact .inr hvalid
  · cases mid with
    | nil =>
      rw [List.nil_append] at hmid'
      rcases hrest [] trx op after hmid'.symm with ⟨_, hmem⟩ | hvalid
      · cases hmem
      · exact .inr hvalid
    | cons stage mid =>
      rw [List.cons_append, List.cons.injEq] at hmid'
      obtain ⟨rfl, _⟩ := hmid'
      exact hstages before trx op mid hmid

theorem guarded_of_no_operations {stages : List Stage}
    (h : ∀ trx op, .operation trx op ∉ stages) : Guarded ctx stages := by
  intro before trx op after hsplit
  exact absurd (hsplit ▸ List.mem_append_right before List.mem_cons_self) (h trx op)

theorem transactionStages_guarded (trx : Transaction) :
    Guarded ctx (transactionStages trx) := by
  intro before trx' op after hsplit
  have hmem : Stage.operation trx' op ∈ transactionStages trx :=
    hsplit ▸ List.mem_append_right before List.mem_cons_self
  obtain ⟨hop, rfl⟩ : op ∈ trx.operations ∧ trx = trx' := by
    simpa [transactionStages] using hmem
  refine .inl ⟨hop, ?_⟩
  cases before with
  | nil => cases hsplit
  | cons first rest =>
    rw [transactionStages, List.cons_append, List.cons_append, List.cons.injEq] at hsplit
    exact hsplit.1 ▸ List.mem_cons_self

theorem stages_guarded (b : SignedBlock) : Guarded ctx (SignedBlock.stages b) := by
  have htransactions : ∀ trxs : List Transaction, Guarded ctx (trxs.flatMap transactionStages) := by
    intro trxs
    induction trxs with
    | nil => exact guarded_of_no_operations (by simp)
    | cons trx rest ih =>
      rw [List.flatMap_cons]
      exact ih.append (transactionStages_guarded trx)
  have hopen : Guarded ctx [Stage.openBlock b] := guarded_of_no_operations (by simp)
  have hbefore : Guarded ctx (SignedBlock.stagesBeforeCommit b) :=
    Guarded.append (guarded_of_no_operations (by simp))
      ((htransactions b.transactions).append hopen)
  exact Guarded.append (guarded_of_no_operations (by simp [SignedBlock.stagesAfterCommit])) hbefore

theorem Stage.sound {stage : Stage} {s s' : Database} (hs : Sound s) (hvalid : stage.Valid ctx)
    (h : stage.run ctx s = .ok s') : Sound s' :=
  (Stage.explained hs hvalid h).sound hs

namespace RunsFrom

variable {C : Database → Stage → Prop} {s₀ s : Database} {pending : Option (List Stage)}

theorem guarded {stages : List Stage} (hskip : ctx.skip.validate = false)
    (h : RunsFrom ctx C s₀ (some stages) s) : Guarded ctx stages := by
  generalize hpending : some stages = pending at h
  induction h generalizing stages with
  | refl => cases hpending
  | start b _ _ =>
    cases hpending
    exact stages_guarded b
  | stage _ _ hrun ih =>
    cases hpending
    exact (ih rfl).tail hskip hrun
  | finish _ _ _ => cases hpending

/-- What every stage of a run keeps, the run keeps. -/
theorem invariant {I : Database → Prop} (hskip : ctx.skip.validate = false)
    (hstep : ∀ s stage s', C s stage → stage.Valid ctx → stage.run ctx s = .ok s' → I s → I s')
    (h : RunsFrom ctx C s₀ pending s) (hs₀ : I s₀) : I s := by
  induction h with
  | refl => exact hs₀
  | start _ _ ih => exact ih
  | stage h hC hrun ih => exact hstep _ _ _ hC (h.guarded hskip).head hrun ih
  | finish _ _ ih => exact ih

theorem sound (hskip : ctx.skip.validate = false) (h : RunsFrom ctx C s₀ pending s)
    (hs₀ : Sound s₀) : Sound s :=
  h.invariant hskip (fun _ _ _ _ hvalid hrun hs ↦ Stage.sound hs hvalid hrun) hs₀

/-- Stages that run one after another and meet the condition in whatever state. -/
theorem runStages {done rest : List Stage} {s s' : Database}
    (h : RunsFrom ctx C s₀ (some (done ++ rest)) s) (hC : ∀ stage ∈ done, ∀ s, C s stage)
    (hrun : Chain.runStages ctx done s = .ok s') : RunsFrom ctx C s₀ (some rest) s' := by
  induction done generalizing s with
  | nil => exact pure_eq_ok.1 hrun ▸ h
  | cons stage done ih =>
    rw [Chain.runStages, List.foldlM_cons, bind_eq_ok] at hrun
    obtain ⟨s₁, hstage, hrun⟩ := hrun
    exact ih (h.stage (hC stage List.mem_cons_self s) hstage)
      (fun stage hmem ↦ hC stage (List.mem_cons_of_mem _ hmem)) hrun

/-- Stages that run one after another, each checked to meet the condition. -/
theorem checkedStages {check : Database → Stage → Exec Database}
    (hcheck : ∀ s stage s', check s stage = .ok s' → C s stage ∧ stage.run ctx s = .ok s')
    {done rest : List Stage} {s s' : Database} (h : RunsFrom ctx C s₀ (some (done ++ rest)) s)
    (hrun : done.foldlM check s = .ok s') : RunsFrom ctx C s₀ (some rest) s' := by
  induction done generalizing s with
  | nil => exact pure_eq_ok.1 hrun ▸ h
  | cons stage done ih =>
    rw [List.foldlM_cons, bind_eq_ok] at hrun
    obtain ⟨s₁, hstage, hrun⟩ := hrun
    obtain ⟨hC, hstage⟩ := hcheck s stage s₁ hstage
    exact ih (h.stage hC hstage) hrun

/-- A block that is applied continues a run. -/
theorem applyBlock {s s' : Database} {b : SignedBlock} (h : RunsFrom ctx C s₀ none s)
    (hC : ∀ stage ∈ SignedBlock.stages b, ∀ s, C s stage)
    (hb : Chain.applyBlock ctx s b = .ok s') : RunsFrom ctx C s₀ none s' := by
  simp only [Chain.applyBlock, bind_eq_ok, pure_eq_ok] at hb
  obtain ⟨s₁, hrun, _, hcheck, rfl⟩ := hb
  have hstages : RunsFrom ctx C s₀ (some (SignedBlock.stages b ++ [])) s := by
    rw [List.append_nil]
    exact h.start b
  exact (hstages.runStages hC hrun).finish hcheck

theorem applyBlocks {s s' : Database} {blocks : List SignedBlock} (h : RunsFrom ctx C s₀ none s)
    (hC : ∀ b ∈ blocks, ∀ stage ∈ SignedBlock.stages b, ∀ s, C s stage)
    (hblocks : Chain.applyBlocks ctx s blocks = .ok s') : RunsFrom ctx C s₀ none s' :=
  foldlM_invariant (I := RunsFrom ctx C s₀ none)
    (fun _ b _ hb hround hs ↦ hs.applyBlock (hC b hb) hround) hblocks h

theorem checkedBlocks {check : Database → Stage → Exec Database}
    (hcheck : ∀ s stage s', check s stage = .ok s' → C s stage ∧ stage.run ctx s = .ok s')
    {s s' : Database} {blocks : List SignedBlock} (h : RunsFrom ctx C s₀ none s)
    (hblocks : blocks.foldlM (fun s b ↦ do
      let s ← (SignedBlock.stages b).foldlM check s
      s.checkInvariants ctx
      pure s) s = .ok s') : RunsFrom ctx C s₀ none s' := by
  refine foldlM_invariant (I := RunsFrom ctx C s₀ none) (fun s b s' _ hround hs ↦ ?_) hblocks h
  simp only [bind_eq_ok, pure_eq_ok] at hround
  obtain ⟨s₁, hrun, _, hinvariants, rfl⟩ := hround
  have hstages : RunsFrom ctx C s₀ (some (SignedBlock.stages b ++ [])) s := by
    rw [List.append_nil]
    exact hs.start b
  exact (hstages.checkedStages hcheck hrun).finish hinvariants

end RunsFrom

end SophiaTX.Chain
