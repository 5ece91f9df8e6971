import SophiaTX.Chain.Chronicle

/-!
# Replay protection

A transaction that was applied stays in the table of transactions until the time of the head is
past its expiration. From then on its expiration fails the check, so its id is never applied again.
-/

namespace SophiaTX.Chain

open SophiaTX.Protocol SophiaTX.Lib

/-- The id of the transaction a stage opens, if it opens one. -/
def Stage.openedId (env : Env) : Stage → Option ℕ
  | .openTransaction trx => some (env.trxId trx)
  | _ => none

/-- The ids of the transactions opened in a past, the newest first. -/
def openedIds (env : Env) (past : List Moment) : List ℕ :=
  past.filterMap fun moment ↦ moment.2.openedId env

theorem mem_openedIds {env : Env} {past : List Moment} {id : ℕ} :
    id ∈ openedIds env past ↔
      ∃ s trx, (s, .openTransaction trx) ∈ past ∧ env.trxId trx = id := by
  rw [openedIds, List.mem_filterMap]
  constructor
  · rintro ⟨⟨s, stage⟩, hmem, hid⟩
    cases stage with
    | openTransaction trx => exact ⟨s, trx, hmem, Option.some.inj hid⟩
    | _ => cases hid
  · rintro ⟨s, trx, hmem, rfl⟩
    exact ⟨_, hmem, rfl⟩

namespace Registry

variable {ctx : Context} {r r' : Registry} {stage : Stage} {id : ℕ} {expiration : Time}

/-- A transaction is in the table, or has expired for good. -/
def Remembers (r : Registry) (id : ℕ) (expiration : Time) : Prop :=
  r.transactions id = some expiration ∨ r.head ≠ 0 ∧ expiration < r.time

theorem Remembers.step (h : r.Remembers id expiration) (hstep : r.Step ctx stage r')
    (hopen : ∀ trx, stage ≠ .openTransaction trx) (hle : r.time ≤ r'.time)
    (hclear : stage = .clearExpiredTransactions → r.head ≠ 0) : r'.Remembers id expiration := by
  have hhead : r.head ≠ 0 → r'.head ≠ 0 := by
    intro hne
    by_cases hmove : ∀ b, stage ≠ .updateGlobalDynamicData b
    · exact (hstep.clock_eq hmove).1 ▸ hne
    · obtain ⟨b, rfl⟩ := not_forall_not.1 hmove
      obtain rfl : r' = _ := hstep
      exact Nat.succ_ne_zero _
  rcases h with htable | ⟨hne, hexpired⟩
  · by_cases hstage : stage = .clearExpiredTransactions
    · subst hstage
      obtain rfl : r' = _ := hstep
      by_cases hkept : r.time ≤ expiration
      · refine .inl ?_
        simp only [htable, Option.filter_some, decide_eq_true_eq, if_pos hkept]
      · exact .inr ⟨hclear rfl, not_le.1 hkept⟩
    · exact .inl ((congrFun (hstep.transactions_eq hopen hstage) id).trans htable)
  · exact .inr ⟨hhead hne, hexpired.trans_le hle⟩

/-- Opening another transaction forgets none. -/
theorem Remembers.opened {trx : Transaction} (h : r.Remembers id expiration)
    (hdupe : ctx.skip.transactionDupeCheck = false)
    (hstep : r.Step ctx (.openTransaction trx) r') : r'.Remembers id expiration := by
  obtain ⟨_, hstep⟩ := hstep
  rw [if_neg (by simp [hdupe])] at hstep
  obtain ⟨hfresh, rfl⟩ := hstep
  refine h.imp_left fun htable ↦ ?_
  have hne : id ≠ ctx.env.trxId trx := by
    rintro rfl
    rw [hfresh] at htable
    cases htable
  exact (Function.update_of_ne hne _ _).trans htable

theorem remembers_of_opened {trx : Transaction} (hdupe : ctx.skip.transactionDupeCheck = false)
    (hstep : r.Step ctx (.openTransaction trx) r') :
    r'.Remembers (ctx.env.trxId trx) trx.expiration := by
  obtain ⟨_, hstep⟩ := hstep
  rw [if_neg (by simp [hdupe])] at hstep
  obtain ⟨_, rfl⟩ := hstep
  exact .inl (Function.update_self _ _ _)

/-- A transaction whose id is remembered is not opened again. -/
theorem Remembers.not_opened {trx : Transaction}
    (h : r.Remembers (ctx.env.trxId trx) trx.expiration)
    (hdupe : ctx.skip.transactionDupeCheck = false) :
    ¬ r.Step ctx (.openTransaction trx) r' := by
  rintro ⟨htime, hstep⟩
  rw [if_neg (by simp [hdupe])] at hstep
  rcases h with htable | ⟨hne, hexpired⟩
  · rw [hstep.1] at htable
    cases htable
  · rcases htime with hzero | hlater
    · exact hne hzero
    · exact lt_asymm hexpired hlater

end Registry

variable {ctx : Context} {C : Database → Stage → Prop} {s₀ s s' : Database}
  {pending : Option (List Stage)} {past : List Moment}

namespace Chronicle

/-- Inside a block the head is still to move, or there is one. -/
theorem head_pending {stages : List Stage} (h : Chronicle ctx C s₀ past (some stages) s) :
    (∃ done b rest, stages = done ++ .updateGlobalDynamicData b :: rest ∧
      .clearExpiredTransactions ∉ done) ∨ s.registry.head ≠ 0 := by
  generalize hpending : some stages = pending at h
  induction h generalizing stages with
  | refl => cases hpending
  | finish _ _ _ => cases hpending
  | start b _ _ =>
    cases hpending
    refine .inl ⟨.openBlock b :: b.transactions.flatMap transactionStages, b, _, stages_eq b, ?_⟩
    intro hmem
    rcases List.mem_cons.1 hmem with hmem | hmem
    · cases hmem
    · exact inTransaction_of_mem hmem
  | @stage past s s' stage rest h _ hrun ih =>
    cases hpending
    have hstep := Stage.registry_step hrun
    by_cases hmove : ∀ b, stage ≠ .updateGlobalDynamicData b
    · rw [(hstep.clock_eq hmove).1]
      refine (ih rfl).imp_left ?_
      rintro ⟨done, b, rest', hstages, hdone⟩
      cases done with
      | nil =>
        rw [List.nil_append, List.cons.injEq] at hstages
        exact absurd hstages.1 (hmove b)
      | cons first done =>
        rw [List.cons_append, List.cons.injEq] at hstages
        exact ⟨done, b, rest', hstages.2, fun hmem ↦ hdone (List.mem_cons_of_mem _ hmem)⟩
    · obtain ⟨b, rfl⟩ := not_forall_not.1 hmove
      refine .inr ?_
      rw [hstep]
      exact Nat.succ_ne_zero _

theorem head_ne_zero {rest : List Stage}
    (h : Chronicle ctx C s₀ past (some (.clearExpiredTransactions :: rest)) s) :
    s.registry.head ≠ 0 := by
  rcases h.head_pending with ⟨done, b, rest', hstages, hdone⟩ | hne
  · cases done with
    | nil => cases hstages
    | cons first done =>
      rw [List.cons_append, List.cons.injEq] at hstages
      exact absurd (hstages.1 ▸ List.mem_cons_self) hdone
  · exact hne

section Replay

variable (hdupe : ctx.skip.transactionDupeCheck = false)
include hdupe

/-- Every transaction of the past is remembered. -/
theorem remembers_opened {trx : Transaction} {opening : Database}
    (h : Chronicle ctx C s₀ past pending s) (hmem : (opening, .openTransaction trx) ∈ past) :
    s.registry.Remembers (ctx.env.trxId trx) trx.expiration := by
  induction h with
  | refl => cases hmem
  | start _ _ ih => exact ih hmem
  | finish _ _ ih => exact ih hmem
  | @stage past s s' stage rest h _ hrun ih =>
    have hstep := Stage.registry_step hrun
    by_cases hopen : ∀ trx, stage ≠ .openTransaction trx
    · rcases List.mem_cons.1 hmem with hnow | hmem
      · exact absurd (congrArg Prod.snd hnow).symm (hopen trx)
      · refine (ih hmem).step hstep hopen (h.time_le_of_stage hrun) ?_
        rintro rfl
        exact h.head_ne_zero
    · obtain ⟨new, rfl⟩ := not_forall_not.1 hopen
      rcases List.mem_cons.1 hmem with hnow | hmem
      · cases hnow
        exact Registry.remembers_of_opened hdupe hstep
      · exact (ih hmem).opened hdupe hstep

variable (hid : ∀ trx trx' : Transaction, ctx.env.trxId trx = ctx.env.trxId trx' →
  trx.expiration = trx'.expiration)
include hid

theorem remembers {trx : Transaction} (h : Chronicle ctx C s₀ past pending s)
    (htrx : ctx.env.trxId trx ∈ openedIds ctx.env past) :
    s.registry.Remembers (ctx.env.trxId trx) trx.expiration := by
  obtain ⟨opening, first, hmem, hfirst⟩ := mem_openedIds.1 htrx
  rw [← hfirst, ← hid first trx hfirst]
  exact h.remembers_opened hdupe hmem

/-- No id is opened twice. -/
theorem openedIds_nodup (h : Chronicle ctx C s₀ past pending s) :
    (openedIds ctx.env past).Nodup := by
  induction h with
  | refl => exact List.nodup_nil
  | start _ _ ih => exact ih
  | finish _ _ ih => exact ih
  | @stage past s s' stage rest h _ hrun ih =>
    by_cases hopen : ∀ trx, stage ≠ .openTransaction trx
    · have hnone : stage.openedId ctx.env = none := by
        cases stage with
        | openTransaction trx => exact absurd rfl (hopen trx)
        | _ => rfl
      have hsame : openedIds ctx.env ((s, stage) :: past) = openedIds ctx.env past :=
        List.filterMap_cons_none hnone
      exact hsame ▸ ih
    · obtain ⟨trx, rfl⟩ := not_forall_not.1 hopen
      refine List.nodup_cons.2 ⟨fun hmem ↦ ?_, ih⟩
      exact (h.remembers hdupe hid hmem).not_opened hdupe (Stage.registry_step hrun)

end Replay

end Chronicle

end SophiaTX.Chain
