import SophiaTX.Chain.Chronicle
import SophiaTX.Chain.Genesis
import SophiaTX.Escrow.Contract

/-!
# Escrows follow the contract

The row of an escrow stands for a phase of the contract between its parties. The evaluators of the
escrow operations and the expiry of ratifications are steps of it, with the credits that the
contract gives.
-/

namespace SophiaTX.Chain

open SophiaTX.Protocol SophiaTX.Lib SophiaTX.Contract

namespace Database

variable {g : GenesisState} {s s' : Database}

theorem refundEscrow_eq_ok {key : AccountName × ℕ} {e : Escrow}
    (h : s.refundEscrow g key e = .ok s') :
    s'.balanceOf = s.balanceOf + Pi.single key.1 (e.sophiatxBalance.amount + e.pendingFee.amount) ∧
      s'.escrows = s.escrows.erase key ∧ s'.dgp = s.dgp := by
  simp only [refundEscrow, bind_eq_ok, pure_eq_ok] at h
  obtain ⟨s₁, hamount, s₂, hfee, rfl⟩ := h
  refine ⟨?_, ?_, (adjustBalance_dgp hfee).trans (adjustBalance_dgp hamount)⟩
  · calc
      s₂.balanceOf = s₁.balanceOf + Pi.single key.1 e.pendingFee.amount :=
        adjustBalance_balanceOf hfee
      _ = s.balanceOf + Pi.single key.1 e.sophiatxBalance.amount +
          Pi.single key.1 e.pendingFee.amount := by rw [adjustBalance_balanceOf hamount]
      _ = s.balanceOf + Pi.single key.1 (e.sophiatxBalance.amount + e.pendingFee.amount) := by
        rw [Pi.single_add, add_assoc]
  · rw [← adjustBalance_escrows hamount, ← adjustBalance_escrows hfee]

end Database

/-! ## Steps of an escrow -/

/-- The operations on an escrow, and one round of the expiry of ratifications. -/
inductive EscrowStep (env : Env) (g : GenesisState) (key : AccountName × ℕ) :
    Event AccountName → Database → Database → Prop
  | approve {s s' : Database} {toAccount agent who : AccountName} {approve : Bool}
      (hvalid :
        (Operation.escrowApprove key.1 toAccount agent who key.2 approve).validate env g = .ok ())
      (h : s.escrowApproveEvaluator g key.1 toAccount agent who key.2 approve = .ok s') :
      EscrowStep env g key (.approve who approve) s s'
  | dispute {s s' : Database} {toAccount agent who : AccountName}
      (hvalid : (Operation.escrowDispute key.1 toAccount agent who key.2).validate env g = .ok ())
      (h : s.escrowDisputeEvaluator key.1 toAccount agent key.2 = .ok s') :
      EscrowStep env g key (.dispute who) s s'
  | release {s s' : Database} {toAccount agent who receiver : AccountName} {amount : Asset}
      (hvalid :
        (Operation.escrowRelease key.1 toAccount agent who receiver key.2 amount).validate env
        g = .ok ())
      (h : s.escrowReleaseEvaluator g key.1 toAccount agent who receiver key.2 amount = .ok s') :
      EscrowStep env g key (.release who receiver amount.amount) s s'
  | expire {s s' : Database} {e : Escrow} (hentry : (key, e) ∈ s.unratifiedEscrows)
      (h : s.refundEscrow g key e = .ok s') : EscrowStep env g key .expire s s'

/-- A step of an escrow, its time and what it changes in the balances. -/
def escrowRecord (event : Event AccountName) (s s' : Database) : Record AccountName :=
  ⟨s.dgp.time, event, s'.balanceOf - s.balanceOf⟩

/-- Runs of one escrow: steps of it, between which anything happens that leaves its row alone. -/
inductive EscrowRun (env : Env) (g : GenesisState) (key : AccountName × ℕ) :
    Database → List (Record AccountName) → Database → Prop
  | nil (s : Database) : EscrowRun env g key s [] s
  | elsewhere {s s₁ s₂ : Database} {records : List (Record AccountName)}
      (hrow : s₁.escrows.find? key = s.escrows.find? key)
      (hrest : EscrowRun env g key s₁ records s₂) : EscrowRun env g key s records s₂
  | step {s s₁ s₂ : Database} {event : Event AccountName} {records : List (Record AccountName)}
      (hstep : EscrowStep env g key event s s₁) (hrest : EscrowRun env g key s₁ records s₂) :
      EscrowRun env g key s (escrowRecord event s s₁ :: records) s₂

namespace Escrow

/-- The phase a row stands for. -/
def phase (e : Escrow) : Phase :=
  if e.isApproved then .running e.sophiatxBalance.amount e.disputed
  else .offered e.toApproved e.agentApproved

/-- A row keeps the terms of its escrow, and all that was left until it is ratified. -/
structure Keeps (t : Terms AccountName) (e : Escrow) : Prop where
  toAccount : e.toAccount = t.receiver
  agent : e.agent = t.agent
  expiration : e.escrowExpiration = t.expiration
  offered : e.isApproved = false → e.sophiatxBalance.amount = t.amount ∧
    e.pendingFee.amount = t.fee ∧ e.disputed = false

end Escrow

/-- The phase of an escrow; it is closed when its row is gone. -/
def Database.escrowPhase (s : Database) (key : AccountName × ℕ) : Phase :=
  (s.escrows.find? key).elim .closed Escrow.phase

section Refinement

variable {env : Env} {g : GenesisState} {key : AccountName × ℕ} {s s' : Database}
  {t : Terms AccountName} {e : Escrow}

theorem escrowRecord_eq {event : Event AccountName} {credit : AccountName → ℤ}
    (h : s'.balanceOf = s.balanceOf + credit) :
    escrowRecord event s s' = ⟨s.dgp.time, event, credit⟩ := by
  rw [escrowRecord, h, add_sub_cancel_left]

theorem escrowPhase_erase (h : s'.escrows = s.escrows.erase key) :
    s'.escrowPhase key = .closed ∧ ∀ e', s'.escrows.find? key = some e' → e'.Keeps t := by
  have hnone : s'.escrows.find? key = none := by rw [h, Table.find?_erase, if_pos rfl]
  refine ⟨by rw [Database.escrowPhase, hnone]; rfl, fun e' he' ↦ ?_⟩
  rw [hnone] at he'
  cases he'

theorem escrowPhase_modify {e' : Escrow} (he : s.escrows.find? key = some e)
    (hkeeps : e'.Keeps t) :
    (s.modifyEscrow key fun _ ↦ e').escrowPhase key = e'.phase ∧
      ∀ e'', (s.modifyEscrow key fun _ ↦ e').escrows.find? key = some e'' → e''.Keeps t := by
  have hsome : (s.modifyEscrow key fun _ ↦ e').escrows.find? key = some e' := by
    simp [Database.modifyEscrow, Table.find?_modify_self, he]
  refine ⟨by rw [Database.escrowPhase, hsome]; rfl, fun e'' he'' ↦ ?_⟩
  rw [hsome] at he''
  cases he''
  exact hkeeps

/-- A refund closes an offered escrow. -/
theorem refund_refines {event : Event AccountName} (hkey : key.1 = t.sender)
    (hkeeps : e.Keeps t) (hoffered : e.isApproved = false) (h : s.refundEscrow g key e = .ok s') :
    escrowRecord event s s' = ⟨s.dgp.time, event, Pi.single t.sender (t.amount + t.fee)⟩ ∧
      s'.escrowPhase key = .closed ∧ ∀ e', s'.escrows.find? key = some e' → e'.Keeps t := by
  obtain ⟨hbalance, hescrows, _⟩ := Database.refundEscrow_eq_ok h
  obtain ⟨hamount, hfee, _⟩ := hkeeps.offered hoffered
  rw [hamount, hfee, hkey] at hbalance
  exact ⟨escrowRecord_eq hbalance, escrowPhase_erase hescrows⟩

theorem approve_refines {toAccount agent who : AccountName} {approve : Bool}
    (hkey : key.1 = t.sender) (he : s.escrows.find? key = some e) (hkeeps : e.Keeps t)
    (hvalid :
      (Operation.escrowApprove key.1 toAccount agent who key.2 approve).validate env g = .ok ())
    (h : s.escrowApproveEvaluator g key.1 toAccount agent who key.2 approve = .ok s') :
    Step t e.phase (escrowRecord (.approve who approve) s s') (s'.escrowPhase key) ∧
      ∀ e', s'.escrows.find? key = some e' → e'.Keeps t := by
  simp only [Operation.validate, bind_eq_ok, fcAssert_eq_ok] at hvalid
  obtain ⟨_, _, _, _, _, _, _, _, hwho⟩ := hvalid
  simp only [Database.escrowApproveEvaluator, Database.getEscrow, bind_eq_ok, orUnknownKey_eq_ok,
    fcAssert_eq_ok] at h
  obtain ⟨_, _, e₁, he₁, _, rfl, _, rfl, _, _, _, hto, _, hagent, h⟩ := h
  obtain rfl : e₁ = e := Option.some.inj (he₁.symm.trans he)
  -- Who approves or rejects has not approved yet.
  have hoffered : e₁.isApproved = false := by
    rcases hwho with rfl | rfl
    · simp [Escrow.isApproved, hto rfl]
    · simp [Escrow.isApproved, hagent rfl]
  have hphase : e₁.phase = .offered e₁.toApproved e₁.agentApproved := by
    rw [Escrow.phase, hoffered, if_neg Bool.false_ne_true]
  obtain ⟨hamount, hfee, hdisputed⟩ := hkeeps.offered hoffered
  rw [hphase]
  cases approve with
  | false =>
    obtain ⟨hrecord, hclosed, hrow⟩ := refund_refines hkey hkeeps hoffered h
    rw [hrecord, hclosed]
    exact ⟨.reject, hrow⟩
  | true =>
    have hwho' : who = t.receiver ∨ who = t.agent := by rwa [hkeeps.toAccount, hkeeps.agent] at hwho
    let e₂ : Escrow := { e₁ with
      toApproved := e₁.toApproved || decide (who = e₁.toAccount)
      agentApproved := e₁.agentApproved || decide (who = e₁.agent) }
    have hflags : e₂.isApproved = ((e₁.toApproved || decide (who = t.receiver)) &&
        (e₁.agentApproved || decide (who = t.agent))) := by
      rw [← hkeeps.toAccount, ← hkeeps.agent]
      rfl
    change (if e₂.isApproved then _ else pure (s.modifyEscrow key fun _ ↦ e₂)) = _ at h
    by_cases hboth : e₂.isApproved = true
    · rw [if_pos hboth, bind_eq_ok] at h
      obtain ⟨s₁, hpaid, h⟩ := h
      rw [pure_eq_ok] at h
      subst h
      have he₂ : s₁.escrows.find? key = some e₁ := by
        rw [Database.adjustBalance_escrows hpaid, he]
      have hkeeps' : Escrow.Keeps t { e₂ with pendingFee := ⟨0, e₂.pendingFee.symbol⟩ } :=
        ⟨hkeeps.toAccount, hkeeps.agent, hkeeps.expiration, fun h ↦ (by cases hboth.symm.trans h)⟩
      obtain ⟨hphase', hrow⟩ := escrowPhase_modify he₂ hkeeps'
      refine ⟨?_, hrow⟩
      have hafter : Escrow.phase { e₂ with pendingFee := ⟨0, e₂.pendingFee.symbol⟩ } =
          .running t.amount false := by
        rw [← hamount, ← hdisputed]
        exact if_pos hboth
      have hcredit : (s₁.modifyEscrow key fun _ ↦
          { e₂ with pendingFee := ⟨0, e₂.pendingFee.symbol⟩ }).balanceOf =
            s.balanceOf + Pi.single t.agent t.fee := by
        rw [Database.balanceOf_modifyEscrow, Database.adjustBalance_balanceOf hpaid, hfee,
          hkeeps.agent]
      have hstep : Step t (.offered e₁.toApproved e₁.agentApproved)
          ⟨s.dgp.time, .approve who true, Pi.single t.agent t.fee⟩ (.running t.amount false) :=
        .ratify hwho' (hflags.symm.trans hboth)
      rw [← hafter, ← hphase', ← escrowRecord_eq hcredit] at hstep
      exact hstep
    · rw [if_neg hboth, pure_eq_ok] at h
      subst h
      have hkeeps' : e₂.Keeps t :=
        ⟨hkeeps.toAccount, hkeeps.agent, hkeeps.expiration, fun _ ↦ hkeeps.offered hoffered⟩
      obtain ⟨hphase', hrow⟩ := escrowPhase_modify he hkeeps'
      refine ⟨?_, hrow⟩
      have hafter : e₂.phase = .offered (e₁.toApproved || decide (who = t.receiver))
          (e₁.agentApproved || decide (who = t.agent)) := by
        rw [← hkeeps.toAccount, ← hkeeps.agent]
        exact if_neg hboth
      have hcredit : (s.modifyEscrow key fun _ ↦ e₂).balanceOf = s.balanceOf + 0 :=
        (add_zero s.balanceOf).symm
      rw [hphase', hafter, escrowRecord_eq hcredit]
      exact .approve hwho' (hflags.symm.trans (Bool.eq_false_iff.2 hboth))

theorem dispute_refines {toAccount agent who : AccountName}
    (he : s.escrows.find? key = some e) (hkeeps : e.Keeps t)
    (h : s.escrowDisputeEvaluator key.1 toAccount agent key.2 = .ok s') :
    Step t e.phase (escrowRecord (.dispute who) s s') (s'.escrowPhase key) ∧
      ∀ e', s'.escrows.find? key = some e' → e'.Keeps t := by
  simp only [Database.escrowDisputeEvaluator, Database.getEscrow, bind_eq_ok, orUnknownKey_eq_ok,
    fcAssert_eq_ok, pure_eq_ok] at h
  obtain ⟨_, _, _, _, e₁, he₁, _, _, _, happroved, _, hdisputed, _, _, _, _, rfl⟩ := h
  obtain rfl : e₁ = e := Option.some.inj (he₁.symm.trans he)
  have hkeeps' : { e₁ with disputed := true }.Keeps t :=
    ⟨hkeeps.toAccount, hkeeps.agent, hkeeps.expiration, fun h ↦ (by cases happroved.symm.trans h)⟩
  obtain ⟨hphase, hrow⟩ := escrowPhase_modify he hkeeps'
  have hrecord :
      escrowRecord (.dispute who) s (s.modifyEscrow key fun _ ↦ { e₁ with disputed := true }) =
      ⟨s.dgp.time, .dispute who, 0⟩ := escrowRecord_eq (add_zero _).symm
  have hbefore : e₁.phase = .running e₁.sophiatxBalance.amount false := by
    rw [Escrow.phase, happroved, if_pos rfl, hdisputed]
  have hafter : Escrow.phase { e₁ with disputed := true } =
      .running e₁.sophiatxBalance.amount true :=
    if_pos happroved
  refine ⟨?_, hrow⟩
  rw [hrecord, hphase, hbefore, hafter]
  exact .dispute

theorem mayRelease_of_assert {who receiver : AccountName} (hkey : key.1 = t.sender)
    (hkeeps : e.Keeps t) (h : s.assertReleaseAllowed e key.1 who receiver = .ok ()) :
    MayRelease t e.disputed s.dgp.time who receiver := by
  unfold Database.assertReleaseAllowed at h
  rw [hkey, hkeeps.agent, hkeeps.toAccount, hkeeps.expiration] at h
  unfold MayRelease
  split_ifs at h ⊢ with hdisputed hearly hsender
  · exact fcAssert_eq_ok.1 h
  · simp only [bind_eq_ok, fcAssert_eq_ok] at h
    obtain ⟨_, hwho, hreceiver⟩ := h
    exact ⟨hwho, fun _ ↦ .inl ⟨hsender, hreceiver⟩⟩
  · simp only [bind_eq_ok, fcAssert_eq_ok] at h
    obtain ⟨_, hwho, hreceiver⟩ := h
    exact ⟨hwho, fun _ ↦ .inr ⟨hwho.resolve_left hsender, hreceiver⟩⟩
  · simp only [bind_eq_ok, fcAssert_eq_ok] at h
    obtain ⟨_, hwho, _⟩ := h
    exact ⟨hwho, fun h ↦ absurd h hearly⟩

theorem release_refines {toAccount agent who receiver : AccountName} {amount : Asset}
    (hkey : key.1 = t.sender) (he : s.escrows.find? key = some e) (hkeeps : e.Keeps t)
    (h : s.escrowReleaseEvaluator g key.1 toAccount agent who receiver key.2 amount = .ok s') :
    Step t e.phase (escrowRecord (.release who receiver amount.amount) s s') (s'.escrowPhase key) ∧
      ∀ e', s'.escrows.find? key = some e' → e'.Keeps t := by
  simp only [Database.escrowReleaseEvaluator, Database.getEscrow, bind_eq_ok, orUnknownKey_eq_ok,
    fcAssert_eq_ok, Asset.sub, safeSub, checked_eq_ok, pure_eq_ok] at h
  obtain ⟨_, _, _, _, e₁, he₁, _, _, _, hle, _, _, _, _, _, hreceiver, _, happroved, _,
    hallowed, s₁,
    hbalance, _, ⟨_, _, _, ⟨_, rfl⟩, rfl⟩, h⟩ := h
  obtain rfl : e₁ = e := Option.some.inj (he₁.symm.trans he)
  have he₂ : s₁.escrows.find? key = some e₁ := by
    rw [Database.adjustBalance_escrows hbalance, he]
  have hmay := mayRelease_of_assert hkey hkeeps hallowed
  have hphase : e₁.phase = .running e₁.sophiatxBalance.amount e₁.disputed := by
    rw [Escrow.phase, happroved, if_pos rfl]
  rw [hkey, hkeeps.toAccount] at hreceiver
  have hcredit := Database.adjustBalance_balanceOf hbalance
  rw [hphase]
  split_ifs at h with hempty
  · rw [pure_eq_ok] at h
    have hall : amount.amount = e₁.sophiatxBalance.amount := (sub_eq_zero.1 hempty).symm
    have hescrows : s'.escrows = s₁.escrows.erase key := by rw [← h]
    have hcredit' : s'.balanceOf = s.balanceOf + Pi.single receiver amount.amount := by
      rw [← hcredit, ← h]
      rfl
    obtain ⟨hclosed, hrow⟩ := escrowPhase_erase hescrows
    refine ⟨?_, hrow⟩
    rw [escrowRecord_eq hcredit', hclosed, hall]
    exact .finish hreceiver hmay
  · rw [pure_eq_ok] at h
    have hkeeps' : Escrow.Keeps t { e₁ with
        sophiatxBalance :=
          ⟨e₁.sophiatxBalance.amount - amount.amount, e₁.sophiatxBalance.symbol⟩ } :=
      ⟨hkeeps.toAccount, hkeeps.agent, hkeeps.expiration, fun h ↦ (by cases happroved.symm.trans h)⟩
    obtain ⟨hphase', hrow⟩ := escrowPhase_modify he₂ hkeeps'
    have hafter : Escrow.phase { e₁ with sophiatxBalance :=
        ⟨e₁.sophiatxBalance.amount - amount.amount, e₁.sophiatxBalance.symbol⟩ } =
          .running (e₁.sophiatxBalance.amount - amount.amount) e₁.disputed := if_pos happroved
    have hcredit' : s'.balanceOf = s.balanceOf + Pi.single receiver amount.amount := by
      rw [← hcredit, ← h, Database.balanceOf_modifyEscrow]
    rw [escrowRecord_eq hcredit', ← h]
    refine ⟨?_, hrow⟩
    rw [hphase', hafter]
    exact .release (lt_of_le_of_ne hle fun h ↦ hempty (sub_eq_zero.2 h.symm)) hreceiver hmay

theorem expire_refines (hkey : key.1 = t.sender) (he : s.escrows.find? key = some e)
    (hkeeps : e.Keeps t) {e' : Escrow} (hentry : (key, e') ∈ s.unratifiedEscrows)
    (h : s.refundEscrow g key e' = .ok s') :
    Step t e.phase (escrowRecord .expire s s') (s'.escrowPhase key) ∧
      ∀ e', s'.escrows.find? key = some e' → e'.Keeps t := by
  obtain ⟨he', hoffered, _⟩ := Database.mem_unratifiedEscrows.1 hentry
  obtain rfl : e' = e := Option.some.inj (he'.symm.trans he)
  obtain ⟨hrecord, hclosed, hrow⟩ := refund_refines hkey hkeeps hoffered h
  rw [hrecord, hclosed, Escrow.phase, hoffered, if_neg Bool.false_ne_true]
  exact ⟨.expire, hrow⟩

theorem EscrowStep.exists_row {event : Event AccountName}
    (hstep : EscrowStep env g key event s s') :
    ∃ e, s.escrows.find? key = some e := by
  cases hstep with
  | approve _ h =>
    simp only [Database.escrowApproveEvaluator, Database.getEscrow, bind_eq_ok,
      orUnknownKey_eq_ok] at h
    obtain ⟨_, _, e, he, _⟩ := h
    exact ⟨e, he⟩
  | dispute _ h =>
    simp only [Database.escrowDisputeEvaluator, Database.getEscrow, bind_eq_ok,
      orUnknownKey_eq_ok] at h
    obtain ⟨_, _, _, _, e, he, _⟩ := h
    exact ⟨e, he⟩
  | release _ h =>
    simp only [Database.escrowReleaseEvaluator, Database.getEscrow, bind_eq_ok,
      orUnknownKey_eq_ok] at h
    obtain ⟨_, _, _, _, e, he, _⟩ := h
    exact ⟨e, he⟩
  | expire hentry _ =>
    exact ⟨_, (Database.mem_unratifiedEscrows.1 hentry).1⟩

/-- Every step of an escrow is a step of the contract. -/
theorem EscrowStep.refines {event : Event AccountName} (hkey : key.1 = t.sender)
    (hstep : EscrowStep env g key event s s') (he : s.escrows.find? key = some e)
    (hkeeps : e.Keeps t) :
    Step t e.phase (escrowRecord event s s') (s'.escrowPhase key) ∧
      ∀ e', s'.escrows.find? key = some e' → e'.Keeps t := by
  cases hstep with
  | approve hvalid h => exact approve_refines hkey he hkeeps hvalid h
  | dispute _ h => exact dispute_refines he hkeeps h
  | release _ h => exact release_refines hkey he hkeeps h
  | expire hentry h => exact expire_refines hkey he hkeeps hentry h

/-- A run of an escrow is a run of the contract. -/
theorem EscrowRun.refines {records : List (Record AccountName)} (hkey : key.1 = t.sender)
    (hrun : EscrowRun env g key s records s')
    (hkeeps : ∀ e, s.escrows.find? key = some e → e.Keeps t) :
    Run (Step t) (s.escrowPhase key) records (s'.escrowPhase key) := by
  induction hrun with
  | nil s => exact .nil _
  | elsewhere hrow _ ih =>
    rw [hrow] at ih
    have hrest := ih hkeeps
    rwa [Database.escrowPhase, hrow] at hrest
  | @step s s₁ s₂ event records hstep _ ih =>
    obtain ⟨e, he⟩ := hstep.exists_row
    obtain ⟨hfirst, hkeeps'⟩ := hstep.refines hkey he (hkeeps e he)
    have hphase : s.escrowPhase key = e.phase := by
      rw [Database.escrowPhase, he]
      rfl
    rw [hphase]
    exact .cons hfirst (ih hkeeps')

theorem refunds_run {entries : List ((AccountName × ℕ) × Escrow)}
    (hnodup : (entries.map Prod.fst).Nodup)
    (hentries : ∀ entry ∈ entries, entry ∈ s.unratifiedEscrows)
    (h : entries.foldlM (fun s entry ↦ s.refundEscrow g entry.1 entry.2) s = .ok s') :
    ∃ records, EscrowRun env g key s records s' := by
  induction entries generalizing s with
  | nil =>
    rw [List.foldlM_nil, pure_eq_ok] at h
    exact ⟨[], h ▸ .nil s⟩
  | cons entry rest ih =>
    rw [List.foldlM_cons, bind_eq_ok] at h
    obtain ⟨s₁, hrefund, h⟩ := h
    rw [List.map_cons, List.nodup_cons] at hnodup
    obtain ⟨_, hescrows, hdgp⟩ := Database.refundEscrow_eq_ok hrefund
    have hrest : ∀ other ∈ rest, other ∈ s₁.unratifiedEscrows := by
      intro other hother
      have hne : other.1 ≠ entry.1 := fun h ↦ hnodup.1 (h ▸ List.mem_map_of_mem hother)
      obtain ⟨hrow, hunratified⟩ :=
        Database.mem_unratifiedEscrows.1 (hentries other (List.mem_cons_of_mem _ hother))
      refine Database.mem_unratifiedEscrows.2 ⟨?_, hdgp ▸ hunratified⟩
      rw [hescrows, Table.find?_erase, if_neg hne, hrow]
    obtain ⟨records, hrun⟩ := ih hnodup.2 hrest h
    by_cases hentry : entry.1 = key
    · refine ⟨escrowRecord .expire s s₁ :: records, .step (.expire (e := entry.2) ?_ ?_) hrun⟩
      · rw [← hentry]
        exact hentries entry List.mem_cons_self
      · rw [← hentry]
        exact hrefund
    · refine ⟨records, .elsewhere ?_ hrun⟩
      rw [hescrows, Table.find?_erase, if_neg fun h ↦ hentry h.symm]

/-- The rounds of `expire_escrow_ratification` are steps of the escrows they refund. -/
theorem expireEscrowRatification_run (h : s.expireEscrowRatification g = .ok s') :
    ∃ records, EscrowRun env g key s records s' := by
  exact refunds_run s.nodup_unratifiedEscrows (fun _ hentry ↦ hentry) h

end Refinement

/-! ## Escrows of a chain -/

section OfChain

variable {ctx : Context} {g : GenesisState} {key : AccountName × ℕ} {stage : Stage}
  {s s₁ s₂ s' : Database}

theorem EscrowRun.trans {env : Env} {records records' : List (Record AccountName)}
    (h : EscrowRun env g key s records s₁) (h' : EscrowRun env g key s₁ records' s₂) :
    EscrowRun env g key s (records ++ records') s₂ := by
  induction h with
  | nil _ => exact h'
  | elsewhere hrow _ ih => exact .elsewhere hrow (ih h')
  | step hstep _ ih => exact .step hstep (ih h')

/-- The escrow an operation creates. -/
def Operation.openedEscrow : Operation → Option (AccountName × ℕ)
  | .escrowTransfer fromAccount _ _ escrowId _ _ _ _ _ => some (fromAccount, escrowId)
  | _ => none

def Stage.OpensEscrow (stage : Stage) (key : AccountName × ℕ) : Prop :=
  ∃ trx op, stage = .operation trx op ∧ Operation.openedEscrow op.op = some key

/-- A move of a stage that neither handles an escrow nor expires ratifications leaves its row. -/
theorem Move.Direct.escrow_eq {m : Move} (h : m.Direct s s') (hm : stage.Allows m)
    (hhandles : ¬ stage.HandlesEscrow key) (hexpire : stage ≠ .expireEscrowRatification) :
    s'.escrows.find? key = s.escrows.find? key := by
  have hne : ∀ key', stage.HandlesEscrow key' → key ≠ key' := by
    intro key' hkey' heq
    exact hhandles (heq ▸ hkey')
  cases m with
  | createEscrow key' e =>
    obtain ⟨escrows, _, _, hescrows, rfl⟩ := h
    exact (Table.find?_emplace? hescrows key).trans (if_neg (hne key' hm))
  | changeEscrow key' e e' =>
    obtain ⟨_, _, _, rfl⟩ := h
    exact Table.find?_modify_of_ne s.escrows _ (hne key' hm)
  | removeEscrow key' e =>
    obtain ⟨_, rfl⟩ := h
    exact (Table.find?_erase s.escrows key' key).trans
      (if_neg (hne key' (hm.resolve_right hexpire)))
  | _ => rw [h.escrows_eq rfl]

theorem Explained.escrow_eq {effect : ShareType × ShareType × ShareType}
    (h : Explained g stage effect s s') (hs : Sound s) (hhandles : ¬ stage.HandlesEscrow key)
    (hexpire : stage ≠ .expireEscrowRatification) :
    s'.escrows.find? key = s.escrows.find? key := by
  obtain ⟨ms, hms, hallowed, _⟩ := h
  have hboth := hms.invariant
    (I := fun t ↦ Sound t ∧ t.escrows.find? key = s.escrows.find? key) ?_ ⟨hs, rfl⟩
  · exact hboth.2
  · intro t m t' hm hstep hbefore
    obtain ⟨u, hdirect, hmoney⟩ := Move.Step.direct hstep hbefore.1.accumulated
    refine ⟨Move.Step.sound hstep hbefore.1, ?_⟩
    calc t'.escrows.find? key = u.escrows.find? key := by rw [hmoney.escrows]
      _ = t.escrows.find? key := hdirect.escrow_eq (hallowed m hm) hhandles hexpire
      _ = s.escrows.find? key := hbefore.2

/-- An operation on an escrow that does not create it is a step of it. -/
theorem EscrowStep.of_evaluate {op : Operation} {fee : Asset}
    (hkey : Operation.escrowKey op = some key) (hopens : Operation.openedEscrow op ≠ some key)
    (hvalid : op.validate ctx.env ctx.genesis = .ok ()) (h : s.evaluate ctx fee op = .ok s') :
    ∃ event, EscrowStep ctx.env ctx.genesis key event s s' := by
  cases op with
  | escrowTransfer _ _ _ _ _ _ _ _ _ => exact absurd hkey hopens
  | escrowApprove _ _ _ _ _ _ =>
    cases hkey
    exact ⟨_, .approve hvalid h⟩
  | escrowDispute _ _ _ _ _ =>
    cases hkey
    exact ⟨_, .dispute hvalid h⟩
  | escrowRelease _ _ _ _ _ _ _ =>
    cases hkey
    exact ⟨_, .release hvalid h⟩
  | _ => cases hkey

/-- What a stage does is a run of every escrow it does not create. -/
theorem Stage.escrowRun (hs : Sound s) (hvalid : stage.Valid ctx)
    (hopens : ¬ stage.OpensEscrow key) (h : stage.run ctx s = .ok s') :
    ∃ records, EscrowRun ctx.env ctx.genesis key s records s' := by
  by_cases hexpire : stage = .expireEscrowRatification
  · subst hexpire
    exact expireEscrowRatification_run h
  by_cases hhandles : stage.HandlesEscrow key
  · obtain ⟨trx, op, rfl, hkey⟩ := hhandles
    simp only [Stage.run, Database.applyOperation, bind_eq_ok] at h
    obtain ⟨s₁, hfee, h⟩ := h
    -- The fee is none of the escrow's business: any other stage might have charged it.
    have hpaid : Explained ctx.genesis .clearExpiredTransactions 0 s s₁ :=
      Database.processOperationFee_explained hfee
    have hrow : s₁.escrows.find? key = s.escrows.find? key :=
      hpaid.escrow_eq hs (by simp [Stage.HandlesEscrow]) (by simp)
    obtain ⟨event, hstep⟩ := EscrowStep.of_evaluate hkey
      (fun hopened ↦ hopens ⟨trx, op, rfl, hopened⟩) hvalid h
    exact ⟨_, .elsewhere hrow (.step hstep (.nil s'))⟩
  · exact ⟨[], .elsewhere ((Stage.explained hs hvalid h).escrow_eq hs hhandles hexpire) (.nil s')⟩

/-- What a chain has done since it created an escrow is a run of it, as long as no other one is
created in its place. -/
theorem Chronicle.escrowRun {C : Database → Stage → Prop} {s₀ : Database}
    {pending : Option (List Stage)} {recent past : List Moment} (hskip : ctx.skip.validate = false)
    (hs₀ : Sound s₀) (h : Chronicle ctx C s₀ (recent ++ (s₁, stage) :: past) pending s)
    (hcreate : stage.run ctx s₁ = .ok s₂)
    (hrecent : ∀ moment ∈ recent, ¬ moment.2.OpensEscrow key) :
    ∃ records, EscrowRun ctx.env ctx.genesis key s₂ records s := by
  generalize hall : recent ++ (s₁, stage) :: past = moments at h
  induction h generalizing recent with
  | refl => simp at hall
  | start _ _ ih => exact ih hrecent hall
  | finish _ _ ih => exact ih hrecent hall
  | @stage moments t t' later rest hbefore _ hrun ih =>
    cases recent with
    | nil =>
      cases hall
      cases hcreate.symm.trans hrun
      exact ⟨[], .nil _⟩
    | cons moment recent =>
      cases hall
      obtain ⟨records, hrecords⟩ := ih (fun moment hmem ↦
        hrecent moment (List.mem_cons_of_mem _ hmem)) rfl
      have hsound := hbefore.runsFrom.sound hskip hs₀
      have hvalid := (hbefore.runsFrom.guarded hskip).head
      obtain ⟨records', hlater⟩ :=
        Stage.escrowRun hsound hvalid (hrecent (t, later) List.mem_cons_self) hrun
      exact ⟨records ++ records', hrecords.trans hlater⟩

end OfChain

section Lifecycle

variable {env : Env} {g : GenesisState} {fromAccount toAccount agent : AccountName} {escrowId : ℕ}
  {sophiatxAmount escrowFee : Asset} {ratificationDeadline escrowExpiration : Time}
  {jsonMeta : Bytes}

/-- The terms of an `escrow_transfer` that passes its checks. -/
def escrowTerms (hvalid : (Operation.escrowTransfer fromAccount toAccount agent escrowId
    sophiatxAmount escrowFee ratificationDeadline escrowExpiration jsonMeta).validate env
      g = .ok ()) :
    Terms AccountName where
  sender := fromAccount
  receiver := toAccount
  agent := agent
  amount := sophiatxAmount.amount
  fee := escrowFee.amount
  expiration := escrowExpiration
  agent_ne_sender := by
    simp only [Operation.validate, bind_eq_ok, fcAssert_eq_ok] at hvalid
    obtain ⟨_, _, _, _, _, _, _, _, _, _, _, ⟨hsender, _⟩, _⟩ := hvalid
    exact hsender.symm
  agent_ne_receiver := by
    simp only [Operation.validate, bind_eq_ok, fcAssert_eq_ok] at hvalid
    obtain ⟨_, _, _, _, _, _, _, _, _, _, _, ⟨_, hreceiver⟩, _⟩ := hvalid
    exact hreceiver.symm

theorem escrowTransfer_offers {s₀ s : Database}
    (hvalid : (Operation.escrowTransfer fromAccount toAccount agent escrowId sophiatxAmount
      escrowFee ratificationDeadline escrowExpiration jsonMeta).validate env g = .ok ())
    (hcreate : s₀.escrowTransferEvaluator g fromAccount toAccount agent escrowId sophiatxAmount
      escrowFee ratificationDeadline escrowExpiration = .ok s) :
    ∃ e, s.escrows.find? (fromAccount, escrowId) = some e ∧ e.phase = .offered false false ∧
      e.Keeps (escrowTerms hvalid) := by
  simp only [Database.escrowTransferEvaluator, bind_eq_ok, createRow_eq_ok, pure_eq_ok] at hcreate
  obtain ⟨_, _, _, _, _, _, _, _, _, _, _, _, _, _, _, _, _, _, _, _, _, _, escrows,
    hescrows, rfl⟩ :=
    hcreate
  have hrow := Table.find?_emplace? hescrows (fromAccount, escrowId)
  rw [if_pos rfl] at hrow
  exact ⟨_, hrow, rfl, rfl, rfl, rfl, fun _ ↦ ⟨rfl, rfl, rfl⟩⟩

/-- Every run of an escrow from its creation: the agent is paid once, when receiver and agent have
approved; releases keep to the rules; and once the escrow is gone its parties have been credited
what was left with it, the sender all of it if the escrow was never ratified. -/
theorem escrow_state_machine {s₀ s s' : Database} {records : List (Record AccountName)}
    (hvalid : (Operation.escrowTransfer fromAccount toAccount agent escrowId sophiatxAmount
      escrowFee ratificationDeadline escrowExpiration jsonMeta).validate env g = .ok ())
    (hcreate : s₀.escrowTransferEvaluator g fromAccount toAccount agent escrowId sophiatxAmount
      escrowFee ratificationDeadline escrowExpiration = .ok s)
    (hrun : EscrowRun env g (fromAccount, escrowId) s records s') :
    (∀ before r after, records = before ++ r :: after → Proper (escrowTerms hvalid) before r) ∧
      (Ratified (escrowTerms hvalid) records → paid records agent = escrowFee.amount) ∧
      (s'.escrows.find? (fromAccount, escrowId) = none →
        Credits (escrowTerms hvalid) (paid records) (sophiatxAmount.amount + escrowFee.amount) ∧
        (¬ Ratified (escrowTerms hvalid) records →
          paid records = Pi.single fromAccount (sophiatxAmount.amount + escrowFee.amount))) := by
  obtain ⟨e, he, hphase, hkeeps⟩ := escrowTransfer_offers hvalid hcreate
  have hstart : s.escrowPhase (fromAccount, escrowId) = .offered false false := by
    rw [Database.escrowPhase, he]
    exact hphase
  have hcontract := hrun.refines (t := escrowTerms hvalid) rfl fun e' he' ↦
    Option.some.inj (he.symm.trans he') ▸ hkeeps
  rw [hstart] at hcontract
  obtain ⟨haccounted, hproper⟩ := run_spec [] hcontract accounted_nil
  simp only [List.nil_append] at haccounted hproper
  refine ⟨hproper, fun hratified ↦ ?_, fun hgone ↦ ?_⟩
  · generalize s'.escrowPhase (fromAccount, escrowId) = phase at haccounted
    cases phase with
    | offered a b =>
      obtain ⟨hreceiver, hagent, hopen, _⟩ := haccounted
      rw [hreceiver.2 hratified.1, hagent.2 hratified.2] at hopen
      cases hopen
    | running rest disputed => exact haccounted.2.2.1
    | closed => exact haccounted.1 hratified
  · rw [Database.escrowPhase, hgone] at haccounted
    exact ⟨haccounted.2.2, haccounted.2.1⟩

/-- An escrow of the development network, with its checks. -/
def devEscrow : Operation :=
  .escrowTransfer 1000 initMinerName nullAccount 4 ⟨20, sophiatxSymbol⟩ ⟨5, sophiatxSymbol⟩
    1531512900 1531513000 []

theorem escrow_state_machine_released :
    ∃ s₀ s s' records, ∃ hvalid : devEscrow.validate devEnv devGenesis = .ok (),
      initGenesis devGenesis = .ok s₀ ∧
      EscrowRun devEnv devGenesis (1000, 4) s records s' ∧
      s'.escrows.find? (1000, 4) = none ∧ paid records nullAccount = 5 ∧
      Credits (escrowTerms hvalid) (paid records) 25 := by
  have hok : okAnd (initGenesis devGenesis) (fun s₀ ↦
      okAnd (s₀.escrowTransferEvaluator devGenesis 1000 initMinerName nullAccount 4
        ⟨20, sophiatxSymbol⟩ ⟨5, sophiatxSymbol⟩ 1531512900 1531513000) fun s ↦
      okAnd (s.escrowApproveEvaluator devGenesis 1000 initMinerName nullAccount initMinerName 4
        true) fun s₁ ↦
      okAnd (s₁.escrowApproveEvaluator devGenesis 1000 initMinerName nullAccount nullAccount 4
        true) fun s₂ ↦
      okAnd (s₂.escrowReleaseEvaluator devGenesis 1000 initMinerName nullAccount 1000
        initMinerName 4 ⟨20, sophiatxSymbol⟩) fun s' ↦
          (s'.escrows.find? (1000, 4)).isNone) = true := by
    decide +kernel
  have hvalid : devEscrow.validate devEnv devGenesis = .ok () := by decide +kernel
  obtain ⟨s₀, hgenesis, hok⟩ := exists_of_okAnd hok
  obtain ⟨s, hcreate, hok⟩ := exists_of_okAnd hok
  obtain ⟨s₁, hfirst, hok⟩ := exists_of_okAnd hok
  obtain ⟨s₂, hsecond, hok⟩ := exists_of_okAnd hok
  obtain ⟨s', hrelease, hgone⟩ := exists_of_okAnd hok
  rw [Option.isNone_iff_eq_none] at hgone
  have hrun : EscrowRun devEnv devGenesis (1000, 4) s _ s' :=
    .step (.approve (by decide +kernel) hfirst) (.step (.approve (by decide +kernel) hsecond)
      (.step (.release (by decide +kernel) hrelease) (.nil s')))
  obtain ⟨_, hfee, hall⟩ := escrow_state_machine hvalid hcreate hrun
  refine ⟨s₀, s, s', _, hvalid, hgenesis, hrun, hgone, hfee ⟨?_, ?_⟩, (hall hgone).1⟩
  · exact ⟨_, List.mem_cons_self, rfl⟩
  · exact ⟨_, List.mem_cons_of_mem _ List.mem_cons_self, rfl⟩

end Lifecycle

end SophiaTX.Chain
