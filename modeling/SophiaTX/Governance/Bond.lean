import SophiaTX.Chain.Chronicle
import SophiaTX.Chain.Council
import SophiaTX.Vesting.Requests

/-!
# The bond of a witness

A witness with a signing key must hold a bond in vesting shares. The bond is checked when the
witness registers and when it asks for a withdrawal, and the payouts of a request run on their own
for weeks afterwards. A request that was accepted leaves the bond alone to its end, but an account
may register while a request is still being paid out, and a new key is set without any check.
-/

namespace SophiaTX.Chain

open SophiaTX.Protocol SophiaTX.Lib

/-! ## Requests -/

namespace AccountHoldings

/-- The part of the request still to be paid out. -/
def pendingWithdrawal (a : AccountHoldings) : ShareType :=
  if a.nextVestingWithdrawal = maximumTime then 0 else a.toWithdraw - a.withdrawn

/-- The account holds a bond, now and after its request is paid out. -/
def Covers (a : AccountHoldings) (bond : ShareType) : Prop :=
  bond ≤ a.vestingShares ∧ bond ≤ a.vestingShares - a.pendingWithdrawal

instance (a : AccountHoldings) (bond : ShareType) : Decidable (a.Covers bond) :=
  inferInstanceAs (Decidable (_ ∧ _))

theorem Covers.mono {a a' : AccountHoldings} {bond : ShareType} (h : a.Covers bond)
    (hsame : a'.request = a.request) (hshares : a.vestingShares ≤ a'.vestingShares) :
    a'.Covers bond := by
  have hpending : a'.pendingWithdrawal = a.pendingWithdrawal := by
    simp only [request, Prod.mk.injEq] at hsame
    simp only [pendingWithdrawal, hsame]
  refine ⟨h.1.trans hshares, ?_⟩
  rw [hpending]
  exact h.2.trans (Int.sub_le_sub_right hshares _)

/-- Shares that cover a bond whatever is still to be paid. -/
theorem covers_of_le {a : AccountHoldings} {bond : ShareType} (hshares : bond ≤ a.vestingShares)
    (hrest : bond ≤ a.vestingShares - (a.toWithdraw - a.withdrawn)) : a.Covers bond := by
  refine ⟨hshares, ?_⟩
  unfold pendingWithdrawal
  split
  · rwa [sub_zero]
  · exact hrest

end AccountHoldings

/-! ## Payouts -/

namespace Database

variable {ctx : Context} {g : GenesisState} {s s' : Database}

theorem payout_keeps {a a' : Account} {toWithdraw : ShareType} (ha : a.Scheduled)
    (hdue : a.nextVestingWithdrawal ≠ maximumTime) (hamount : withdrawalAmount a = .ok toWithdraw)
    (h : withdrawFromAccount a toWithdraw = .ok a') :
    a'.Scheduled ∧ ∀ bond, a.Covers bond → a'.Covers bond := by
  have hrate : a.vestingWithdrawRate ≠ 0 := fun hzero ↦ hdue (ha.idle hzero)
  obtain ⟨hmost, hgoing⟩ := withdrawalAmount_of_scheduled ha hrate hamount
  obtain ⟨hshares, hsum, hpaid, hstate⟩ := withdrawFromAccount_eq_ok h
  have hholds : ∀ bond, a.Covers bond → bond ≤ a'.vestingShares := by
    intro bond hbond
    obtain ⟨hnow, hlater⟩ := hbond
    rw [AccountHoldings.pendingWithdrawal, if_neg hdue] at hlater
    rw [hshares]
    rcases max_choice 0 (a.toWithdraw - a.withdrawn) with hmax | hmax
    · rw [hmax] at hmost
      exact hnow.trans (le_sub_self_iff _ |>.2 hmost)
    · rw [hmax] at hmost
      exact hlater.trans (sub_le_sub_left hmost _)
  rcases hstate with ⟨hzero, hnever, _⟩ | ⟨hsame, _, hmore, hleft⟩
  · refine ⟨AccountHoldings.scheduled_of_idle hzero hnever, fun bond hbond ↦ ?_⟩
    refine ⟨hholds bond hbond, ?_⟩
    rw [AccountHoldings.pendingWithdrawal, if_pos hnever, sub_zero]
    exact hholds bond hbond
  · rw [hpaid] at hmore
    rw [hshares] at hleft
    obtain ⟨rfl, hpos, hnonneg, hdvd⟩ := hgoing hmore hleft
    refine ⟨⟨fun hzero ↦ absurd (hsame.symm.trans hzero) hrate, fun _ ↦ .inl ?_⟩, ?_⟩
    · rw [hsame, hpaid, hsum]
      exact ⟨hpos, add_nonneg hnonneg hpos.le, Int.dvd_add hdvd (Int.dvd_refl _), hmore⟩
    · intro bond hbond
      refine AccountHoldings.covers_of_le (hholds bond hbond) ?_
      have hlater := hbond.2
      rw [AccountHoldings.pendingWithdrawal, if_neg hdue] at hlater
      rw [hshares, hsum, hpaid]
      calc bond ≤ a.vestingShares - (a.toWithdraw - a.withdrawn) := hlater
        _ = a.vestingShares - a.vestingWithdrawRate -
            (a.toWithdraw - (a.withdrawn + a.vestingWithdrawRate)) := by abel

/-! ## Making a request -/

/-- A request replaces the former one. A witness with a key keeps what is required of it. -/
theorem withdrawVestingEvaluator_request {account : AccountName} {vestingShares : Asset}
    (h : s.withdrawVestingEvaluator account vestingShares = .ok s') :
    ∃ a f, s.accounts.find? account = some a ∧ s' = s.modifyAccount account f ∧
      (f a).Scheduled ∧ ∀ bond, a.Covers bond → bond ≤ s.dgp.witnessRequiredVesting →
        (∃ w, s.witnesses.find? account = some w ∧ w.signingKey ≠ nullKey) → (f a).Covers bond := by
  simp only [withdrawVestingEvaluator, getAccount, bind_eq_ok, orUnknownKey_eq_ok,
    fcAssert_eq_ok] at h
  obtain ⟨_, _, a, ha, _, _, _, hsymbol, _, hamount, h⟩ := h
  split at h
  · simp only [bind_eq_ok, fcAssert_eq_ok, pure_eq_ok] at h
    obtain ⟨_, _, rfl⟩ := h
    refine ⟨a, _, ha, rfl, AccountHoldings.scheduled_of_idle rfl rfl, ?_⟩
    intro bond hbond _ _
    refine AccountHoldings.covers_of_le hbond.1 ?_
    rw [sub_self, sub_zero]
    exact hbond.1
  · rename_i hne
    simp only [bind_eq_ok, fcAssert_eq_ok, pure_eq_ok] at h
    obtain ⟨rate, hrate, _, _, _, hbonded, rfl⟩ := h
    refine ⟨a, _, ha, rfl, ⟨fun hzero ↦ ?_, fun _ ↦ ?_⟩, ?_⟩
    · exact absurd hzero (vestingWithdrawRate_eq_ok hne hrate).1
    · rcases (vestingWithdrawRate_eq_ok hne hrate).2 with ⟨hpos, hrate⟩ | ⟨hneg, hlow⟩
      · exact .inl ⟨hrate, le_rfl, Int.dvd_zero _, hpos⟩
      · exact .inr ⟨hneg, rfl, hlow⟩
    · rintro bond hbond hrequired ⟨w, hw, hkey⟩
      refine AccountHoldings.covers_of_le hbond.1 ?_
      simp only [assertWitnessBond, hw, if_neg hkey, safeSub, bind_eq_ok, checked_eq_ok,
        fcAssert_eq_ok] at hbonded
      obtain ⟨_, ⟨_, rfl⟩, hrest⟩ := hbonded
      rw [sub_zero]
      exact hrequired.trans hrest

end Database

/-! ## Steps that leave requests and bonds alone -/

/-- Requests stay as they are, and no vesting shares are taken from the accounts in `P`. -/
structure Steady (P : AccountName → Prop) (s s' : Database) : Prop where
  origin : ∀ name a', s'.accounts.find? name = some a' →
    (∃ a, s.accounts.find? name = some a ∧ a'.request = a.request ∧
      (P name → a.vestingShares ≤ a'.vestingShares)) ∨
    (s.accounts.find? name = none ∧ a'.Scheduled)
  kept : ∀ name, s'.accounts.find? name = none → s.accounts.find? name = none

namespace Steady

variable {P : AccountName → Prop} {s s₁ s' : Database}

/-- Every account of the first state is there in the second. -/
theorem exists_right (h : Steady P s s') {name : AccountName} {a : Account}
    (ha : s.accounts.find? name = some a) : ∃ a', s'.accounts.find? name = some a' ∧
      a'.request = a.request ∧ (P name → a.vestingShares ≤ a'.vestingShares) := by
  cases ha' : s'.accounts.find? name with
  | none => exact absurd (ha.symm.trans (h.kept name ha')) (by simp)
  | some a' =>
    rcases h.origin name a' ha' with ⟨b, hb, hsame⟩ | ⟨hnone, _⟩
    · cases ha.symm.trans hb
      exact ⟨a', rfl, hsame⟩
    · exact absurd (ha.symm.trans hnone) (by simp)

theorem scheduled (h : Steady P s s') (hs : s.accounts.Forall fun _ a ↦ a.Scheduled) :
    s'.accounts.Forall fun _ a ↦ a.Scheduled := by
  intro name a' ha'
  rcases h.origin name a' ha' with ⟨a, ha, hrequest, _⟩ | ⟨_, hscheduled⟩
  · exact (hs name a ha).congr hrequest
  · exact hscheduled

end Steady

theorem Tended.steady {P : AccountName → Prop} {s s' : Database} (h : Tended P s s') :
    Steady P s s' where
  origin name a' ha' := by
    rcases h.origin name a' ha' with ⟨a, ha, hrequest, hshares⟩ | ⟨hnone, hnew, _⟩
    · exact .inl ⟨a, ha, hrequest, fun hP ↦ hshares.resolve_right fun htaken ↦ htaken.1 hP⟩
    · exact .inr ⟨hnone, hnew.scheduled⟩
  kept := h.kept

/-! ## Keys -/

/-- The witness whose key a stage sets, and the key. -/
def Stage.newKey : Stage → Option (AccountName × PublicKey)
  | .operation _ op =>
    match op.op with
    | .witnessUpdate owner _ key _ => some (owner, key)
    | .witnessSetProperties owner props => props.newSigningKey.map fun key ↦ (owner, key)
    | _ => none
  | _ => none

/-- The bond that was required when the key of a witness was last set. -/
def bondInForce (name : AccountName) : List Moment → Option ShareType
  | [] => none
  | moment :: older =>
    if moment.2.newKey.map Prod.fst = some name then some moment.1.dgp.witnessRequiredVesting
    else bondInForce name older

theorem bondInForce_of_none {moment : Moment} (h : moment.2.newKey = none) (older : List Moment) :
    (fun name ↦ bondInForce name (moment :: older)) = fun name ↦ bondInForce name older := by
  funext name
  rw [bondInForce, h, Option.map_none, if_neg (by simp)]

/-- An account holds what is required of a witness, whatever it has asked to withdraw. -/
def Database.HoldsBond (s : Database) (name : AccountName) : Prop :=
  ∃ a, s.accounts.find? name = some a ∧ a.Covers s.dgp.witnessRequiredVesting

instance (s : Database) (name : AccountName) : Decidable (s.HoldsBond name) :=
  decidable_of_iff ((s.accounts.find? name).any
    fun a ↦ decide (a.Covers s.dgp.witnessRequiredVesting)) (by
      simp [Database.HoldsBond, Option.any_eq_true])

/-- Stages that keep clear of the slips. A key is set only for a witness that holds the bond, the
required vesting does not fall, the null account is no witness when its shares are burnt, and the
clock has not reached the time that stands for no payout. -/
def BondSafe (ctx : Context) (s : Database) (stage : Stage) : Prop :=
  match stage with
  | .operation _ _ => ∀ entry ∈ stage.newKey, entry.2 ≠ nullKey → entry.1 ≠ initMinerName →
    s.HoldsBond entry.1
  | .updateGlobalDynamicData b =>
    s.dgp.witnessRequiredVesting ≤ s.witnessRequiredVestingAt ctx.genesis b.blockNum
  | .clearNullAccountBalance =>
    ∀ w ∈ s.witnesses.find? nullAccount, w.signingKey = nullKey
  | .processVestingWithdrawals => s.dgp.time < maximumTime
  | _ => True

instance (ctx : Context) (s : Database) : (stage : Stage) → Decidable (BondSafe ctx s stage)
  | .operation _ _ => inferInstanceAs (Decidable (∀ _ ∈ _, _ → _ → _))
  | .updateGlobalDynamicData _ => inferInstanceAs (Decidable (_ ≤ _))
  | .clearNullAccountBalance => inferInstanceAs (Decidable (∀ _ ∈ _, _))
  | .processVestingWithdrawals => inferInstanceAs (Decidable (_ < _))
  | .openBlock _ | .openTransaction _ | .closeTransaction _ | .updateSigningWitness _
  | .updateLastIrreversibleBlock | .createBlockSummary _ | .clearExpiredTransactions
  | .updateWitnessSchedule | .processInterests | .updateMedianFeeds | .processFunds _
  | .accountRecoveryProcessing | .expireEscrowRatification | .processHardforks
  | .recordBlock _ => inferInstanceAs (Decidable True)

/-- Every witness with a key holds the bond it has to hold. -/
structure BondsHeld (bonds : AccountName → Option ShareType) (s : Database) : Prop where
  scheduled : s.accounts.Forall fun _ a ↦ a.Scheduled
  bonded : ∀ name key, s.council.keys name = some key → key ≠ nullKey → name ≠ initMinerName →
    ∃ bond a, bonds name = some bond ∧ bond ≤ s.dgp.witnessRequiredVesting ∧
      s.accounts.find? name = some a ∧ a.Covers bond

namespace BondsHeld

variable {bonds : AccountName → Option ShareType} {s s' : Database}

/-- One account changes and keeps what it must hold. -/
theorem modifyAccount {name : AccountName} {a : Account} {f : Account → Account}
    (h : BondsHeld bonds s) (ha : s.accounts.find? name = some a) (hscheduled : (f a).Scheduled)
    (hcovers : ∀ bond, a.Covers bond → bond ≤ s.dgp.witnessRequiredVesting →
      (∃ w, s.witnesses.find? name = some w ∧ w.signingKey ≠ nullKey) → (f a).Covers bond)
    (haccounts : s'.accounts = s.accounts.modify name f) (hcouncil : s'.council = s.council) :
    BondsHeld bonds s' := by
  have hrequired : s'.dgp.witnessRequiredVesting = s.dgp.witnessRequiredVesting :=
    congrArg Council.requiredVesting hcouncil
  refine ⟨fun other b hb ↦ ?_, fun other key hkey hne hminer ↦ ?_⟩
  · rw [haccounts, Table.find?_modify] at hb
    split at hb
    · rename_i hother
      rw [hother, ha, Option.map_some, Option.some.injEq] at hb
      exact hb ▸ hscheduled
    · exact h.scheduled other b hb
  · rw [hcouncil] at hkey
    obtain ⟨bond, b, hbond, hle, hb, hheld⟩ := h.bonded other key hkey hne hminer
    rw [hrequired, haccounts, Table.find?_modify]
    split
    · rename_i hother
      obtain ⟨w, hw, hsigning⟩ := Option.map_eq_some_iff.1 hkey
      rw [hother] at hb hbond hw ⊢
      cases ha.symm.trans hb
      refine ⟨bond, f a, hbond, hle, by rw [ha, Option.map_some], hcovers bond hheld hle ?_⟩
      exact ⟨w, hw, hsigning ▸ hne⟩
    · exact ⟨bond, b, hbond, hle, hb, hheld⟩

/-- A step that leaves requests and shares alone. -/
theorem steady {P : AccountName → Prop} {bonds' : AccountName → Option ShareType}
    (h : BondsHeld bonds s) (hsteady : Steady P s s')
    (hkeys : ∀ name key, s'.council.keys name = some key → key ≠ nullKey →
      name ≠ initMinerName → P name ∧
        (s.council.keys name = some key ∧ bonds' name = bonds name ∨
          s.HoldsBond name ∧ bonds' name = some s.dgp.witnessRequiredVesting))
    (hrequired : s.dgp.witnessRequiredVesting ≤ s'.dgp.witnessRequiredVesting) :
    BondsHeld bonds' s' := by
  refine ⟨hsteady.scheduled h.scheduled, fun name key hkey hne hminer ↦ ?_⟩
  obtain ⟨hP, hbond⟩ := hkeys name key hkey hne hminer
  have hholds : ∃ bond a, bonds' name = some bond ∧ bond ≤ s.dgp.witnessRequiredVesting ∧
      s.accounts.find? name = some a ∧ a.Covers bond := by
    rcases hbond with ⟨hold, hsame⟩ | ⟨⟨a, ha, hcovers⟩, hnew⟩
    · rw [hsame]
      exact h.bonded name key hold hne hminer
    · exact ⟨_, a, hnew, le_rfl, ha, hcovers⟩
  obtain ⟨bond, a, hbond, hle, ha, hcovers⟩ := hholds
  obtain ⟨a', ha', hrequest, hshares⟩ := hsteady.exists_right ha
  exact ⟨bond, a', hbond, hle.trans hrequired, ha', hcovers.mono hrequest (hshares hP)⟩

theorem payouts (h : BondsHeld bonds s) (htime : s.dgp.time < maximumTime)
    (hrun : s.processVestingWithdrawals = .ok s') : BondsHeld bonds s' := by
  refine (Database.processVestingWithdrawals_invariant
    (I := fun t ↦ BondsHeld bonds t ∧ t.dgp.time = s.dgp.time) ?_ hrun ⟨h, rfl⟩).1
  rintro s₁ name a s₂ ha hdue hpay ⟨hs₁, hnow⟩
  have hnext : a.nextVestingWithdrawal ≠ maximumTime := by
    rw [hnow] at hdue
    exact (hdue.trans_lt htime).ne
  simp only [Database.processVestingWithdrawal, bind_eq_ok, pure_eq_ok] at hpay
  obtain ⟨toWithdraw, hamount, a', hpaid, _, _, rfl⟩ := hpay
  obtain ⟨hscheduled, hcovers⟩ :=
    Database.payout_keeps (hs₁.scheduled name a ha) hnext hamount hpaid
  refine ⟨hs₁.modifyAccount (f := fun _ ↦ a') ha hscheduled ?_ rfl rfl, hnow⟩
  exact fun bond hbond _ _ ↦ hcovers bond hbond

end BondsHeld

/-! ## Stages -/

variable {ctx : Context} {s s' : Database}

theorem Council.OperationStep.requiredVesting_eq {c c' : Council} {op : Operation}
    (h : c.OperationStep op c') : c'.requiredVesting = c.requiredVesting := by
  unfold Council.OperationStep at h
  split at h
  · rw [h]
    rfl
  · rw [h]
    rfl
  · rw [h]
  · obtain ⟨key, _, _, h⟩ := h
    rw [h]
    rfl
  · rw [h]

theorem setKey_keys {c : Council} {owner name : AccountName} {key key' : PublicKey}
    (h : (c.setKey owner key).keys name = some key') :
    name = owner ∧ key' = key ∨ name ≠ owner ∧ c.keys name = some key' := by
  simp only [Council.setKey, Function.update_apply] at h
  split at h
  · rename_i hname
    cases h
    exact .inl ⟨hname, rfl⟩
  · rename_i hname
    exact .inr ⟨hname, h⟩

/-- A key of a witness is an old one, or it has just been set. -/
theorem operationStep_keys {c c' : Council} {trx : Transaction} {op : FeeOperation}
    {name : AccountName} {key : PublicKey} (h : c.OperationStep op.op c')
    (hpublic : ∀ owner url key props, op.op ≠ .adminWitnessUpdate owner url key props)
    (hkey : c'.keys name = some key) (hne : key ≠ nullKey) :
    (Stage.newKey (.operation trx op)).map Prod.fst ≠ some name ∧ c.keys name = some key ∨
      Stage.newKey (.operation trx op) = some (name, key) := by
  simp only [Stage.newKey]
  generalize op.op = operation at h hpublic
  cases operation with
  | witnessUpdate owner url newKey props =>
    rw [show c' = c.setKey owner newKey from h] at hkey
    rcases setKey_keys hkey with ⟨rfl, rfl⟩ | ⟨hname, hold⟩
    · exact .inr rfl
    · exact .inl ⟨fun hsame ↦ hname (Option.some.inj hsame).symm, hold⟩
  | adminWitnessUpdate owner url newKey props => exact absurd rfl (hpublic owner url newKey props)
  | witnessStop owner =>
    rw [show c' = _ from h] at hkey
    simp only [Function.update_apply] at hkey
    split at hkey
    · obtain ⟨_, _, rfl⟩ := Option.map_eq_some_iff.1 hkey
      exact absurd rfl hne
    · exact .inl ⟨by simp, hkey⟩
  | witnessSetProperties owner props =>
    obtain ⟨current, hcurrent, _, hset⟩ := h
    rw [hset] at hkey
    cases hnew : props.newSigningKey with
    | none =>
      rw [hnew, Option.getD_none] at hkey
      rcases setKey_keys hkey with ⟨rfl, rfl⟩ | ⟨_, hold⟩
      · exact .inl ⟨by simp [hnew], hcurrent⟩
      · exact .inl ⟨by simp [hnew], hold⟩
    | some newKey =>
      rw [hnew, Option.getD_some] at hkey
      rcases setKey_keys hkey with ⟨rfl, rfl⟩ | ⟨hname, hold⟩
      · exact .inr (by simp only [hnew, Option.map_some])
      · exact .inl ⟨by simpa [hnew] using Ne.symm hname, hold⟩
  | _ =>
    rw [show c' = c from h] at hkey
    exact .inl ⟨by simp, hkey⟩

/-- The witnesses of a public network register themselves. -/
theorem not_adminWitnessUpdate {trx : Transaction} {op : FeeOperation}
    (hpublic : s.dgp.privateNet = false)
    (hrun : Stage.run ctx s (.operation trx op) = .ok s') (owner : AccountName) (url : Bytes)
    (key : PublicKey) (props : ChainProperties) :
    op.op ≠ .adminWitnessUpdate owner url key props := by
  intro hop
  simp only [Stage.run, Database.applyOperation, hop, bind_eq_ok] at hrun
  obtain ⟨s₁, hfee, heval⟩ := hrun
  simp only [Database.evaluate, Database.adminWitnessUpdateEvaluator, bind_eq_ok,
    fcAssert_eq_ok] at heval
  obtain ⟨_, hprivate, _⟩ := heval
  rw [(Database.processOperationFee_commerce hfee).rest] at hprivate
  exact absurd (hpublic.symm.trans hprivate) (by decide)

namespace BondsHeld

variable {past : List Moment}

/-- A step that sets no keys. -/
theorem quiet {bonds : AccountName → Option ShareType} (h : BondsHeld bonds s)
    (hsteady : Steady (fun _ ↦ True) s s')
    (hkeys : ∀ name, s'.council.keys name = s.council.keys name ∨
      s'.council.keys name = some nullKey)
    (hrequired : s.dgp.witnessRequiredVesting ≤ s'.dgp.witnessRequiredVesting) :
    BondsHeld bonds s' := by
  refine h.steady hsteady (fun name key hkey hne _ ↦ ⟨trivial, .inl ⟨?_, rfl⟩⟩) hrequired
  rcases hkeys name with hsame | hnull
  · exact hsame ▸ hkey
  · exact absurd (Option.some.inj (hkey.symm.trans hnull)) hne

theorem sameSeats {bonds : AccountName → Option ShareType} (h : BondsHeld bonds s)
    (hsteady : Steady (fun _ ↦ True) s s') (hseats : s.council.SameSeats s'.council) :
    BondsHeld bonds s' :=
  h.quiet hsteady (fun name ↦ .inl (congrFun hseats.1 name)) hseats.2.ge

theorem withdrawVesting {bonds : AccountName → Option ShareType} {trx : Transaction}
    {op : FeeOperation} {account : AccountName} {vestingShares : Asset} (hs : Sound s)
    (h : BondsHeld bonds s) (hop : op.op = .withdrawVesting account vestingShares)
    (hrun : Stage.run ctx s (.operation trx op) = .ok s') : BondsHeld bonds s' := by
  simp only [Stage.run, Database.applyOperation, hop, bind_eq_ok] at hrun
  obtain ⟨s₁, hfee, heval⟩ := hrun
  have hs₁ : BondsHeld bonds s₁ := by
    refine h.sameSeats (Database.processOperationFee_tended hs hfee).steady ?_
    rw [(Database.processOperationFee_commerce hfee).council]
    exact ⟨rfl, rfl⟩
  obtain ⟨a, f, ha, rfl, hscheduled, hcovers⟩ := Database.withdrawVestingEvaluator_request heval
  exact hs₁.modifyAccount ha hscheduled hcovers rfl rfl

end BondsHeld

/-- The bond that is required from the next block on. -/
theorem updateGlobalDynamicData_requiredVesting {b : SignedBlock}
    (hpublic : s.dgp.privateNet = false)
    (h : s.updateGlobalDynamicData ctx b = .ok s') :
    s'.dgp.witnessRequiredVesting = s.witnessRequiredVestingAt ctx.genesis b.blockNum := by
  simp only [Database.updateGlobalDynamicData, bind_eq_ok, pure_eq_ok] at h
  obtain ⟨_, _, s₁, hmissed, _, _, rfl⟩ := h
  have hs₁ : s₁ = { s with witnesses := s₁.witnesses } := by
    refine foldlM_invariant (I := fun t ↦ t = { s with witnesses := t.witnesses }) ?_ hmissed rfl
    intro s₂ slot s₃ _ hround hs₂
    simp only [Database.missSlot, bind_eq_ok] at hround
    obtain ⟨_, _, _, _, hround⟩ := hround
    split at hround
    · rw [← pure_eq_ok.1 hround, hs₂]
      rfl
    · exact pure_eq_ok.1 hround ▸ hs₂
  rw [hs₁, Database.shiftSlots_eq]
  exact if_neg (by simp [hpublic])

namespace BondsHeld

variable {past : List Moment}

theorem operation {trx : Transaction} {op : FeeOperation} (hs : Sound s)
    (hpublic : s.dgp.privateNet = false) (hvalid : Stage.Valid ctx (.operation trx op))
    (hsafe : BondSafe ctx s (.operation trx op))
    (hrun : Stage.run ctx s (.operation trx op) = .ok s')
    (h : BondsHeld (fun name ↦ bondInForce name past) s) :
    BondsHeld (fun name ↦ bondInForce name ((s, .operation trx op) :: past)) s' := by
  by_cases hrequest : ∃ account amount, op.op = .withdrawVesting account amount
  · obtain ⟨account, amount, hop⟩ := hrequest
    rw [bondInForce_of_none (by simp [Stage.newKey, hop])]
    exact h.withdrawVesting hs hop hrun
  · have hsteady := (Stage.tended hs hvalid hrun (fun trx' op' account amount hstage hop ↦ by
      cases hstage
      exact hrequest ⟨account, amount, hop⟩) (by simp)).steady
    have hstep : s.council.OperationStep op.op s'.council := Stage.council_step hrun
    refine h.steady hsteady (fun name key hkey hne hminer ↦ ?_) hstep.requiredVesting_eq.ge
    refine ⟨fun hstage ↦ (by cases hstage), ?_⟩
    rcases operationStep_keys hstep (not_adminWitnessUpdate hpublic hrun) hkey hne with
      ⟨hnot, hold⟩ | hnew
    · exact .inl ⟨hold, if_neg hnot⟩
    · refine .inr ⟨hsafe (name, key) hnew hne hminer, ?_⟩
      rw [bondInForce, hnew]
      exact if_pos rfl

theorem stage {stage : Stage} (hs : Sound s) (hpublic : s.dgp.privateNet = false)
    (hvalid : stage.Valid ctx) (hsafe : BondSafe ctx s stage) (hrun : stage.run ctx s = .ok s')
    (h : BondsHeld (fun name ↦ bondInForce name past) s) :
    BondsHeld (fun name ↦ bondInForce name ((s, stage) :: past)) s' := by
  have hquiet : stage ≠ .processVestingWithdrawals → stage ≠ .clearNullAccountBalance →
      (∀ trx op, stage ≠ .operation trx op) → Steady (fun _ ↦ True) s s' := by
    intro hpayouts hnull hop
    refine ((Stage.tended hs hvalid hrun (fun trx op _ _ hstage ↦ absurd hstage (hop trx op))
      hpayouts).mono fun name _ hstage ↦ absurd hstage hnull).steady
  have hstep := Stage.council_step hrun
  cases stage with
  | operation trx op => exact h.operation hs hpublic hvalid hsafe hrun
  | processVestingWithdrawals =>
    rw [bondInForce_of_none rfl]
    simp only [Stage.run, onPublicNet, hpublic] at hrun
    exact h.payouts hsafe hrun
  | clearNullAccountBalance =>
    rw [bondInForce_of_none rfl]
    have hsteady := (Stage.tended hs hvalid hrun (fun _ _ _ _ hstage ↦ by cases hstage)
      (by simp)).steady
    have hsame : s'.council = s.council := hstep
    refine h.steady hsteady (fun name key hkey hne _ ↦ ?_)
      (congrArg Council.requiredVesting hsame).ge
    rw [hsame] at hkey
    refine ⟨fun _ hname ↦ ?_, .inl ⟨hkey, rfl⟩⟩
    rw [hname] at hkey
    obtain ⟨w, hw, hsigning⟩ := Option.map_eq_some_iff.1 hkey
    exact hne (hsigning.symm.trans (hsafe w hw))
  | updateGlobalDynamicData b =>
    rw [bondInForce_of_none rfl]
    refine h.quiet (hquiet (by simp) (by simp) (by simp)) hstep.2 ?_
    rw [updateGlobalDynamicData_requiredVesting hpublic hrun]
    exact hsafe
  | openBlock _ | updateWitnessSchedule | processHardforks =>
    rw [bondInForce_of_none rfl]
    exact h.sameSeats (hquiet (by simp) (by simp) (by simp)) hstep
  | _ =>
    rw [bondInForce_of_none rfl]
    refine h.sameSeats (hquiet (by simp) (by simp) (by simp)) ?_
    rw [show s'.council = s.council from hstep]
    exact ⟨rfl, rfl⟩

end BondsHeld

theorem initGenesis_bondsHeld {s₀ : Database} (h : initGenesis ctx.genesis = .ok s₀) :
    BondsHeld (fun name ↦ bondInForce name []) s₀ := by
  have hbooks := initGenesis_books h
  refine ⟨fun name a ha ↦ ?_, fun name key hkey _ hminer ↦ ?_⟩
  · obtain ⟨_, _, hholdings⟩ := hbooks.rows name a ha
    rw [hholdings]
    exact AccountHoldings.scheduled_of_idle rfl rfl
  · simp only [initGenesis, bind_eq_ok, pure_eq_ok] at h
    obtain ⟨_, _, _, _, _, _, rfl⟩ := h
    simp only [Database.council, Option.map_eq_some_iff] at hkey
    obtain ⟨w, hw, _⟩ := hkey
    have hmem := (Table.find?_eq_some_iff _ _ _).1 hw
    simp only [genesisWitnesses, List.mem_singleton, Prod.mk.injEq] at hmem
    exact absurd hmem.1 hminer

/-- In a run that keeps clear of the slips, every witness with a key but the init miner holds the
bond of the time its key was set, whatever is still to be paid of its request. -/
theorem witness_bond_held (hskip : ctx.skip.validate = false)
    (hpublic : ctx.genesis.isPrivateNet = false) {s₀ : Database} {past : List Moment}
    {pending : Option (List Stage)} (hgenesis : initGenesis ctx.genesis = .ok s₀)
    (h : Chronicle ctx (BondSafe ctx) s₀ past pending s) :
    ∀ name w, s.witnesses.find? name = some w → w.signingKey ≠ nullKey → name ≠ initMinerName →
      ∃ bond a, bondInForce name past = some bond ∧ s.accounts.find? name = some a ∧
        bond ≤ a.vestingShares - a.pendingWithdrawal ∧ bond ≤ a.vestingShares := by
  have hbooks := initGenesis_books hgenesis
  have hinvariant : Sound s ∧ s.dgp.privateNet = false ∧
      BondsHeld (fun name ↦ bondInForce name past) s := by
    induction h with
    | refl => exact ⟨hbooks.sound, hbooks.privateNet.trans hpublic, initGenesis_bondsHeld hgenesis⟩
    | start _ _ ih => exact ih
    | stage h hsafe hrun ih =>
      obtain ⟨hs, hnet, hheld⟩ := ih
      have hvalid := (h.runsFrom.guarded hskip).head
      have hexplained := Stage.explained hs hvalid hrun
      exact ⟨hexplained.sound hs, (hexplained.privateNet_eq hs).trans hnet,
        hheld.stage hs hnet hvalid hsafe hrun⟩
    | finish _ _ ih => exact ih
  intro name w hw hkey hminer
  have hcouncil : s.council.keys name = some w.signingKey := Option.map_eq_some_iff.2 ⟨w, hw, rfl⟩
  obtain ⟨bond, a, hbond, _, ha, hcovers⟩ :=
    hinvariant.2.2.bonded name w.signingKey hcouncil hkey hminer
  exact ⟨bond, a, hbond, ha, hcovers.2, hcovers.1⟩

/-- A stage that fails where it is not safe for the bonds. -/
def bondStage (ctx : Context) (s : Database) (stage : Stage) : Exec Database := do
  fcAssert (BondSafe ctx s stage) "bond safe"
  stage.run ctx s

theorem bondStage_eq_ok {stage : Stage} (h : bondStage ctx s stage = .ok s') :
    BondSafe ctx s stage ∧ stage.run ctx s = .ok s' := by
  simp only [bondStage, bind_eq_ok, fcAssert_eq_ok] at h
  obtain ⟨_, hsafe, hrun⟩ := h
  exact ⟨hsafe, hrun⟩

/-- The development network with a richer account. -/
def bondGenesis : GenesisState :=
  { devGenesis with
    initialSupply := 700
    totalSupply := 20700
    initialAccounts := [⟨1000, 8, 400⟩] }

def vestTransaction : Transaction :=
  devTransaction 1531512900 8 (.transferToVesting 1000 1000 ⟨300, sophiatxSymbol⟩)

def registerTransaction : Transaction :=
  devTransaction 1531512901 8 (.witnessUpdate 1000 [97] 9 ⟨⟨0, sophiatxSymbol⟩, 131072, []⟩)

def withdrawTransaction (amount : ShareType) : Transaction :=
  devTransaction 1531512902 8 (.withdrawVesting 1000 ⟨amount, vestsSymbol⟩)

/-- A witness that asks for what it holds above its bond. -/
theorem witness_bond_held_by_registrant :
    ∃ s₀ s past bond a, initGenesis bondGenesis = .ok s₀ ∧
      Chronicle (devContext bondGenesis) (BondSafe (devContext bondGenesis)) s₀ past (some []) s ∧
      s.accounts.find? 1000 = some a ∧ a.pendingWithdrawal = 40 ∧
      bondInForce 1000 past = some bond ∧ bond ≤ a.vestingShares - a.pendingWithdrawal := by
  have hok : okAnd (initGenesis bondGenesis) (fun s₀ ↦
      okAnd (recordStages (bondStage (devContext bondGenesis)) (SignedBlock.stages
        (devBlock .null 1531512803
          [vestTransaction, registerTransaction, withdrawTransaction 40])) ([], s₀)) fun recorded ↦
          decide ((recorded.2.witnesses.find? 1000).map Witness.signingKey = some 9 ∧
            (recorded.2.accounts.find? 1000).map (fun a ↦ a.pendingWithdrawal) = some 40)) =
        true := by decide +kernel
  obtain ⟨s₀, hgenesis, hs₀⟩ := exists_of_okAnd hok
  obtain ⟨⟨past, s⟩, hstages, hs⟩ := exists_of_okAnd hs₀
  obtain ⟨hkey, hpending⟩ := of_decide_eq_true hs
  obtain ⟨w, hw, hnine⟩ := Option.map_eq_some_iff.1 hkey
  have hchronicle : Chronicle (devContext bondGenesis) (BondSafe (devContext bondGenesis)) s₀ past
      (some []) s := by
    refine Chronicle.recordStages (fun _ _ _ ↦ bondStage_eq_ok) ?_ hstages
    rw [List.append_nil]
    exact Chronicle.refl.start _
  have hnotnull : w.signingKey ≠ nullKey := by
    rw [hnine]
    decide
  have hskip : (devContext bondGenesis).skip.validate = false := rfl
  obtain ⟨bond, a, hbond, ha, hheld, _⟩ :=
    witness_bond_held hskip rfl hgenesis hchronicle 1000 w hw hnotnull (by decide)
  rw [ha, Option.map_some, Option.some.injEq] at hpending
  exact ⟨s₀, s, past, bond, a, hgenesis, hchronicle, ha, hpending, hbond, hheld⟩

/-- An account that registers while all it has is being paid out. -/
theorem witness_registers_while_withdrawing :
    ∃ s₀ s past bond w a, initGenesis bondGenesis = .ok s₀ ∧ bondGenesis.isPrivateNet = false ∧
      Chronicle (devContext bondGenesis) (fun _ _ ↦ True) s₀ past (some []) s ∧
      s.witnesses.find? 1000 = some w ∧ w.signingKey ≠ nullKey ∧
      s.accounts.find? 1000 = some a ∧ bondInForce 1000 past = some bond ∧
      ¬ bond ≤ a.vestingShares - a.pendingWithdrawal := by
  have hok : okAnd (initGenesis bondGenesis) (fun s₀ ↦
      okAnd (recordStages (fun s stage ↦ stage.run (devContext bondGenesis) s) (SignedBlock.stages
        (devBlock .null 1531512803
          [vestTransaction, withdrawTransaction 300, registerTransaction])) ([], s₀))
          fun recorded ↦
            decide ((recorded.2.witnesses.find? 1000).map Witness.signingKey = some 9 ∧
              (recorded.2.accounts.find? 1000).map (fun a ↦
                a.vestingShares - a.pendingWithdrawal) = some 0 ∧
              bondInForce 1000 recorded.1 = some 250)) = true := by decide +kernel
  obtain ⟨s₀, hgenesis, hs₀⟩ := exists_of_okAnd hok
  obtain ⟨⟨past, s⟩, hstages, hs⟩ := exists_of_okAnd hs₀
  obtain ⟨hkey, hrest, hbond⟩ := of_decide_eq_true hs
  obtain ⟨w, hw, hnine⟩ := Option.map_eq_some_iff.1 hkey
  obtain ⟨a, ha, hzero⟩ := Option.map_eq_some_iff.1 hrest
  refine ⟨s₀, s, past, 250, w, a, hgenesis, rfl, ?_, hw, ?_, ha, hbond, ?_⟩
  · refine Chronicle.recordStages (fun _ _ _ hrun ↦ ⟨trivial, hrun⟩) ?_ hstages
    rw [List.append_nil]
    exact Chronicle.refl.start _
  · rw [hnine]
    decide
  · rw [hzero]
    decide

end SophiaTX.Chain
