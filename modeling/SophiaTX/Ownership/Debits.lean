import Mathlib.Algebra.Group.Pi.Lemmas
import SophiaTX.Chain.Genesis
import SophiaTX.Chain.Runs

/-!
# Who pays for an operation

An operation takes from the account it names as the source of a payment, and its fee from the fee
payer or the sponsor of that. The payments are always authorised. The fee is not where the fee
payer is not among the accounts whose authority the operation requires.
-/

namespace SophiaTX.Chain

open SophiaTX.Protocol SophiaTX.Lib

/-! ## Who is lowered -/

/-- The holdings of an account are lower in a later state. -/
def Lowers (s s' : Database) (name : AccountName) : Prop :=
  s'.balanceOf name < s.balanceOf name ∨ s'.vestingOf name < s.vestingOf name

/-- Only accounts of a predicate are lowered. -/
structure LowersOnly (P : AccountName → Prop) (s s' : Database) : Prop where
  balance : ∀ name, ¬ P name → s.balanceOf name ≤ s'.balanceOf name
  vesting : ∀ name, ¬ P name → s.vestingOf name ≤ s'.vestingOf name

namespace LowersOnly

variable {P : AccountName → Prop} {g : GenesisState} {s s₁ s' : Database}

theorem of_lowers {name : AccountName} (h : LowersOnly P s s') (hlowers : Lowers s s' name) :
    P name := by
  by_contra hname
  rcases hlowers with hlower | hlower
  · exact absurd hlower (not_lt.2 (h.balance name hname))
  · exact absurd hlower (not_lt.2 (h.vesting name hname))

theorem trans (h : LowersOnly P s s₁) (h' : LowersOnly P s₁ s') : LowersOnly P s s' where
  balance name hname := (h.balance name hname).trans (h'.balance name hname)
  vesting name hname := (h.vesting name hname).trans (h'.vesting name hname)

theorem of_eq (hbalance : s'.balanceOf = s.balanceOf) (hvesting : s'.vestingOf = s.vestingOf) :
    LowersOnly P s s' :=
  ⟨fun name _ ↦ (congrFun hbalance name).ge, fun name _ ↦ (congrFun hvesting name).ge⟩

theorem sameMoney (h : SameMoney s s') : LowersOnly P s s' :=
  of_eq (Database.balanceOf_congr h) (Database.vestingOf_congr h)

theorem single_nonneg {account : AccountName} {amount : ℤ} (h : 0 ≤ amount) (name : AccountName) :
    0 ≤ (Pi.single account amount : AccountName → ℤ) name := by
  rw [Pi.single_apply]
  split_ifs
  · exact h
  · exact le_rfl

theorem adjustBalance {account : AccountName} {delta : Asset}
    (h : s.adjustBalance g account delta = .ok s') (haccount : 0 ≤ delta.amount ∨ P account) :
    LowersOnly P s s' := by
  refine ⟨fun name hname ↦ ?_, fun name _ ↦ (congrFun (Database.adjustBalance_vestingOf h) name).ge⟩
  rw [Database.adjustBalance_balanceOf h, Pi.add_apply]
  by_cases heq : name = account
  · subst heq
    rw [Pi.single_eq_same]
    exact le_add_of_nonneg_right (haccount.resolve_right hname)
  · rw [Pi.single_eq_of_ne heq, add_zero]

theorem vest {account : AccountName} {amount : ShareType} (hamount : 0 ≤ amount)
    (haccount : P account) (h : s.vest account amount = .ok s') : LowersOnly P s s' := by
  obtain ⟨hbalance, hvesting⟩ := Database.vest_balanceOf h
  refine ⟨fun name hname ↦ ?_, fun name _ ↦ ?_⟩
  · have hne : name ≠ account := fun heq ↦ hname (heq ▸ haccount)
    rw [hbalance, Pi.add_apply, Pi.single_eq_of_ne hne, add_zero]
  · rw [hvesting]
    exact le_add_of_nonneg_right (single_nonneg hamount name)

theorem payFee {account : AccountName} {fee : Asset} (h : s.payFee g account fee = .ok s')
    (haccount : P account) : LowersOnly P s s' := by
  simp only [Database.payFee, bind_eq_ok] at h
  obtain ⟨_, _, h⟩ := h
  split at h
  · exact pure_eq_ok.1 h ▸ of_eq rfl rfl
  · simp only [bind_eq_ok, pure_eq_ok] at h
    obtain ⟨_, _, _, _, _, _, negated, _, s₁, hbalance, s₂, hsupply, economics, _, rfl⟩ := h
    obtain ⟨_, _, rfl⟩ := Database.adjustSupply_eq_ok hsupply
    have hrest : LowersOnly P s₁ { s₁ with
        dgp := { s₁.dgp with currentSupply := s₁.dgp.currentSupply + negated.amount }
        economics := economics } := of_eq rfl rfl
    exact (adjustBalance hbalance (.inr haccount)).trans hrest

end LowersOnly

/-! ## What evaluators take -/

/-- The account that an operation names as the source of a payment. -/
def takesFrom : Operation → Option AccountName
  | .transfer fromAccount _ _ _ => some fromAccount
  | .transferToVesting fromAccount _ _ => some fromAccount
  | .escrowTransfer fromAccount _ _ _ _ _ _ _ _ => some fromAccount
  | .accountCreate creator _ _ _ _ _ => some creator
  | _ => none

section Evaluators

variable {ctx : Context} {g : GenesisState} {s s' : Database} {P : AccountName → Prop}

theorem transferEvaluator_lowersOnly {fromAccount toAccount : AccountName} {amount : Asset}
    (hamount : 0 ≤ amount.amount) (hfrom : P fromAccount)
    (h : s.transferEvaluator g fromAccount toAccount amount = .ok s') : LowersOnly P s s' := by
  simp only [Database.transferEvaluator, bind_eq_ok] at h
  obtain ⟨_, _, _, _, _, _, _, _, _, _, s₁, hpay, hreceive⟩ := h
  exact (LowersOnly.adjustBalance hpay (.inr hfrom)).trans
    (LowersOnly.adjustBalance hreceive (.inl hamount))

theorem transferToVestingEvaluator_lowersOnly {fromAccount toAccount : AccountName}
    {amount : Asset} (hamount : 0 ≤ amount.amount) (hfrom : P fromAccount)
    (h : s.transferToVestingEvaluator g fromAccount toAccount amount = .ok s') :
    LowersOnly P s s' := by
  simp only [Database.transferToVestingEvaluator, bind_eq_ok] at h
  obtain ⟨_, _, a, ha, b, hb, _, _, _, _, h⟩ := h
  by_cases hids : a.id = b.id
  · rw [if_pos hids] at h
    exact LowersOnly.vest hamount hfrom h
  · simp only [if_neg hids, bind_eq_ok] at h
    obtain ⟨_, _, s₁, hpay, s₂, hreceive, hvest⟩ := h
    -- The receiver gets the amount and vests it at once.
    have hto : (if toAccount ≠ 0 then toAccount else fromAccount) = toAccount := by
      by_cases hempty : toAccount = 0
      · rw [if_neg (not_not.2 hempty), ha] at hb
        cases hb
        exact absurd rfl hids
      · rw [if_pos hempty]
    rw [hto] at hvest
    obtain ⟨hbalance, hvesting⟩ := Database.vest_balanceOf hvest
    have hboth : LowersOnly P s₁ s' := by
      refine ⟨fun name _ ↦ ?_, fun name _ ↦ ?_⟩
      · rw [hbalance, Database.adjustBalance_balanceOf hreceive, add_assoc, ← Pi.single_add,
          add_neg_cancel, Pi.single_zero, add_zero]
      · rw [hvesting, Database.adjustBalance_vestingOf hreceive]
        exact le_add_of_nonneg_right (LowersOnly.single_nonneg hamount name)
    exact (LowersOnly.adjustBalance hpay (.inr hfrom)).trans hboth

theorem escrowTransferEvaluator_lowersOnly {fromAccount toAccount agent : AccountName}
    {escrowId : ℕ} {sophiatxAmount escrowFee : Asset} {ratificationDeadline escrowExpiration : Time}
    (hfrom : P fromAccount)
    (h : s.escrowTransferEvaluator g fromAccount toAccount agent escrowId sophiatxAmount escrowFee
      ratificationDeadline escrowExpiration = .ok s') : LowersOnly P s s' := by
  simp only [Database.escrowTransferEvaluator, bind_eq_ok, pure_eq_ok] at h
  obtain ⟨_, _, _, _, _, _, _, _, _, _, _, _, _, _, _, _, _, _, _, _, s₁, hpay, escrows,
    _, rfl⟩ := h
  have hrest : LowersOnly P s₁ { s₁ with escrows := escrows } := .of_eq rfl rfl
  exact (LowersOnly.adjustBalance hpay (.inr hfrom)).trans hrest

theorem refundEscrow_lowersOnly {key : AccountName × ℕ} {e : Escrow} (he : e.NonNegative)
    (h : s.refundEscrow g key e = .ok s') : LowersOnly P s s' := by
  simp only [Database.refundEscrow, bind_eq_ok, pure_eq_ok] at h
  obtain ⟨s₁, hamount, s₂, hfee, rfl⟩ := h
  have hrest : LowersOnly P s₂ { s₂ with escrows := s₂.escrows.erase key } := .of_eq rfl rfl
  exact ((LowersOnly.adjustBalance hamount (.inl he.1)).trans
    (LowersOnly.adjustBalance hfee (.inl he.2))).trans hrest

theorem escrowApproveEvaluator_lowersOnly {fromAccount toAccount agent who : AccountName}
    {escrowId : ℕ} {approve : Bool} (hescrows : s.escrows.Forall fun _ e ↦ e.NonNegative)
    (h : s.escrowApproveEvaluator g fromAccount toAccount agent who escrowId approve = .ok s') :
    LowersOnly P s s' := by
  simp only [Database.escrowApproveEvaluator, Database.getEscrow, bind_eq_ok,
    orUnknownKey_eq_ok] at h
  obtain ⟨_, _, e, he, _, _, _, _, _, _, _, _, _, _, h⟩ := h
  have hnonneg : e.NonNegative := hescrows _ e he
  split at h
  · exact refundEscrow_lowersOnly hnonneg h
  · split at h
    · simp only [bind_eq_ok, pure_eq_ok] at h
      obtain ⟨s₁, hpay, rfl⟩ := h
      exact (LowersOnly.adjustBalance hpay (.inl hnonneg.2)).trans (.of_eq rfl rfl)
    · cases h
      exact .of_eq rfl rfl

theorem escrowReleaseEvaluator_lowersOnly {fromAccount toAccount agent who receiver : AccountName}
    {escrowId : ℕ} {sophiatxAmount : Asset} (hamount : 0 ≤ sophiatxAmount.amount)
    (h : s.escrowReleaseEvaluator g fromAccount toAccount agent who receiver escrowId
      sophiatxAmount = .ok s') : LowersOnly P s s' := by
  simp only [Database.escrowReleaseEvaluator, bind_eq_ok] at h
  obtain ⟨_, _, _, _, e, _, _, _, _, _, _, _, _, _, _, _, _, _, _, _, s₁, hpay, rest, _, h⟩ := h
  refine (LowersOnly.adjustBalance hpay (.inl hamount)).trans ?_
  split at h <;> cases h <;> exact .of_eq rfl rfl

theorem transferFromPromotionPoolEvaluator_lowersOnly {transferTo : AccountName} {amount : Asset}
    (h : s.transferFromPromotionPoolEvaluator g transferTo amount = .ok s') :
    LowersOnly P s s' := by
  simp only [Database.transferFromPromotionPoolEvaluator, bind_eq_ok, Prod.exists] at h
  obtain ⟨_, _, _, _, _, _, economics, withdrawn, hwithdraw, s₁, hpay, hsupply⟩ := h
  obtain ⟨hpos, _⟩ := EconomicModel.withdrawFromPromotionPool_eq_ok hwithdraw
  obtain ⟨_, _, rfl⟩ := Database.adjustSupply_eq_ok hsupply
  have hpools : LowersOnly P s { s with economics := economics } := .of_eq rfl rfl
  exact (hpools.trans (LowersOnly.adjustBalance hpay (.inl hpos.le))).trans (.of_eq rfl rfl)

theorem accountCreateEvaluator_lowersOnly {fee : Asset} {creator : AccountName} {nameSeed : Bytes}
    {owner active : Authority} {memoKey : PublicKey} {jsonMetadata : Bytes} (hcreator : P creator)
    (h : s.accountCreateEvaluator ctx fee creator nameSeed owner active memoKey jsonMetadata =
      .ok s') : LowersOnly P s s' := by
  simp only [Database.accountCreateEvaluator, bind_eq_ok, createRow_eq_ok] at h
  obtain ⟨a, _, toPay, _, _, _, _, _, _, _, _, _, excess, _, _, _, _, _, accounts, haccounts,
    authorities, _, s₁, hfee, h⟩ := h
  have hcreate : LowersOnly P s { s with accounts := accounts, authorities := authorities } := by
    have hnew := fun name ↦ Table.find?_emplace? haccounts name
    have hfresh := (Table.emplace?_eq_some haccounts).1
    have hsame : ∀ {f : Account → ℤ}, f { Account.fresh s.accounts.size with
        memoKey := memoKey
        created := s.dgp.time
        mined := false
        recoveryAccount := creator
        jsonMetadata := jsonMetadata } = 0 →
        ∀ name, (accounts.find? name).elim 0 f = (s.accounts.find? name).elim 0 f := by
      intro f hf name
      rw [hnew name]
      split_ifs with hname
      · rw [hname, hfresh]
        exact hf
      · rfl
    exact .of_eq (funext fun name ↦ hsame rfl name) (funext fun name ↦ hsame rfl name)
  have hs₁ : LowersOnly P { s with accounts := accounts, authorities := authorities } s₁ := by
    split at hfee
    · exact .payFee hfee hcreator
    · exact pure_eq_ok.1 hfee ▸ .of_eq rfl rfl
  split at h
  · rename_i hexcess
    simp only [bind_eq_ok] at h
    obtain ⟨s₂, hnew, _, _, hpay⟩ := h
    exact (hcreate.trans hs₁).trans ((LowersOnly.adjustBalance hnew (.inl hexcess.le)).trans
      (LowersOnly.adjustBalance hpay (.inr hcreator)))
  · exact pure_eq_ok.1 h ▸ hcreate.trans hs₁

theorem createWitness_lowersOnly {owner : AccountName} {url : Bytes} {key : PublicKey}
    {props : ChainProperties} (h : s.createWitness g owner url key props = .ok s') :
    LowersOnly P s s' := by
  simp only [Database.createWitness, bind_eq_ok, pure_eq_ok] at h
  obtain ⟨witnesses, _, rfl⟩ := h
  exact .of_eq rfl rfl

theorem witnessUpdateEvaluator_lowersOnly {owner : AccountName} {url : Bytes}
    {blockSigningKey : PublicKey} {props : ChainProperties}
    (h : s.witnessUpdateEvaluator ctx owner url blockSigningKey props = .ok s') :
    LowersOnly P s s' := by
  simp only [Database.witnessUpdateEvaluator] at h
  split at h
  · simp only [bind_eq_ok, pure_eq_ok] at h
    obtain ⟨_, _, rfl⟩ := h
    exact .of_eq rfl rfl
  · simp only [bind_eq_ok] at h
    obtain ⟨_, _, _, _, _, _, h⟩ := h
    split at h
    · cases h
      exact .of_eq rfl rfl
    · exact createWitness_lowersOnly h

theorem adminWitnessUpdateEvaluator_lowersOnly {owner : AccountName} {url : Bytes}
    {blockSigningKey : PublicKey} {props : ChainProperties}
    (h : s.adminWitnessUpdateEvaluator g owner url blockSigningKey props = .ok s') :
    LowersOnly P s s' := by
  simp only [Database.adminWitnessUpdateEvaluator, bind_eq_ok] at h
  obtain ⟨_, _, h⟩ := h
  split at h
  · exact createWitness_lowersOnly h
  · cases h
    exact .of_eq rfl rfl

theorem withdrawVestingEvaluator_lowersOnly {account : AccountName} {vestingShares : Asset}
    (h : s.withdrawVestingEvaluator account vestingShares = .ok s') : LowersOnly P s s' := by
  obtain ⟨_, a, rate, next, _, _, _, _, rfl⟩ := Database.withdrawVestingEvaluator_eq_ok h
  have hsame : ∀ (f : Account → ℤ), (∀ a : Account, f { a with
      vestingWithdrawRate := rate
      nextVestingWithdrawal := next
      toWithdraw := vestingShares.amount
      withdrawn := 0 } = f a) → ∀ name, ((s.accounts.modify account fun a ↦ { a with
        vestingWithdrawRate := rate
        nextVestingWithdrawal := next
        toWithdraw := vestingShares.amount
        withdrawn := 0 }).find? name).elim 0 f = (s.accounts.find? name).elim 0 f := by
    intro f hf name
    rw [Table.find?_modify]
    split_ifs
    · cases s.accounts.find? name with
      | none => rfl
      | some a => exact hf a
    · rfl
  exact .of_eq (funext fun name ↦ hsame _ (fun _ ↦ rfl) name)
    (funext fun name ↦ hsame _ (fun _ ↦ rfl) name)

/-- An evaluator lowers the account its operation takes from, and no other. -/
theorem evaluate_lowersOnly {op : Operation} {fee : Asset} {u : Unit}
    (hescrows : s.escrows.Forall fun _ e ↦ e.NonNegative)
    (hvalid : op.validate ctx.env ctx.genesis = .ok u) (h : s.evaluate ctx fee op = .ok s') :
    LowersOnly (fun name ↦ takesFrom op = some name) s s' := by
  cases op with
  | transfer _ _ amount _ =>
    simp only [Operation.validate, bind_eq_ok, fcAssert_eq_ok] at hvalid
    obtain ⟨_, _, _, _, _, _, _, hamount, _⟩ := hvalid
    exact transferEvaluator_lowersOnly hamount.le rfl h
  | transferToVesting _ _ amount =>
    simp only [Operation.validate, bind_eq_ok, fcAssert_eq_ok] at hvalid
    obtain ⟨_, _, _, _, _, _, hamount⟩ := hvalid
    exact transferToVestingEvaluator_lowersOnly hamount.le rfl h
  | withdrawVesting _ _ => exact withdrawVestingEvaluator_lowersOnly h
  | accountWitnessVote _ _ _ =>
    exact .sameMoney (Database.accountWitnessVoteEvaluator_sameMoney h)
  | accountWitnessProxy _ _ =>
    exact .sameMoney (Database.accountWitnessProxyEvaluator_sameMoney h)
  | escrowTransfer _ _ _ _ _ _ _ _ _ => exact escrowTransferEvaluator_lowersOnly rfl h
  | escrowDispute _ _ _ _ _ =>
    simp only [Database.evaluate, Database.escrowDisputeEvaluator, bind_eq_ok, pure_eq_ok] at h
    obtain ⟨_, _, _, _, _, _, _, _, _, _, _, _, _, _, _, _, rfl⟩ := h
    exact .of_eq rfl rfl
  | escrowRelease _ _ _ _ _ _ _ =>
    simp only [Operation.validate, bind_eq_ok, fcAssert_eq_ok] at hvalid
    obtain ⟨_, _, _, _, _, _, _, _, _, _, _, _, _, _, _, hamount, _⟩ := hvalid
    exact escrowReleaseEvaluator_lowersOnly hamount.le h
  | escrowApprove _ _ _ _ _ _ => exact escrowApproveEvaluator_lowersOnly hescrows h
  | accountCreate _ _ _ _ _ _ => exact accountCreateEvaluator_lowersOnly rfl h
  | transferFromPromotionPool _ _ => exact transferFromPromotionPoolEvaluator_lowersOnly h
  | witnessUpdate _ _ _ _ => exact witnessUpdateEvaluator_lowersOnly h
  | adminWitnessUpdate _ _ _ _ => exact adminWitnessUpdateEvaluator_lowersOnly h
  | virtual => cases h
  | feedPublish _ _ => exact .sameMoney (Database.feedPublishEvaluator_frame h).sameMoney
  | accountUpdate _ _ _ _ _ => exact .sameMoney (Database.accountUpdateEvaluator_frame h).sameMoney
  | accountDelete _ => exact .sameMoney (Database.accountDeleteEvaluator_frame h).sameMoney
  | witnessStop _ =>
    simp only [Database.evaluate, Database.witnessStopEvaluator, bind_eq_ok, pure_eq_ok] at h
    obtain ⟨_, _, rfl⟩ := h
    exact .of_eq rfl rfl
  | witnessSetProperties _ _ =>
    exact .sameMoney (Database.witnessSetPropertiesEvaluator_frame h).sameMoney
  | custom _ _ _ _ => exact pure_eq_ok.1 h ▸ .of_eq rfl rfl
  | customJson _ _ _ _ | customBinary _ _ _ _ =>
    cases h
    exact .of_eq rfl rfl
  | requestAccountRecovery _ _ _ =>
    exact .sameMoney (Database.requestAccountRecoveryEvaluator_frame h).sameMoney
  | recoverAccount _ _ _ => exact .sameMoney (Database.recoverAccountEvaluator_frame h).sameMoney
  | changeRecoveryAccount _ _ =>
    exact .sameMoney (Database.changeRecoveryAccountEvaluator_frame h).sameMoney
  | resetAccount _ _ _ =>
    simp only [Database.evaluate, Database.resetAccountEvaluator, bind_eq_ok] at h
    obtain ⟨_, _, _, _, h⟩ := h
    exact .sameMoney (Database.updateOwnerAuthority_frame h).sameMoney
  | setResetAccount _ _ _ => exact .sameMoney (Database.setResetAccountEvaluator_frame h).sameMoney
  | applicationCreate _ _ _ _ _ =>
    simp only [Database.evaluate, Database.applicationCreateEvaluator, bind_eq_ok, pure_eq_ok] at h
    obtain ⟨_, _, _, _, rfl⟩ := h
    exact .of_eq rfl rfl
  | applicationUpdate _ _ _ _ _ _ =>
    exact .sameMoney (Database.applicationUpdateEvaluator_frame h).sameMoney
  | applicationDelete _ _ =>
    simp only [Database.evaluate, Database.applicationDeleteEvaluator, bind_eq_ok, pure_eq_ok] at h
    obtain ⟨_, _, _, _, rfl⟩ := h
    exact .of_eq rfl rfl
  | buyApplication _ _ =>
    simp only [Database.evaluate, Database.buyApplicationEvaluator, bind_eq_ok, pure_eq_ok] at h
    obtain ⟨_, _, _, _, _, _, _, _, rfl⟩ := h
    exact .of_eq rfl rfl
  | cancelApplicationBuying _ _ _ =>
    exact .sameMoney (Database.cancelApplicationBuyingEvaluator_frame h).sameMoney
  | sponsorFees _ _ _ => exact .sameMoney (Database.sponsorFeesEvaluator_frame h).sameMoney

end Evaluators

/-! ## Amounts of escrows -/

theorem Move.Direct.escrows_nonNegative {s t : Database} {m : Move} (h : m.Direct s t)
    (hs : s.escrows.Forall fun _ e ↦ e.NonNegative) : t.escrows.Forall fun _ e ↦ e.NonNegative := by
  cases m with
  | createEscrow key e =>
    obtain ⟨escrows, _, hnonneg, hescrows, rfl⟩ := h
    exact hs.emplace? hescrows hnonneg
  | changeEscrow key e e' =>
    obtain ⟨he, _, hnonneg, rfl⟩ := h
    exact hs.modify key fun _ _ _ ↦ hnonneg (hs key e he)
  | removeEscrow key e =>
    obtain ⟨_, rfl⟩ := h
    exact hs.erase key
  | _ => rwa [h.escrows_eq rfl]

theorem Explained.escrows_nonNegative {g : GenesisState} {stage : Stage} {s s' : Database}
    {effect : ShareType × ShareType × ShareType} (h : Explained g stage effect s s')
    (hsound : Sound s) (hs : s.escrows.Forall fun _ e ↦ e.NonNegative) :
    s'.escrows.Forall fun _ e ↦ e.NonNegative := by
  obtain ⟨ms, hms, _⟩ := h
  have hboth := hms.invariant (I := fun s ↦ Sound s ∧ s.escrows.Forall fun _ e ↦ e.NonNegative) ?_
    ⟨hsound, hs⟩
  · exact hboth.2
  · rintro s m s' _ hstep ⟨hsound, hs⟩
    obtain ⟨t, hdirect, hmoney⟩ := Move.Step.direct hstep hsound.accumulated
    refine ⟨Move.Step.sound hstep hsound, ?_⟩
    rw [hmoney.escrows]
    exact hdirect.escrows_nonNegative hs

theorem Reachable.escrows_nonNegative {ctx : Context} {s : Database}
    (hskip : ctx.skip.validate = false) (hs : Reachable ctx s) :
    s.escrows.Forall fun _ e ↦ e.NonNegative := by
  obtain ⟨s₀, pending, hgenesis, hrun⟩ := hs
  have hbooks := initGenesis_books hgenesis
  have hboth := hrun.invariant (I := fun s ↦ Sound s ∧ s.escrows.Forall fun _ e ↦ e.NonNegative)
    hskip ?_ ⟨hbooks.sound, ?_⟩
  · exact hboth.2
  · rintro s stage s' _ hvalid hstage ⟨hsound, hs⟩
    exact ⟨Stage.sound hsound hvalid hstage,
      (Stage.explained hsound hvalid hstage).escrows_nonNegative hsound hs⟩
  · rw [hbooks.escrows]
    exact fun _ _ h ↦ (by cases h)

/-! ## Who has authorised -/

/-- Accounts whose authority stands behind an operation: those whose active or owner authority it
requires, the witness whose signing key it is signed with, and the account one of whose recent
owner authorities it is signed with. -/
def Authorises (s : Database) (op : Operation) (name : AccountName) : Prop :=
  name ∈ op.requiredActiveAuthorities ∨ name ∈ op.requiredOwnerAuthorities ∨
    match op with
    | .witnessSetProperties owner props => name = owner ∧
      ∃ w, s.witnesses.find? owner = some w ∧ props.key = some w.signingKey
    | .recoverAccount account _ recentOwnerAuthority => name = account ∧
      ∃ hist ∈ s.ownerHistories, hist.account = account ∧
        hist.previousOwnerAuthority = recentOwnerAuthority
    | _ => False

/-- An account that authorises an operation, or the registered sponsor of one. -/
def MayPay (s : Database) (op : Operation) (name : AccountName) : Prop :=
  Authorises s op name ∨ ∃ sponsored, Authorises s op sponsored ∧
    s.sponsors.find? sponsored = some name

theorem mayPay_of_authorises {s : Database} {op : Operation} (h : Authorises s op op.feePayer) :
    MayPay s op (s.sponsorOf op.feePayer) := by
  unfold Database.sponsorOf
  cases hsponsor : s.sponsors.find? op.feePayer with
  | none => exact .inl h
  | some sponsor => exact .inr ⟨op.feePayer, h, hsponsor⟩

theorem authorises_of_takesFrom {s : Database} {op : Operation} {name : AccountName}
    (h : takesFrom op = some name) : Authorises s op name := by
  cases op <;> simp only [takesFrom, Option.some.injEq, reduceCtorEq] at h <;> subst h
  case transfer amount _ =>
    by_cases hvests : amount.symbol = vestsSymbol
    · exact .inr (.inl (by simp [Operation.requiredOwnerAuthorities, hvests]))
    · exact .inl (by simp [Operation.requiredActiveAuthorities, hvests])
  all_goals exact .inl (by simp [Operation.requiredActiveAuthorities, Operation.feePayer])

/-! ## Fees -/

/-- What an operation pays in SPHTX before it is evaluated. -/
def Database.chargedFee (g : GenesisState) (s : Database) (op : FeeOperation) : ShareType :=
  if op.op.hasSpecialFee ∨ s.dgp.privateNet then 0
  else
    match s.feeToPay g op.fee with
    | .ok toPay => toPay.amount
    | .error _ => 0

/-- A transfer from the promotion pool is paid for by its receiver, and a reset account is set in
place of an empty one without any authority. There the fee has to be nothing, or to fall on the
init miner or its sponsor. -/
def FeeCovered (g : GenesisState) (s : Database) (op : FeeOperation) : Prop :=
  match op.op with
  | .transferFromPromotionPool transferTo _ =>
    s.chargedFee g op = 0 ∨ s.sponsorOf transferTo = initMinerName ∨
      s.sponsors.find? initMinerName = some (s.sponsorOf transferTo)
  | .setResetAccount _ currentResetAccount _ =>
    s.chargedFee g op = 0 ∨ currentResetAccount ≠ 0
  | _ => True

theorem payFee_holdings {g : GenesisState} {s s' : Database} {account : AccountName} {fee : Asset}
    (h : s.payFee g account fee = .ok s') :
    0 ≤ fee.amount ∧ s'.balanceOf = s.balanceOf + Pi.single account (-fee.amount) ∧
      s'.vestingOf = s.vestingOf ∧ s.witnesses.AgreeOn Witness.withoutVotes s'.witnesses ∧
      s'.ownerHistories = s.ownerHistories ∧ s'.escrows = s.escrows ∧
      s'.dgp.privateNet = s.dgp.privateNet := by
  simp only [Database.payFee, bind_eq_ok, fcAssert_eq_ok] at h
  obtain ⟨_, hnonneg, h⟩ := h
  refine ⟨hnonneg, ?_⟩
  split at h
  · rename_i hzero
    cases h
    rw [hzero]
    exact ⟨by simp, rfl, .refl _, rfl, rfl, rfl⟩
  · simp only [Asset.neg, safeNeg, bind_eq_ok, checked_eq_ok, pure_eq_ok] at h
    obtain ⟨_, _, _, _, _, _, negated, ⟨_, ⟨_, rfl⟩, rfl⟩, s₁, hbalance, s₂, hsupply, economics, _,
      rfl⟩ := h
    obtain ⟨_, _, rfl⟩ := Database.adjustSupply_eq_ok hsupply
    obtain ⟨hrest, hwitnesses⟩ := Database.adjustBalance_rest hbalance
    have hpaid := Database.adjustBalance_balanceOf hbalance
    have hvesting := Database.adjustBalance_vestingOf hbalance
    have hhistories : s₁.ownerHistories = s.ownerHistories := by rw [hrest]
    have hescrows := Database.adjustBalance_escrows hbalance
    have hprivate : s₁.dgp.privateNet = s.dgp.privateNet :=
      congrArg DynamicGlobalProperties.privateNet (Database.adjustBalance_dgp hbalance)
    exact ⟨hpaid, hvesting, hwitnesses, hhistories, hescrows, hprivate⟩

/-- The fee is taken from the fee payer or its sponsor, and nothing else is. -/
theorem processOperationFee_holdings {g : GenesisState} {s s' : Database} {op : FeeOperation}
    (h : s.processOperationFee g op = .ok s') :
    0 ≤ s.chargedFee g op ∧
      s'.balanceOf = s.balanceOf + Pi.single (s.sponsorOf op.op.feePayer) (-s.chargedFee g op) ∧
      s'.vestingOf = s.vestingOf ∧ s.witnesses.AgreeOn Witness.withoutVotes s'.witnesses ∧
      s'.ownerHistories = s.ownerHistories ∧ s'.escrows = s.escrows ∧
      s'.dgp.privateNet = s.dgp.privateNet := by
  unfold Database.processOperationFee at h
  unfold Database.chargedFee
  split_ifs at h ⊢ with hfree
  · cases h
    exact ⟨le_rfl, by simp, rfl, .refl _, rfl, rfl, rfl⟩
  · simp only [bind_eq_ok] at h
    obtain ⟨_, _, _, _, _, _, _, _, toPay, htoPay, _, _, hpay⟩ := h
    rw [htoPay]
    exact payFee_holdings hpay

/-! ## Fee payers -/

/-- The fee payer authorises the operation. The exceptions are an operation that private nets alone
have, a transfer from the promotion pool and a reset account in place of an empty one. -/
theorem feePayer_authorises {ctx : Context} {s s₁ s' : Database} {op : Operation} {fee : Asset}
    (hwitnesses : s.witnesses.AgreeOn Witness.withoutVotes s₁.witnesses)
    (hhistories : s₁.ownerHistories = s.ownerHistories) (h : s₁.evaluate ctx fee op = .ok s') :
    Authorises s op op.feePayer ∨ s₁.dgp.privateNet ∨
      (∃ transferTo amount, op = .transferFromPromotionPool transferTo amount) ∨
      ∃ account resetter, op = .setResetAccount account 0 resetter := by
  cases op with
  | transfer _ _ _ _ => exact .inl (authorises_of_takesFrom rfl)
  | accountUpdate account owner active memoKey jsonMetadata =>
    refine .inl ?_
    by_cases hnone : owner.isNone ∧ active.isNone
    · exact .inl (by simp [Operation.requiredActiveAuthorities, hnone, Operation.feePayer])
    · have hsome : owner.isSome ∨ active.isSome := by
        cases owner <;> cases active <;> simp_all
      exact .inr (.inl (by simp [Operation.requiredOwnerAuthorities, hsome, Operation.feePayer]))
  | accountDelete _ | changeRecoveryAccount _ _ =>
    exact .inl (.inr (.inl (by simp [Operation.requiredOwnerAuthorities, Operation.feePayer])))
  | setResetAccount account current resetter =>
    by_cases hempty : current = 0
    · subst hempty
      exact .inr (.inr (.inr ⟨account, resetter, rfl⟩))
    · exact .inl (.inr (.inl
        (by simp [Operation.requiredOwnerAuthorities, hempty, Operation.feePayer])))
  | witnessSetProperties owner props =>
    simp only [Database.evaluate, Database.witnessSetPropertiesEvaluator, Database.getWitness,
      bind_eq_ok, orUnknownKey_eq_ok, fcAssert_eq_ok] at h
    obtain ⟨w₁, hw₁, _, hkey, _⟩ := h
    obtain ⟨w, hw, hsame⟩ := hwitnesses.exists_left hw₁
    have hsigning : w₁.withoutVotes.signingKey = w.withoutVotes.signingKey :=
      congrArg Witness.signingKey hsame
    exact .inl (.inr (.inr ⟨rfl, w, hw, hkey.trans (congrArg some hsigning)⟩))
  | recoverAccount account newOwnerAuthority recentOwnerAuthority =>
    simp only [Database.evaluate, Database.recoverAccountEvaluator, bind_eq_ok] at h
    obtain ⟨_, _, _, _, h⟩ := h
    split at h
    · cases h
    · simp only [bind_eq_ok, fcAssert_eq_ok] at h
      obtain ⟨_, _, _, hhist, _⟩ := h
      rw [hhistories] at hhist
      exact .inl (.inr (.inr ⟨rfl, hhist⟩))
  | adminWitnessUpdate owner url key props =>
    simp only [Database.evaluate, Database.adminWitnessUpdateEvaluator, bind_eq_ok,
      fcAssert_eq_ok] at h
    obtain ⟨_, hprivate, _⟩ := h
    exact .inr (.inl hprivate)
  | transferFromPromotionPool transferTo amount =>
    exact .inr (.inr (.inl ⟨transferTo, amount, rfl⟩))
  | virtual => cases h
  | _ => exact .inl (.inl (by simp [Operation.requiredActiveAuthorities]))

theorem mayPay_transferFromPromotionPool {s : Database} {transferTo name : AccountName}
    {amount : Asset} : MayPay s (.transferFromPromotionPool transferTo amount) name ↔
      name = initMinerName ∨ s.sponsors.find? initMinerName = some name := by
  simp [MayPay, Authorises, Operation.requiredActiveAuthorities,
    Operation.requiredOwnerAuthorities]

theorem mayPay_setResetAccount {s : Database} {account current resetter : AccountName} :
    MayPay s (.setResetAccount account current resetter) (s.sponsorOf account) ↔ current ≠ 0 := by
  constructor
  · intro h hempty
    subst hempty
    simp [MayPay, Authorises, Operation.requiredActiveAuthorities,
      Operation.requiredOwnerAuthorities] at h
  · intro hcurrent
    have hauth : Authorises s (.setResetAccount account current resetter) account :=
      .inr (.inl (by simp [Operation.requiredOwnerAuthorities, hcurrent]))
    exact mayPay_of_authorises hauth

/-- The account that is charged may pay, or is charged nothing, if and only if the fee is
covered. -/
theorem charged_mayPay_iff {ctx : Context} {s s₁ s' : Database} {op : FeeOperation}
    (hfee : s.processOperationFee ctx.genesis op = .ok s₁)
    (heval : s₁.evaluate ctx op.fee op.op = .ok s') :
    s.chargedFee ctx.genesis op = 0 ∨ MayPay s op.op (s.sponsorOf op.op.feePayer) ↔
      FeeCovered ctx.genesis s op := by
  obtain ⟨_, _, _, hwitnesses, hhistories, _, hprivate⟩ := processOperationFee_holdings hfee
  obtain ⟨op, fee⟩ := op
  have hauth := feePayer_authorises hwitnesses hhistories heval
  have hcharged : s.chargedFee ctx.genesis ⟨op, fee⟩ = 0 ∨ MayPay s op (s.sponsorOf op.feePayer) ∨
      (∃ transferTo amount, op = .transferFromPromotionPool transferTo amount) ∨
      ∃ account resetter, op = .setResetAccount account 0 resetter := by
    rcases hauth with hauth | hnet | hexception
    · exact .inr (.inl (mayPay_of_authorises hauth))
    · rw [hprivate] at hnet
      exact .inl (by rw [Database.chargedFee, if_pos (.inr hnet)])
    · exact .inr (.inr hexception)
  cases op with
  | transferFromPromotionPool _ _ => exact or_congr Iff.rfl mayPay_transferFromPromotionPool
  | setResetAccount _ _ _ => exact or_congr Iff.rfl mayPay_setResetAccount
  | _ =>
    refine iff_of_true ?_ trivial
    simpa only [reduceCtorEq, exists_false, or_false] using hcharged

/-- Fee and effect of an operation lower no account that does not authorise it, if and only if its
fee is covered. -/
theorem no_unauthorised_debit_iff {ctx : Context} (hskip : ctx.skip.validate = false)
    {s s₁ s' : Database} (hs : Reachable ctx s) {op : FeeOperation}
    (hvalid : op.op.validate ctx.env ctx.genesis = .ok ())
    (hfee : s.processOperationFee ctx.genesis op = .ok s₁)
    (heval : s₁.evaluate ctx op.fee op.op = .ok s') :
    (∀ name, Lowers s s₁ name ∨ Lowers s₁ s' name → MayPay s op.op name) ↔
      FeeCovered ctx.genesis s op := by
  obtain ⟨hnonneg, hbalance, hvesting, _, _, hescrows, _⟩ := processOperationFee_holdings hfee
  have hpays : Lowers s s₁ (s.sponsorOf op.op.feePayer) ↔ s.chargedFee ctx.genesis op ≠ 0 := by
    rw [Lowers, hbalance, hvesting, Pi.add_apply, Pi.single_eq_same]
    constructor
    · rintro (h | h) hzero
      · rw [hzero] at h
        simp at h
      · exact absurd h (lt_irrefl _)
    · intro hne
      have hpos := lt_of_le_of_ne hnonneg hne.symm
      exact .inl (add_lt_of_neg_right _ (neg_lt_zero.2 hpos))
  have honly : LowersOnly (fun name ↦ name = s.sponsorOf op.op.feePayer) s s₁ := by
    refine ⟨fun name hname ↦ ?_, fun name _ ↦ (congrFun hvesting name).ge⟩
    rw [hbalance, Pi.add_apply, Pi.single_eq_of_ne hname, add_zero]
  have heffect : ∀ name, Lowers s₁ s' name → MayPay s op.op name := by
    intro name hlowers
    refine .inl (authorises_of_takesFrom ((evaluate_lowersOnly ?_ hvalid heval).of_lowers hlowers))
    rw [hescrows]
    exact hs.escrows_nonNegative hskip
  rw [← charged_mayPay_iff hfee heval]
  constructor
  · intro h
    by_cases hzero : s.chargedFee ctx.genesis op = 0
    · exact .inl hzero
    · exact .inr (h _ (.inl (hpays.2 hzero)))
  · rintro h name (hlowers | hlowers)
    · have hname := honly.of_lowers hlowers
      subst hname
      exact h.resolve_left (hpays.1 hlowers)
    · exact heffect name hlowers

/-- The first block after genesis, with one operation. -/
def firstBlock (op : FeeOperation) (key : PublicKey) : SignedBlock :=
  devBlock .null 1531512803 [⟨0, 0, 1531512900, [op], [key]⟩]

/-- The state in which the operation of that block is applied. -/
def openFirst (op : FeeOperation) (key : PublicKey) : Exec Database :=
  initGenesis devGenesis >>= runStages (devContext devGenesis)
    ((SignedBlock.stages (firstBlock op key)).take 2)

theorem openFirst_reachable {op : FeeOperation} {key : PublicKey} {s : Database}
    (h : openFirst op key = .ok s) : Reachable (devContext devGenesis) s := by
  obtain ⟨s₀, hgenesis, hstages⟩ := bind_eq_ok.1 h
  have hstart : RunsFrom (devContext devGenesis) (fun _ _ ↦ True) s₀
      (some (SignedBlock.stages (firstBlock op key))) s₀ := RunsFrom.refl.start _
  rw [← List.take_append_drop 2 (SignedBlock.stages (firstBlock op key))] at hstart
  exact ⟨s₀, _, hgenesis, hstart.runStages (fun _ _ _ ↦ trivial) hstages⟩

/-- An account transfers and pays for it. -/
def transferForFee : FeeOperation :=
  ⟨.transfer 1000 initMinerName ⟨1, sophiatxSymbol⟩ [], ⟨10, sophiatxSymbol⟩⟩

theorem no_unauthorised_debit_by_transfer :
    ∃ s s₁ s', openFirst transferForFee 8 = .ok s ∧
      s.processOperationFee devGenesis transferForFee = .ok s₁ ∧
      s₁.evaluate (devContext devGenesis) transferForFee.fee transferForFee.op = .ok s' ∧
      s.balanceOf 1000 = 50 ∧ s'.balanceOf 1000 = 39 ∧
      ((∀ name, Lowers s s₁ name ∨ Lowers s₁ s' name → MayPay s transferForFee.op name) ↔
        FeeCovered devGenesis s transferForFee) := by
  have hok : okAnd (openFirst transferForFee 8) (fun s ↦ decide (s.balanceOf 1000 = 50) &&
      okAnd (s.processOperationFee devGenesis transferForFee) fun s₁ ↦
        okAnd (s₁.evaluate (devContext devGenesis) transferForFee.fee transferForFee.op) fun s' ↦
          decide (s'.balanceOf 1000 = 39)) = true := by decide +kernel
  obtain ⟨s, hs, hsteps⟩ := exists_of_okAnd hok
  rw [Bool.and_eq_true, decide_eq_true_eq] at hsteps
  obtain ⟨s₁, hfee, hrest⟩ := exists_of_okAnd hsteps.2
  obtain ⟨s', heval, hbalance⟩ := exists_of_okAnd hrest
  have hvalid : transferForFee.op.validate devEnv devGenesis = .ok () := by decide +kernel
  have hskip : (devContext devGenesis).skip.validate = false := rfl
  have hdebit := no_unauthorised_debit_iff hskip (openFirst_reachable hs) hvalid hfee heval
  exact ⟨s, s₁, s', hs, hfee, heval, hsteps.1, of_decide_eq_true hbalance, hdebit⟩

/-- The init miner transfers from the promotion pool, at the expense of the receiver. -/
def grantForFee : FeeOperation :=
  ⟨.transferFromPromotionPool 1000 ⟨1, sophiatxSymbol⟩, ⟨10, sophiatxSymbol⟩⟩

theorem unauthorised_debit_by_grant :
    ∃ s s₁ s', openFirst grantForFee devGenesis.initialPublicKey = .ok s ∧
      Reachable (devContext devGenesis) s ∧
      grantForFee.op.validate devEnv devGenesis = .ok () ∧
      s.processOperationFee devGenesis grantForFee = .ok s₁ ∧
      s₁.evaluate (devContext devGenesis) grantForFee.fee grantForFee.op = .ok s' ∧
      s.balanceOf 1000 = 50 ∧ s₁.balanceOf 1000 = 40 ∧ s'.balanceOf 1000 = 41 ∧
      ¬ MayPay s grantForFee.op 1000 := by
  have hok : okAnd (openFirst grantForFee devGenesis.initialPublicKey) (fun s ↦
      decide (s.balanceOf 1000 = 50 ∧ s.sponsors.find? initMinerName = none) &&
      okAnd (s.processOperationFee devGenesis grantForFee) fun s₁ ↦
        decide (s₁.balanceOf 1000 = 40) &&
        okAnd (s₁.evaluate (devContext devGenesis) grantForFee.fee grantForFee.op) fun s' ↦
          decide (s'.balanceOf 1000 = 41)) = true := by decide +kernel
  obtain ⟨s, hs, hsteps⟩ := exists_of_okAnd hok
  rw [Bool.and_eq_true, decide_eq_true_eq] at hsteps
  obtain ⟨⟨hbefore, hsponsor⟩, hsteps⟩ := hsteps
  obtain ⟨s₁, hfee, hrest⟩ := exists_of_okAnd hsteps
  rw [Bool.and_eq_true, decide_eq_true_eq] at hrest
  obtain ⟨s', heval, hafter⟩ := exists_of_okAnd hrest.2
  refine ⟨s, s₁, s', hs, openFirst_reachable hs, by decide +kernel, hfee, heval, hbefore, hrest.1,
    of_decide_eq_true hafter, ?_⟩
  rw [grantForFee, mayPay_transferFromPromotionPool, hsponsor]
  decide

end SophiaTX.Chain
