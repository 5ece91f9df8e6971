import SophiaTX.Chain.StageMoves

/-!
# Commerce

Most operations and most of the steps after them move money and votes around, or write to tables
that nothing else depends on. Who is who, who may sign and what the witnesses run stays as it is.
-/

namespace SophiaTX.Chain

open SophiaTX.Protocol SophiaTX.Lib

/-- The accounts that may recover and reset an account. -/
def Account.guardians (a : Account) : AccountName × AccountName :=
  (a.recoveryAccount, a.resetAccount)

structure Commerce (s s' : Database) : Prop where
  rest : s' = { s with
    dgp := { s.dgp with
      currentSupply := s'.dgp.currentSupply
      totalVestingShares := s'.dgp.totalVestingShares }
    economics := s'.economics
    accounts := s'.accounts
    witnesses := s'.witnesses
    witnessVotes := s'.witnessVotes
    feedHistories := s'.feedHistories
    escrows := s'.escrows
    applications := s'.applications
    nextApplicationId := s'.nextApplicationId
    applicationBuyings := s'.applicationBuyings
    customContents := s'.customContents
    sponsors := s'.sponsors
    bandwidths := s'.bandwidths }
  accounts : s.accounts.AgreeOn Account.guardians s'.accounts
  witnesses : s.witnesses.AgreeOn Witness.withoutVotes s'.witnesses

/-- Operations that are neither about accounts nor about witnesses themselves. -/
def Operation.IsCommerce : Operation → Prop
  | .accountCreate _ _ _ _ _ _ | .accountUpdate _ _ _ _ _ | .accountDelete _ |
    .resetAccount _ _ _ | .setResetAccount _ _ _ | .requestAccountRecovery _ _ _ |
    .recoverAccount _ _ _ | .changeRecoveryAccount _ _ | .witnessUpdate _ _ _ _ |
    .adminWitnessUpdate _ _ _ _ | .witnessStop _ | .witnessSetProperties _ _ |
    .feedPublish _ _ => False
  | _ => True

variable {ctx : Context} {g : GenesisState} {s s' : Database}

namespace Commerce

theorem refl (s : Database) : Commerce s s := ⟨rfl, .refl _, .refl _⟩

theorem trans {s₁ s₂ : Database} (h : Commerce s s₁) (h' : Commerce s₁ s₂) : Commerce s s₂ := by
  refine ⟨?_, h.accounts.trans h'.accounts, h.witnesses.trans h'.witnesses⟩
  conv_lhs => rw [h'.rest, h.rest]

/-- Neither accounts nor witnesses change, but tables that nothing else depends on. -/
theorem tables (h : s' = { s with
      dgp := { s.dgp with
        currentSupply := s'.dgp.currentSupply
        totalVestingShares := s'.dgp.totalVestingShares }
      economics := s'.economics
      witnessVotes := s'.witnessVotes
      feedHistories := s'.feedHistories
      escrows := s'.escrows
      applications := s'.applications
      nextApplicationId := s'.nextApplicationId
      applicationBuyings := s'.applicationBuyings
      customContents := s'.customContents
      sponsors := s'.sponsors
      bandwidths := s'.bandwidths }) : Commerce s s' := by
  rw [h]
  exact ⟨rfl, .refl _, .refl _⟩

theorem modifyAccount (s : Database) (name : AccountName) {f : Account → Account}
    (hf : ∀ a, s.accounts.find? name = some a → (f a).guardians = a.guardians) :
    Commerce s (s.modifyAccount name f) :=
  ⟨rfl, Table.AgreeOn.modify _ _ hf, .refl _⟩

theorem foldlM {α : Type} {f : Database → α → Exec Database} {l : List α}
    (hf : ∀ s a s', f s a = .ok s' → Commerce s s') (h : l.foldlM f s = .ok s') :
    Commerce s s' :=
  foldlM_invariant (I := Commerce s) (fun _ _ _ _ hround hs ↦ hs.trans (hf _ _ _ hround)) h
    (.refl s)

end Commerce

theorem VoteFrame.commerce (h : VoteFrame s s') : Commerce s s' := by
  refine ⟨?_, h.accounts.map Account.guardians, h.witnesses⟩
  rw [h.rest]

namespace Database

theorem adjustBalance_commerce {account : AccountName} {delta : Asset}
    (h : s.adjustBalance g account delta = .ok s') : Commerce s s' := by
  obtain ⟨_, a, ha, _, hvotes⟩ := adjustBalance_eq_ok h
  refine .trans (.modifyAccount s account fun row hrow ↦ ?_)
    (adjustProxiedWitnessVotes_frame hvotes).commerce
  rw [ha] at hrow
  cases hrow
  rfl

theorem createVesting_commerce {account : AccountName} {delta : Asset}
    (h : s.createVesting account delta = .ok s') : Commerce s s' := by
  obtain ⟨_, _, a, ha, hvotes⟩ := createVesting_eq_ok h
  refine .trans (.modifyAccount s account fun row hrow ↦ ?_)
    (adjustProxiedWitnessVotes_frame hvotes).commerce
  rw [ha] at hrow
  cases hrow
  rfl

theorem adjustSupply_commerce {delta : Asset} (h : s.adjustSupply g delta = .ok s') :
    Commerce s s' := by
  obtain ⟨_, _, rfl⟩ := adjustSupply_eq_ok h
  exact .tables rfl

theorem vest_commerce {account : AccountName} {delta : ShareType}
    (h : s.vest account delta = .ok s') : Commerce s s' := by
  obtain ⟨a, ha, _, rfl⟩ := vest_eq_ok h
  have hshares : Commerce s { s with dgp := { s.dgp with
    totalVestingShares := s.dgp.totalVestingShares + delta } } := .tables rfl
  refine hshares.trans (.modifyAccount _ account fun row hrow ↦ ?_)
  rw [ha] at hrow
  cases hrow
  rfl

theorem payFee_commerce {account : AccountName} {fee : Asset}
    (h : s.payFee g account fee = .ok s') : Commerce s s' := by
  simp only [payFee, bind_eq_ok] at h
  obtain ⟨_, _, h⟩ := h
  split at h
  · exact pure_eq_ok.1 h ▸ .refl _
  · simp only [bind_eq_ok, pure_eq_ok] at h
    obtain ⟨_, _, _, _, _, _, _, _, s₁, hbalance, s₂, hsupply, _, _, rfl⟩ := h
    have hs₂ := (adjustBalance_commerce hbalance).trans (adjustSupply_commerce hsupply)
    exact hs₂.trans (.tables rfl)

theorem processOperationFee_commerce {op : FeeOperation}
    (h : s.processOperationFee g op = .ok s') : Commerce s s' := by
  unfold processOperationFee at h
  split at h
  · exact pure_eq_ok.1 h ▸ .refl _
  · simp only [bind_eq_ok] at h
    obtain ⟨_, _, _, _, _, _, _, _, _, _, _, _, hpay⟩ := h
    exact payFee_commerce hpay

/-! ## Evaluators -/

theorem transferEvaluator_commerce {fromAccount toAccount : AccountName} {amount : Asset}
    (h : s.transferEvaluator g fromAccount toAccount amount = .ok s') : Commerce s s' := by
  simp only [transferEvaluator, bind_eq_ok] at h
  obtain ⟨_, _, _, _, _, _, _, _, _, _, s₁, hpay, hreceive⟩ := h
  exact (adjustBalance_commerce hpay).trans (adjustBalance_commerce hreceive)

theorem transferToVestingEvaluator_commerce {fromAccount toAccount : AccountName} {amount : Asset}
    (h : s.transferToVestingEvaluator g fromAccount toAccount amount = .ok s') : Commerce s s' := by
  simp only [transferToVestingEvaluator, bind_eq_ok] at h
  obtain ⟨_, _, _, _, _, _, _, _, _, _, h⟩ := h
  split at h
  · exact vest_commerce h
  · simp only [bind_eq_ok] at h
    obtain ⟨_, _, s₁, hpay, s₂, hreceive, hvest⟩ := h
    exact ((adjustBalance_commerce hpay).trans (adjustBalance_commerce hreceive)).trans
      (vest_commerce hvest)

theorem withdrawVestingEvaluator_commerce {account : AccountName} {vestingShares : Asset}
    (h : s.withdrawVestingEvaluator account vestingShares = .ok s') : Commerce s s' := by
  obtain ⟨_, a, rate, next, _, _, _, _, rfl⟩ := withdrawVestingEvaluator_eq_ok h
  exact .modifyAccount s account fun _ _ ↦ rfl

theorem escrowTransferEvaluator_commerce {fromAccount toAccount agent : AccountName}
    {escrowId : ℕ} {sophiatxAmount escrowFee : Asset} {ratificationDeadline escrowExpiration : Time}
    (h : s.escrowTransferEvaluator g fromAccount toAccount agent escrowId sophiatxAmount escrowFee
      ratificationDeadline escrowExpiration = .ok s') : Commerce s s' := by
  simp only [escrowTransferEvaluator, bind_eq_ok, pure_eq_ok] at h
  obtain ⟨_, _, _, _, _, _, _, _, _, _, _, _, _, _, _, _, _, _, _, _, s₁, hpay, escrows,
    _, rfl⟩ := h
  exact (adjustBalance_commerce hpay).trans (.tables rfl)

theorem refundEscrow_commerce {key : AccountName × ℕ} {e : Escrow}
    (h : s.refundEscrow g key e = .ok s') : Commerce s s' := by
  simp only [refundEscrow, bind_eq_ok, pure_eq_ok] at h
  obtain ⟨s₁, hamount, s₂, hfee, rfl⟩ := h
  exact ((adjustBalance_commerce hamount).trans (adjustBalance_commerce hfee)).trans (.tables rfl)

theorem escrowApproveEvaluator_commerce {fromAccount toAccount agent who : AccountName}
    {escrowId : ℕ} {approve : Bool}
    (h : s.escrowApproveEvaluator g fromAccount toAccount agent who escrowId approve = .ok s') :
    Commerce s s' := by
  simp only [escrowApproveEvaluator, bind_eq_ok] at h
  obtain ⟨_, _, _, _, _, _, _, _, _, _, _, _, _, _, h⟩ := h
  split at h
  · exact refundEscrow_commerce h
  · split at h
    · simp only [bind_eq_ok, pure_eq_ok] at h
      obtain ⟨s₁, hpay, rfl⟩ := h
      exact (adjustBalance_commerce hpay).trans (.tables rfl)
    · cases h
      exact .tables rfl

theorem escrowDisputeEvaluator_commerce {fromAccount toAccount agent : AccountName} {escrowId : ℕ}
    (h : s.escrowDisputeEvaluator fromAccount toAccount agent escrowId = .ok s') :
    Commerce s s' := by
  simp only [escrowDisputeEvaluator, bind_eq_ok, pure_eq_ok] at h
  obtain ⟨_, _, _, _, _, _, _, _, _, _, _, _, _, _, _, _, rfl⟩ := h
  exact .tables rfl

theorem escrowReleaseEvaluator_commerce {fromAccount toAccount agent who receiver : AccountName}
    {escrowId : ℕ} {sophiatxAmount : Asset}
    (h : s.escrowReleaseEvaluator g fromAccount toAccount agent who receiver escrowId
      sophiatxAmount = .ok s') : Commerce s s' := by
  simp only [escrowReleaseEvaluator, bind_eq_ok] at h
  obtain ⟨_, _, _, _, _, _, _, _, _, _, _, _, _, _, _, _, _, _, _, _, s₁, hpay, _, _, h⟩ := h
  refine (adjustBalance_commerce hpay).trans ?_
  split at h <;> cases h <;> exact .tables rfl

theorem transferFromPromotionPoolEvaluator_commerce {transferTo : AccountName} {amount : Asset}
    (h : s.transferFromPromotionPoolEvaluator g transferTo amount = .ok s') : Commerce s s' := by
  simp only [transferFromPromotionPoolEvaluator, bind_eq_ok, Prod.exists] at h
  obtain ⟨_, _, _, _, _, _, economics, _, _, s₁, hpay, hsupply⟩ := h
  have hpools : Commerce s { s with economics := economics } := .tables rfl
  exact (hpools.trans (adjustBalance_commerce hpay)).trans (adjustSupply_commerce hsupply)

theorem accountWitnessProxyEvaluator_commerce {account proxy : AccountName}
    (h : s.accountWitnessProxyEvaluator account proxy = .ok s') : Commerce s s' := by
  simp only [accountWitnessProxyEvaluator, bind_eq_ok] at h
  obtain ⟨_, _, a, _, _, _, delta, _, s₁, hremove, h⟩ := h
  have hs₁ := (adjustProxiedWitnessVotesArray_frame hremove).commerce
  split at h
  · simp only [bind_eq_ok] at h
    obtain ⟨_, _, _, _, _, _, hadd⟩ := h
    have hclear : Commerce s₁ (s₁.clearWitnessVotes account) :=
      ⟨rfl, Table.AgreeOn.modify _ _ fun _ _ ↦ rfl, .refl _⟩
    have hproxy := Commerce.modifyAccount (s₁.clearWitnessVotes account) account
      (f := fun a ↦ { a with proxy := proxy }) fun _ _ ↦ rfl
    exact ((hs₁.trans hclear).trans hproxy).trans
      (adjustProxiedWitnessVotesArray_frame hadd).commerce
  · rw [pure_eq_ok] at h
    exact h ▸ hs₁.trans (.modifyAccount _ _ fun _ _ ↦ rfl)

theorem accountWitnessVoteEvaluator_commerce {account witness : AccountName} {approve : Bool}
    (h : s.accountWitnessVoteEvaluator g account witness approve = .ok s') : Commerce s s' := by
  simp only [accountWitnessVoteEvaluator, bind_eq_ok] at h
  obtain ⟨_, _, voter, _, _, _, _, _, h⟩ := h
  split at h
  · simp only [bind_eq_ok, pure_eq_ok] at h
    obtain ⟨_, _, _, _, votes, _, weight, _, s₁, hvote, rfl⟩ := h
    have hcreate : Commerce s { s with witnessVotes := votes } := .tables rfl
    exact (hcreate.trans (adjustWitnessVote_frame hvote).commerce).trans
      (.modifyAccount _ _ fun _ _ ↦ rfl)
  · simp only [bind_eq_ok, pure_eq_ok] at h
    obtain ⟨_, _, weight, _, _, _, s₁, hvote, rfl⟩ := h
    have hcount := Commerce.modifyAccount s₁ account (f := fun a ↦
      { a with witnessesVotedFor := (a.witnessesVotedFor + 65535) % 65536 }) fun _ _ ↦ by
        rw [Account.guardians, Account.guardians]
    exact ((adjustWitnessVote_frame hvote).commerce.trans hcount).trans (.tables rfl)

theorem sponsorFeesEvaluator_commerce {sponsor sponsored : AccountName} {isSponsoring : Bool}
    (h : s.sponsorFeesEvaluator sponsor sponsored isSponsoring = .ok s') : Commerce s s' := by
  simp only [sponsorFeesEvaluator, bind_eq_ok] at h
  obtain ⟨_, _, h⟩ := h
  split at h
  · simp only [bind_eq_ok, pure_eq_ok] at h
    obtain ⟨_, _, rfl⟩ := h
    exact .tables rfl
  · simp only [bind_eq_ok] at h
    obtain ⟨_, _, _, _, h⟩ := h
    split at h
    · simp only [bind_eq_ok, pure_eq_ok] at h
      obtain ⟨_, _, _, _, rfl⟩ := h
      exact .tables rfl
    · simp only [bind_eq_ok, pure_eq_ok] at h
      obtain ⟨_, _, rfl⟩ := h
      exact .tables rfl

theorem evaluate_commerce {fee : Asset} {op : Operation} (h : s.evaluate ctx fee op = .ok s')
    (hop : Operation.IsCommerce op) : Commerce s s' := by
  cases op with
  | transfer _ _ _ _ => exact transferEvaluator_commerce h
  | transferToVesting _ _ _ => exact transferToVestingEvaluator_commerce h
  | withdrawVesting _ _ => exact withdrawVestingEvaluator_commerce h
  | accountWitnessVote _ _ _ => exact accountWitnessVoteEvaluator_commerce h
  | accountWitnessProxy _ _ => exact accountWitnessProxyEvaluator_commerce h
  | escrowTransfer _ _ _ _ _ _ _ _ _ => exact escrowTransferEvaluator_commerce h
  | escrowDispute _ _ _ _ _ => exact escrowDisputeEvaluator_commerce h
  | escrowRelease _ _ _ _ _ _ _ => exact escrowReleaseEvaluator_commerce h
  | escrowApprove _ _ _ _ _ _ => exact escrowApproveEvaluator_commerce h
  | transferFromPromotionPool _ _ => exact transferFromPromotionPoolEvaluator_commerce h
  | sponsorFees _ _ _ => exact sponsorFeesEvaluator_commerce h
  | virtual => cases h
  | custom _ _ _ _ => exact pure_eq_ok.1 h ▸ .refl _
  | customJson _ _ _ _ | customBinary _ _ _ _ =>
    cases h
    exact .tables rfl
  | applicationCreate _ _ _ _ _ =>
    simp only [evaluate, applicationCreateEvaluator, bind_eq_ok, pure_eq_ok] at h
    obtain ⟨_, _, _, _, rfl⟩ := h
    exact .tables rfl
  | applicationUpdate _ _ _ _ _ _ =>
    simp only [evaluate, applicationUpdateEvaluator, bind_eq_ok, pure_eq_ok] at h
    obtain ⟨_, _, _, _, _, _, rfl⟩ := h
    exact .tables rfl
  | applicationDelete _ _ =>
    simp only [evaluate, applicationDeleteEvaluator, bind_eq_ok, pure_eq_ok] at h
    obtain ⟨_, _, _, _, rfl⟩ := h
    exact .tables rfl
  | buyApplication _ _ =>
    simp only [evaluate, buyApplicationEvaluator, bind_eq_ok, pure_eq_ok] at h
    obtain ⟨_, _, _, _, _, _, _, _, rfl⟩ := h
    exact .tables rfl
  | cancelApplicationBuying _ _ _ =>
    simp only [evaluate, cancelApplicationBuyingEvaluator, bind_eq_ok, pure_eq_ok] at h
    obtain ⟨_, _, _, _, _, _, _, _, rfl⟩ := h
    exact .tables rfl
  | _ => exact absurd hop id

/-! ## Stages -/

theorem closeTransaction_commerce {trx : Transaction} (h : s.closeTransaction ctx trx = .ok s') :
    Commerce s s' := by
  simp only [closeTransaction] at h
  split at h
  · refine Commerce.foldlM (fun s₁ account s₂ hround ↦ ?_) h
    simp only [updateAccountBandwidth, bind_eq_ok, pure_eq_ok] at hround
    obtain ⟨_, _, _, _, _, _, rfl⟩ := hround
    exact .tables rfl
  · exact pure_eq_ok.1 h ▸ .refl _

theorem updateMedianFeeds_commerce (h : s.updateMedianFeeds g = .ok s') : Commerce s s' := by
  unfold updateMedianFeeds at h
  split at h
  · cases h
  · split at h
    · exact pure_eq_ok.1 h ▸ .refl _
    · simp only [bind_eq_ok] at h
      obtain ⟨feeds, _, h⟩ := h
      refine Commerce.foldlM (fun s₁ symbol s₂ hround ↦ ?_) h
      simp only [updateMedianFeed] at hround
      split at hround
      · simp only [bind_eq_ok, pure_eq_ok] at hround
        obtain ⟨_, _, _, _, rfl⟩ := hround
        exact .tables rfl
      · exact pure_eq_ok.1 hround ▸ .refl _

theorem payInterest_commerce {name : AccountName} {a : Account} {interest : ShareType}
    (h : s.payInterest g name a = .ok (s', interest)) : Commerce s s' := by
  obtain ⟨economics, s₁, a₁, _, hvotes, _, rfl⟩ := payInterest_eq_ok h
  have hpools : Commerce s { s with economics := economics } := .tables rfl
  have hs₁ : Commerce s s₁ := by
    split at hvotes
    · exact hpools.trans (adjustProxiedWitnessVotes_frame hvotes).commerce
    · exact pure_eq_ok.1 hvotes ▸ hpools
  exact hs₁.trans (.modifyAccount _ _ fun _ _ ↦ rfl)

theorem payInterests_commerce {rounds id : ℕ} {supplyIncrease total : ShareType}
    (h : payInterests g rounds id s supplyIncrease = .ok (s', total)) : Commerce s s' := by
  induction rounds generalizing id s supplyIncrease with
  | zero =>
    cases h
    exact .refl _
  | succ rounds ih =>
    unfold payInterests at h
    split at h
    · cases h
      exact .refl _
    · simp only [bind_eq_ok, Prod.exists] at h
      obtain ⟨s₁, interest, hpay, _, _, h⟩ := h
      exact (payInterest_commerce hpay).trans (ih h)

theorem processInterests_commerce (h : s.processInterests g = .ok s') : Commerce s s' := by
  simp only [processInterests, bind_eq_ok, Prod.exists] at h
  obtain ⟨s₁, total, hpay, hsupply⟩ := h
  exact (payInterests_commerce hpay).trans (adjustSupply_commerce hsupply)

theorem clearNullAccountBalance_commerce (h : s.clearNullAccountBalance g = .ok s') :
    Commerce s s' := by
  simp only [clearNullAccountBalance, bind_eq_ok, Prod.exists] at h
  obtain ⟨a, _, s₁, liquid, hliquid, s₂, total, hvesting, h⟩ := h
  have hs₁ : Commerce s s₁ := by
    unfold clearNullLiquid at hliquid
    split at hliquid
    · simp only [bind_eq_ok, pure_eq_ok, Prod.mk.injEq] at hliquid
      obtain ⟨_, _, s₃, hbalance, rfl, _⟩ := hliquid
      exact adjustBalance_commerce hbalance
    · cases hliquid
      exact .refl s
  have hs₂ : Commerce s₁ s₂ := by
    unfold clearNullVesting at hvesting
    split at hvesting
    · simp only [bind_eq_ok, pure_eq_ok, Prod.mk.injEq] at hvesting
      obtain ⟨shares, _, _, _, rfl, _⟩ := hvesting
      have hshares : Commerce s₁ { s₁ with
        dgp := { s₁.dgp with totalVestingShares := shares } } := .tables rfl
      exact hshares.trans (.modifyAccount _ _ fun _ _ ↦ rfl)
    · cases hvesting
      exact .refl s₁
  have hs' : Commerce s₂ s' := by
    split at h
    · simp only [bind_eq_ok] at h
      obtain ⟨_, _, hsupply⟩ := h
      exact adjustSupply_commerce hsupply
    · exact pure_eq_ok.1 h ▸ .refl _
  exact (hs₁.trans hs₂).trans hs'

theorem processFunds_commerce {blockNum : ℕ} (h : s.processFunds g blockNum = .ok s') :
    Commerce s s' := by
  simp only [processFunds, bind_eq_ok, Prod.exists, pure_eq_ok] at h
  obtain ⟨w, _, economics, reward, _, s₁, hvesting, _, _, _, _, rfl⟩ := h
  have hpools : Commerce s { s with economics := economics } := .tables rfl
  exact (hpools.trans (createVesting_commerce hvesting)).trans (.tables rfl)

theorem processVestingWithdrawal_commerce {name : AccountName} {a : Account}
    (ha : s.accounts.find? name = some a) (h : s.processVestingWithdrawal name a = .ok s') :
    Commerce s s' := by
  obtain ⟨toWithdraw, _, _, _, _, rfl⟩ := processVestingWithdrawal_eq_ok h
  have hshares : Commerce s { s with dgp := { s.dgp with
    totalVestingShares := s.dgp.totalVestingShares - toWithdraw } } := .tables rfl
  refine hshares.trans (.modifyAccount _ _ fun row hrow ↦ ?_)
  rw [show s.accounts.find? name = some row from hrow, Option.some.injEq] at ha
  rw [ha]
  rfl

theorem processVestingWithdrawals_commerce (h : s.processVestingWithdrawals = .ok s') :
    Commerce s s' :=
  processVestingWithdrawals_invariant (I := Commerce s)
    (fun _ _ _ _ ha _ hpay hs₁ ↦ hs₁.trans (processVestingWithdrawal_commerce ha hpay)) h
    (.refl s)

theorem expireEscrowRatification_commerce (h : s.expireEscrowRatification g = .ok s') :
    Commerce s s' :=
  Commerce.foldlM (fun _ _ _ hround ↦ refundEscrow_commerce hround) h

end Database

end SophiaTX.Chain
