import SophiaTX.Chain.Conservation

/-!
# Operations as moves

Every operation that succeeds is a run of moves whose effects on the books cancel. Which moves
other than payments a stage of a block may make is fixed by the stage.
-/

namespace SophiaTX.Chain

open SophiaTX.Protocol SophiaTX.Lib

/-- The escrow an operation is about. -/
def Operation.escrowKey : Operation → Option (AccountName × ℕ)
  | .escrowTransfer fromAccount _ _ escrowId _ _ _ _ _ => some (fromAccount, escrowId)
  | .escrowApprove fromAccount _ _ _ escrowId _ => some (fromAccount, escrowId)
  | .escrowDispute fromAccount _ _ _ escrowId => some (fromAccount, escrowId)
  | .escrowRelease fromAccount _ _ _ _ escrowId _ => some (fromAccount, escrowId)
  | _ => none

def Stage.HandlesEscrow (stage : Stage) (key : AccountName × ℕ) : Prop :=
  ∃ trx op, stage = .operation trx op ∧ Operation.escrowKey op.op = some key

/-- The moves a stage may make. Payments and bookkeeping may occur anywhere. -/
def Stage.Allows (stage : Stage) : Move → Prop
  | .createEscrow key _ => stage.HandlesEscrow key
  | .changeEscrow key _ _ => stage.HandlesEscrow key
  | .removeEscrow key _ => stage.HandlesEscrow key ∨ stage = .expireEscrowRatification
  | .setWithdrawal account amount =>
    ∃ trx op, stage = .operation trx op ∧ op.op = .withdrawVesting account ⟨amount, vestsSymbol⟩
  | .changeProxy account proxy =>
    ∃ trx op, stage = .operation trx op ∧ op.op = .accountWitnessProxy account proxy
  | .changeVote account witness approve =>
    ∃ trx op, stage = .operation trx op ∧ op.op = .accountWitnessVote account witness approve
  | .advanceHead num => ∃ b, stage = .updateGlobalDynamicData b ∧ num = b.blockNum
  | .confirmBlock witness num =>
    ∃ b, stage = .updateSigningWitness b ∧ witness = b.witness ∧ num = b.blockNum
  | .setIrreversible _ => stage = .updateLastIrreversibleBlock
  | .payInterest _ _ => stage = .processInterests
  | .burnVesting _ => stage = .clearNullAccountBalance
  | .payWithdrawal _ => stage = .processVestingWithdrawals
  | .applyHardfork _ => (∃ b, stage = .openBlock b) ∨ stage = .processHardforks
  | .recordBlock num => ∃ b, stage = .recordBlock b ∧ num = b.blockNum
  | _ => True

/-- A transition made of moves the stage may make, with the sum of their effects. -/
def Explained (g : GenesisState) (stage : Stage) (effect : ShareType × ShareType × ShareType)
    (s s' : Database) : Prop :=
  ∃ ms, Moves g s ms s' ∧ (∀ m ∈ ms, stage.Allows m) ∧ (ms.map Move.effect).sum = effect

namespace Explained

variable {g : GenesisState} {stage : Stage} {s s₁ s' : Database}
  {effect effect' : ShareType × ShareType × ShareType}

theorem refl (s : Database) : Explained g stage 0 s s :=
  ⟨[], .nil s, by simp, rfl⟩

theorem single {m : Move} (h : m.Step g s s') (hm : stage.Allows m) :
    Explained g stage m.effect s s' :=
  ⟨[m], .single h, by simpa using hm, by simp⟩

theorem trans (h : Explained g stage effect s s₁) (h' : Explained g stage effect' s₁ s') :
    Explained g stage (effect + effect') s s' := by
  obtain ⟨ms, hms, hallowed, rfl⟩ := h
  obtain ⟨ms', hms', hallowed', rfl⟩ := h'
  refine ⟨ms ++ ms', hms.trans hms', ?_, by simp⟩
  intro m hm
  rcases List.mem_append.1 hm with hm | hm
  · exact hallowed m hm
  · exact hallowed' m hm

theorem cast (h : Explained g stage effect s s') (heffect : effect = effect') :
    Explained g stage effect' s s' := heffect ▸ h

theorem sound (h : Explained g stage effect s s') (hs : Sound s) : Sound s' := by
  obtain ⟨ms, hms, _⟩ := h
  exact hms.sound hs

theorem gaps_eq (h : Explained g stage effect s s') (hs : Sound s) :
    s'.gaps = s.gaps + effect := by
  obtain ⟨ms, hms, _, rfl⟩ := h
  exact hms.gaps_eq hs

theorem frame (h : Frame s s') : Explained g stage 0 s s' :=
  single (m := .bookkeeping) h trivial

theorem adjustBalance {account : AccountName} {delta : Asset}
    (h : s.adjustBalance g account delta = .ok s') :
    Explained g stage (-delta.amount, 0, 0) s s' := by
  have hsymbol := (Database.adjustBalance_eq_ok h).1
  refine single (m := .adjustBalance account delta.amount) ?_ trivial
  rwa [Move.Step, ← hsymbol]

theorem adjustSupply {delta : Asset} (h : s.adjustSupply g delta = .ok s') :
    Explained g stage (delta.amount, 0, delta.amount) s s' := by
  have hsymbol := (Database.adjustSupply_eq_ok h).1
  refine single (m := .adjustSupply delta.amount) ?_ trivial
  rwa [Move.Step, ← hsymbol]

theorem changePools {economics : EconomicModel} {amount : ShareType}
    (hpools : economics.poolTotal = s.economics.poolTotal + amount)
    (hhistory : s.economics.SameHistory economics) :
    Explained g stage (0, 0, amount) s { s with economics := economics } :=
  single (m := .changePools amount) ⟨rfl, hpools, hhistory⟩ trivial

theorem changeEscrow {key : AccountName × ℕ} {e e' : Escrow} (hstage : stage.HandlesEscrow key)
    (he : s.escrows.find? key = some e)
    (hsettled : e.Settled → e'.Settled) (hnonneg : e.NonNegative → e'.NonNegative) :
    Explained g stage (e.total - e'.total, 0, 0) s (s.modifyEscrow key fun _ ↦ e') :=
  single (m := .changeEscrow key e e') ⟨he, hsettled, hnonneg, rfl⟩ hstage

theorem payFee {account : AccountName} {fee : Asset} (h : s.payFee g account fee = .ok s') :
    Explained g stage 0 s s' := by
  simp only [Database.payFee, bind_eq_ok] at h
  obtain ⟨_, _, h⟩ := h
  split at h
  · exact pure_eq_ok.1 h ▸ refl s
  · simp only [Asset.neg, safeNeg, bind_eq_ok, checked_eq_ok, pure_eq_ok] at h
    obtain ⟨_, _, a, _, _, _, negated, ⟨_, ⟨_, rfl⟩, rfl⟩, s₁, hbalance, s₂, hsupply, economics,
      hpools, rfl⟩ := h
    obtain ⟨hpools, hhistory⟩ := EconomicModel.addFee_eq_ok hpools
    refine (((adjustBalance hbalance).trans (adjustSupply hsupply)).trans
      (changePools hpools hhistory)).cast ?_
    simp

end Explained

namespace Database

variable {ctx : Context} {g : GenesisState} {s s' : Database} {stage : Stage}

/-! ## Operations that move money -/

theorem processOperationFee_explained {op : FeeOperation}
    (h : s.processOperationFee g op = .ok s') : Explained g stage 0 s s' := by
  unfold processOperationFee at h
  split at h
  · exact pure_eq_ok.1 h ▸ .refl s
  · simp only [bind_eq_ok] at h
    obtain ⟨_, _, _, _, _, _, _, _, _, _, _, _, hpay⟩ := h
    exact .payFee hpay

theorem transferEvaluator_explained {fromAccount toAccount : AccountName} {amount : Asset}
    (h : s.transferEvaluator g fromAccount toAccount amount = .ok s') :
    Explained g stage 0 s s' := by
  simp only [transferEvaluator, Asset.neg, safeNeg, bind_eq_ok, checked_eq_ok, pure_eq_ok] at h
  obtain ⟨_, _, a, _, _, _, _, _, _, ⟨_, ⟨_, rfl⟩, rfl⟩, s₁, hfrom, hto⟩ := h
  refine ((Explained.adjustBalance hfrom).trans (.adjustBalance hto)).cast ?_
  simp

theorem transferToVestingEvaluator_explained {fromAccount toAccount : AccountName}
    {amount : Asset} (hamount : 0 ≤ amount.amount)
    (h : s.transferToVestingEvaluator g fromAccount toAccount amount = .ok s') :
    Explained g stage 0 s s' := by
  simp only [transferToVestingEvaluator, Asset.neg, safeNeg, bind_eq_ok] at h
  obtain ⟨_, _, a, _, b, _, _, _, _, _, h⟩ := h
  split at h
  · exact .single (m := .vest fromAccount amount.amount) ⟨hamount, h⟩ trivial
  · simp only [bind_eq_ok, checked_eq_ok, pure_eq_ok] at h
    obtain ⟨_, ⟨_, ⟨_, rfl⟩, rfl⟩, s₁, hfrom, s₂, hto, hvest⟩ := h
    refine (((Explained.adjustBalance hfrom).trans (.adjustBalance hto)).trans
      (.single (m := .vest _ amount.amount) ⟨hamount, hvest⟩ trivial)).cast ?_
    simp [Move.effect]

theorem transferFromPromotionPoolEvaluator_explained {transferTo : AccountName} {amount : Asset}
    (h : s.transferFromPromotionPoolEvaluator g transferTo amount = .ok s') :
    Explained g stage 0 s s' := by
  simp only [transferFromPromotionPoolEvaluator, bind_eq_ok, Prod.exists] at h
  obtain ⟨_, _, _, _, _, _, economics, withdrawn, hwithdraw, s₁, hbalance, hsupply⟩ := h
  obtain ⟨_, hpools, hhistory⟩ := EconomicModel.withdrawFromPromotionPool_eq_ok hwithdraw
  rw [sub_eq_add_neg] at hpools
  refine (((Explained.changePools hpools hhistory).trans (.adjustBalance hbalance)).trans
    (.adjustSupply hsupply)).cast ?_
  simp

theorem escrowTransferEvaluator_explained {fromAccount toAccount agent : AccountName}
    {escrowId : ℕ} {sophiatxAmount escrowFee : Asset} {ratificationDeadline escrowExpiration : Time}
    (hstage : stage.HandlesEscrow (fromAccount, escrowId)) (hamount : 0 ≤ sophiatxAmount.amount)
    (hfee : 0 ≤ escrowFee.amount)
    (hsymbol : escrowFee.symbol = sophiatxAmount.symbol)
    (h : s.escrowTransferEvaluator g fromAccount toAccount agent escrowId sophiatxAmount escrowFee
      ratificationDeadline escrowExpiration = .ok s') : Explained g stage 0 s s' := by
  simp only [escrowTransferEvaluator, Asset.neg, safeNeg, bind_eq_ok, checked_eq_ok, pure_eq_ok,
    fcAssert_eq_ok, createRow_eq_ok] at h
  obtain ⟨_, _, a, _, _, _, _, _, _, _, _, _, spent, hspent, _, hspentSymbol, _, _, _,
    ⟨_, ⟨_, rfl⟩, rfl⟩, s₁, hbalance, escrows, hescrows, rfl⟩ := h
  have hspentAmount : spent.amount = sophiatxAmount.amount + escrowFee.amount := by
    split at hspent
    · simp only [Asset.add, safeAdd, bind_eq_ok, checked_eq_ok, pure_eq_ok] at hspent
      obtain ⟨_, _, _, ⟨_, rfl⟩, rfl⟩ := hspent
      rfl
    · rename_i hforeign
      cases hspent
      exact absurd (hsymbol.trans hspentSymbol) hforeign
  refine ((Explained.adjustBalance hbalance).trans
    (.single (m := .createEscrow _ _) ⟨rfl, ⟨hamount, hfee⟩, hescrows, rfl⟩ hstage)).cast ?_
  simp [Move.effect, Escrow.total, hspentAmount]

/-- Paying both amounts of an escrow back and removing it. -/
theorem refundEscrow_explained {key : AccountName × ℕ} {e : Escrow}
    (hstage : stage.Allows (.removeEscrow key e)) (he : s.escrows.find? key = some e)
    (h : s.refundEscrow g key e = .ok s') :
    Explained g stage 0 s s' ∧ s'.escrows = s.escrows.erase key := by
  simp only [refundEscrow, bind_eq_ok, pure_eq_ok] at h
  obtain ⟨s₁, hamount, s₂, hfee, rfl⟩ := h
  have hescrows : s₂.escrows = s.escrows :=
    (adjustBalance_escrows hfee).trans (adjustBalance_escrows hamount)
  refine ⟨?_, by rw [hescrows]⟩
  refine (((Explained.adjustBalance hamount).trans (.adjustBalance hfee)).trans
    (.single (m := .removeEscrow key e) ⟨by rw [hescrows]; exact he, rfl⟩ hstage)).cast ?_
  simp [Move.effect, Escrow.total]
  ring

theorem escrowApproveEvaluator_explained {fromAccount toAccount agent who : AccountName}
    {escrowId : ℕ} {approve : Bool} (hstage : stage.HandlesEscrow (fromAccount, escrowId))
    (h : s.escrowApproveEvaluator g fromAccount toAccount agent who escrowId approve = .ok s') :
    Explained g stage 0 s s' := by
  simp only [escrowApproveEvaluator, getEscrow, bind_eq_ok, orUnknownKey_eq_ok] at h
  obtain ⟨_, _, e, he, _, _, _, _, _, _, _, _, _, _, h⟩ := h
  split at h
  · exact (refundEscrow_explained (.inl hstage) he h).1
  · split at h
    · -- The last approval pays the agent.
      simp only [bind_eq_ok, pure_eq_ok] at h
      obtain ⟨s₁, hfee, rfl⟩ := h
      have he₁ : s₁.escrows.find? (fromAccount, escrowId) = some e := by
        rw [adjustBalance_escrows hfee]
        exact he
      refine .cast (.trans (.adjustBalance hfee) (.changeEscrow hstage he₁ ?_ ?_)) ?_
      · exact fun _ _ ↦ rfl
      · exact fun hnonneg ↦ ⟨hnonneg.1, le_rfl⟩
      · simp [Escrow.total]
    · rename_i hpending
      rw [pure_eq_ok] at h
      subst h
      refine .cast (.changeEscrow hstage he ?_ ?_) ?_
      · exact fun _ happroved ↦ absurd happroved hpending
      · exact id
      · simp [Escrow.total]

theorem escrowDisputeEvaluator_explained {fromAccount toAccount agent : AccountName}
    {escrowId : ℕ} (hstage : stage.HandlesEscrow (fromAccount, escrowId))
    (h : s.escrowDisputeEvaluator fromAccount toAccount agent escrowId = .ok s') :
    Explained g stage 0 s s' := by
  simp only [escrowDisputeEvaluator, getEscrow, bind_eq_ok, orUnknownKey_eq_ok, pure_eq_ok] at h
  obtain ⟨_, _, _, _, e, he, _, _, _, _, _, _, _, _, _, _, rfl⟩ := h
  refine .cast (.changeEscrow hstage he ?_ ?_) ?_
  · exact id
  · exact id
  · simp [Escrow.total]

theorem escrowReleaseEvaluator_explained {fromAccount toAccount agent who receiver : AccountName}
    {escrowId : ℕ} {sophiatxAmount : Asset} (hs : Sound s)
    (hstage : stage.HandlesEscrow (fromAccount, escrowId))
    (h : s.escrowReleaseEvaluator g fromAccount toAccount agent who receiver escrowId
      sophiatxAmount = .ok s') : Explained g stage 0 s s' := by
  simp only [escrowReleaseEvaluator, getEscrow, Asset.sub, safeSub, bind_eq_ok, orUnknownKey_eq_ok,
    fcAssert_eq_ok, checked_eq_ok, pure_eq_ok] at h
  obtain ⟨_, _, _, _, e, he, _, _, _, hamount, _, _, _, _, _, _, _, happroved, _, _, s₁, hbalance,
    _, ⟨_, _, _, ⟨_, rfl⟩, rfl⟩, h⟩ := h
  have he₁ : s₁.escrows.find? (fromAccount, escrowId) = some e := by
    rw [adjustBalance_escrows hbalance]
    exact he
  split at h
  · rename_i hempty
    rw [pure_eq_ok] at h
    refine ((Explained.adjustBalance hbalance).trans
      (.single (m := .removeEscrow _ e) ⟨he₁, h.symm⟩ (.inl hstage))).cast ?_
    -- Nothing else is left in the escrow: its agent has been paid.
    have hpaid : e.pendingFee.amount = 0 := hs.settled _ e he happroved
    have hall : sophiatxAmount.amount = e.sophiatxBalance.amount := (sub_eq_zero.1 hempty).symm
    simp [Move.effect, Escrow.total, hpaid, hall]
  · rw [pure_eq_ok] at h
    subst h
    refine .cast (.trans (.adjustBalance hbalance) (.changeEscrow hstage he₁ ?_ ?_)) ?_
    · exact id
    · exact fun hnonneg ↦ ⟨sub_nonneg.2 hamount, hnonneg.2⟩
    · simp [Escrow.total]

theorem accountCreateEvaluator_explained {fee : Asset} {creator : AccountName} {nameSeed : Bytes}
    {owner active : Authority} {memoKey : PublicKey} {jsonMetadata : Bytes}
    (h : s.accountCreateEvaluator ctx fee creator nameSeed owner active memoKey jsonMetadata =
      .ok s') : Explained ctx.genesis stage 0 s s' := by
  simp only [accountCreateEvaluator, bind_eq_ok, createRow_eq_ok] at h
  obtain ⟨a, _, toPay, _, _, _, _, _, _, _, _, _, excess, _, _, _, _, _, accounts, haccounts,
    authorities, _, s₁, hfee, h⟩ := h
  have hcreate : Explained ctx.genesis stage 0 s
      { s with accounts := accounts, authorities := authorities } := by
    refine .single (m := .createAccount _) ⟨_, ?_, haccounts, rfl⟩ trivial
    rfl
  have hs₁ :
      Explained ctx.genesis stage 0 { s with accounts := accounts, authorities := authorities }
      s₁ := by
    split at hfee
    · exact .payFee hfee
    · exact pure_eq_ok.1 hfee ▸ .refl _
  split at h
  · simp only [safeNeg, bind_eq_ok, checked_eq_ok] at h
    obtain ⟨s₂, hnew, _, ⟨_, rfl⟩, hcreator⟩ := h
    refine ((hcreate.trans hs₁).trans
      ((Explained.adjustBalance hnew).trans (.adjustBalance hcreator))).cast ?_
    simp
  · exact pure_eq_ok.1 h ▸ (hcreate.trans hs₁).cast (add_zero 0)

/-! ## Operations that only keep books -/

theorem updateOwnerAuthority_frame {account : AccountName} {owner : Authority}
    (h : s.updateOwnerAuthority account owner = .ok s') : Frame s s' := by
  simp only [updateOwnerAuthority, bind_eq_ok, pure_eq_ok] at h
  obtain ⟨_, _, rfl⟩ := h
  exact .rest rfl

theorem updateOwner_frame {account : AccountName} {auth : AccountAuthority}
    {owner : Option Authority} (h : s.updateOwner account auth owner = .ok s') : Frame s s' := by
  cases owner with
  | none => exact pure_eq_ok.1 h ▸ .refl s
  | some owner =>
    simp only [updateOwner, bind_eq_ok] at h
    obtain ⟨_, _, _, _, h⟩ := h
    exact updateOwnerAuthority_frame h

theorem updateActive_frame (s : Database) (account : AccountName) (active : Option Authority) :
    Frame s (s.updateActive account active) := by
  cases active <;> exact .rest rfl

theorem accountUpdateEvaluator_frame {account : AccountName} {owner active : Option Authority}
    {memoKey : PublicKey} {jsonMetadata : Bytes}
    (h : s.accountUpdateEvaluator account owner active memoKey jsonMetadata = .ok s') :
    Frame s s' := by
  simp only [accountUpdateEvaluator, bind_eq_ok, pure_eq_ok] at h
  obtain ⟨_, _, _, _, _, _, s₁, howner, _, _, rfl⟩ := h
  refine ((updateOwner_frame howner).trans ?_).trans (updateActive_frame _ account active)
  exact .modifyAccount _ _ fun _ ↦ rfl

theorem accountDeleteEvaluator_frame {account : AccountName}
    (h : s.accountDeleteEvaluator account = .ok s') : Frame s s' := by
  simp only [accountDeleteEvaluator, bind_eq_ok, pure_eq_ok] at h
  obtain ⟨_, _, _, _, _, _, _, _, s₁, howner, rfl⟩ := h
  have hmodify := Frame.modifyAccount s₁ account (f := fun a ↦ { a with
    memoKey := nullKey
    lastAccountUpdate := s₁.dgp.time
    jsonMetadata := deletedAccountMetadata }) fun _ ↦ rfl
  exact ((updateOwnerAuthority_frame howner).trans hmodify).trans (.rest rfl)

theorem requestAccountRecoveryEvaluator_frame {recoveryAccount accountToRecover : AccountName}
    {newOwnerAuthority : Authority}
    (h : s.requestAccountRecoveryEvaluator recoveryAccount accountToRecover newOwnerAuthority =
      .ok s') : Frame s s' := by
  simp only [requestAccountRecoveryEvaluator, bind_eq_ok] at h
  obtain ⟨_, _, _, _, h⟩ := h
  split at h
  · simp only [bind_eq_ok, pure_eq_ok] at h
    obtain ⟨_, _, _, _, _, _, _, _, rfl⟩ := h
    exact .rest rfl
  · split at h
    · cases h
      exact .rest rfl
    · simp only [bind_eq_ok, pure_eq_ok] at h
      obtain ⟨_, _, _, _, rfl⟩ := h
      exact .rest rfl

theorem recoverAccountEvaluator_frame {accountToRecover : AccountName}
    {newOwnerAuthority recentOwnerAuthority : Authority}
    (h : s.recoverAccountEvaluator accountToRecover newOwnerAuthority recentOwnerAuthority =
      .ok s') : Frame s s' := by
  simp only [recoverAccountEvaluator, bind_eq_ok] at h
  obtain ⟨_, _, _, _, h⟩ := h
  split at h
  · cases h
  · simp only [bind_eq_ok, pure_eq_ok] at h
    obtain ⟨_, _, _, _, s₁, howner, rfl⟩ := h
    have herase : Frame s { s with
        recoveryRequests := s.recoveryRequests.erase accountToRecover } :=
      .rest rfl
    exact (herase.trans (updateOwnerAuthority_frame howner)).trans
      (.modifyAccount _ _ fun _ ↦ rfl)

theorem changeRecoveryAccountEvaluator_frame {accountToRecover newRecoveryAccount : AccountName}
    (h : s.changeRecoveryAccountEvaluator accountToRecover newRecoveryAccount = .ok s') :
    Frame s s' := by
  simp only [changeRecoveryAccountEvaluator, bind_eq_ok] at h
  obtain ⟨_, _, _, _, h⟩ := h
  split at h
  · simp only [bind_eq_ok, pure_eq_ok] at h
    obtain ⟨_, _, rfl⟩ := h
    exact .rest rfl
  · split at h <;> cases h <;> exact .rest rfl

theorem setResetAccountEvaluator_frame {account currentResetter resetter : AccountName}
    (h : s.setResetAccountEvaluator account currentResetter resetter = .ok s') : Frame s s' := by
  simp only [setResetAccountEvaluator, bind_eq_ok, pure_eq_ok] at h
  obtain ⟨_, _, _, _, _, _, _, _, rfl⟩ := h
  exact .modifyAccount _ _ fun _ ↦ rfl

theorem createWitness_explained {owner : AccountName} {url : Bytes} {key : PublicKey}
    {props : ChainProperties} (h : s.createWitness g owner url key props = .ok s') :
    Explained g stage 0 s s' := by
  simp only [createWitness, bind_eq_ok, createRow_eq_ok, pure_eq_ok] at h
  obtain ⟨witnesses, hwitnesses, rfl⟩ := h
  refine .single (m := .createWitness owner) ⟨_, ?_, hwitnesses, rfl⟩ trivial
  rfl

theorem witnessUpdateEvaluator_explained {owner : AccountName} {url : Bytes}
    {blockSigningKey : PublicKey} {props : ChainProperties}
    (h : s.witnessUpdateEvaluator ctx owner url blockSigningKey props = .ok s') :
    Explained ctx.genesis stage 0 s s' := by
  simp only [witnessUpdateEvaluator] at h
  split at h
  · simp only [bind_eq_ok, pure_eq_ok] at h
    obtain ⟨_, _, rfl⟩ := h
    exact .frame (.modifyWitness _ _ fun _ ↦ rfl)
  · simp only [bind_eq_ok] at h
    obtain ⟨_, _, _, _, _, _, h⟩ := h
    split at h
    · cases h
      exact .frame (.modifyWitness _ _ fun _ ↦ rfl)
    · exact createWitness_explained h

theorem adminWitnessUpdateEvaluator_explained {owner : AccountName} {url : Bytes}
    {blockSigningKey : PublicKey} {props : ChainProperties}
    (h : s.adminWitnessUpdateEvaluator g owner url blockSigningKey props = .ok s') :
    Explained g stage 0 s s' := by
  simp only [adminWitnessUpdateEvaluator, bind_eq_ok] at h
  obtain ⟨_, _, h⟩ := h
  split at h
  · exact createWitness_explained h
  · cases h
    exact .frame (.modifyWitness _ _ fun _ ↦ rfl)

theorem witnessSetPropertiesEvaluator_frame {owner : AccountName} {props : WitnessProperties}
    (h : s.witnessSetPropertiesEvaluator g owner props = .ok s') : Frame s s' := by
  simp only [witnessSetPropertiesEvaluator, bind_eq_ok, pure_eq_ok] at h
  obtain ⟨_, _, _, _, _, _, rfl⟩ := h
  exact .modifyWitness _ _ fun _ ↦ rfl

theorem feedPublishEvaluator_frame {publisher : AccountName} {exchangeRate : Price}
    (h : s.feedPublishEvaluator g publisher exchangeRate = .ok s') : Frame s s' := by
  simp only [feedPublishEvaluator, bind_eq_ok, pure_eq_ok] at h
  obtain ⟨_, _, _, _, rfl⟩ := h
  exact .modifyWitness _ _ fun _ ↦ rfl

theorem sponsorFeesEvaluator_frame {sponsor sponsored : AccountName} {isSponsoring : Bool}
    (h : s.sponsorFeesEvaluator sponsor sponsored isSponsoring = .ok s') : Frame s s' := by
  simp only [sponsorFeesEvaluator, bind_eq_ok] at h
  obtain ⟨_, _, h⟩ := h
  split at h
  · simp only [bind_eq_ok, pure_eq_ok] at h
    obtain ⟨_, _, rfl⟩ := h
    exact .rest rfl
  · simp only [bind_eq_ok] at h
    obtain ⟨_, _, _, _, h⟩ := h
    split at h
    · simp only [bind_eq_ok, pure_eq_ok] at h
      obtain ⟨_, _, _, _, rfl⟩ := h
      exact .rest rfl
    · simp only [bind_eq_ok, pure_eq_ok] at h
      obtain ⟨_, _, rfl⟩ := h
      exact .rest rfl

theorem applicationUpdateEvaluator_frame {author : AccountName} {newAuthor : Option AccountName}
    {name url metadata : Bytes} {priceParam : Option ℕ}
    (h : s.applicationUpdateEvaluator author newAuthor name url metadata priceParam = .ok s') :
    Frame s s' := by
  simp only [applicationUpdateEvaluator, bind_eq_ok, pure_eq_ok] at h
  obtain ⟨_, _, _, _, _, _, rfl⟩ := h
  exact .rest rfl

theorem cancelApplicationBuyingEvaluator_frame {appOwner buyer : AccountName} {appId : ℤ}
    (h : s.cancelApplicationBuyingEvaluator appOwner buyer appId = .ok s') : Frame s s' := by
  simp only [cancelApplicationBuyingEvaluator, bind_eq_ok, pure_eq_ok] at h
  obtain ⟨_, _, _, _, _, _, _, _, rfl⟩ := h
  exact .rest rfl

/-! ## All operations -/

/-- An operation that passed `validate` and is evaluated is a run of moves that cancel. -/
theorem evaluate_explained {trx : Transaction} {op : FeeOperation} {fee : Asset} {u : Unit}
    (hs : Sound s) (hvalid : op.op.validate ctx.env ctx.genesis = .ok u)
    (h : s.evaluate ctx fee op.op = .ok s') :
    Explained ctx.genesis (.operation trx op) 0 s s' := by
  cases hop : op.op with
  | transfer _ _ _ _ =>
    rw [hop] at h
    exact transferEvaluator_explained h
  | transferToVesting _ _ amount =>
    rw [hop] at h hvalid
    simp only [Operation.validate, bind_eq_ok, fcAssert_eq_ok] at hvalid
    obtain ⟨_, _, _, _, _, _, hamount⟩ := hvalid
    exact transferToVestingEvaluator_explained hamount.le h
  | withdrawVesting account vestingShares =>
    rw [hop] at h
    obtain ⟨amount, symbol⟩ := vestingShares
    obtain rfl : symbol = vestsSymbol := (withdrawVestingEvaluator_eq_ok h).1
    exact .single (m := .setWithdrawal account amount) h ⟨trx, op, rfl, hop⟩
  | accountWitnessVote account witness approve =>
    rw [hop] at h
    exact .single (m := .changeVote account witness approve) h ⟨trx, op, rfl, hop⟩
  | accountWitnessProxy account proxy =>
    rw [hop] at h
    exact .single (m := .changeProxy account proxy) h ⟨trx, op, rfl, hop⟩
  | escrowTransfer _ _ _ _ sophiatxAmount escrowFee _ _ _ =>
    rw [hop] at h hvalid
    simp only [Operation.validate, bind_eq_ok, fcAssert_eq_ok] at hvalid
    obtain ⟨_, _, _, _, _, _, _, hfee, _, hamount, _, _, _, hfeeSymbol, _, hsymbol, _⟩ := hvalid
    have hstage : (Stage.operation trx op).HandlesEscrow _ := ⟨trx, op, rfl, by rw [hop]; rfl⟩
    exact escrowTransferEvaluator_explained hstage hamount.le hfee
      (hfeeSymbol.trans hsymbol.symm) h
  | escrowDispute _ _ _ _ _ =>
    rw [hop] at h
    exact escrowDisputeEvaluator_explained ⟨trx, op, rfl, by rw [hop]; rfl⟩ h
  | escrowRelease _ _ _ _ _ _ _ =>
    rw [hop] at h
    exact escrowReleaseEvaluator_explained hs ⟨trx, op, rfl, by rw [hop]; rfl⟩ h
  | escrowApprove _ _ _ _ _ _ =>
    rw [hop] at h
    exact escrowApproveEvaluator_explained ⟨trx, op, rfl, by rw [hop]; rfl⟩ h
  | accountCreate _ _ _ _ _ _ =>
    rw [hop] at h
    exact accountCreateEvaluator_explained h
  | transferFromPromotionPool _ _ =>
    rw [hop] at h
    exact transferFromPromotionPoolEvaluator_explained h
  | witnessUpdate _ _ _ _ =>
    rw [hop] at h
    exact witnessUpdateEvaluator_explained h
  | adminWitnessUpdate _ _ _ _ =>
    rw [hop] at h
    exact adminWitnessUpdateEvaluator_explained h
  | virtual =>
    rw [hop] at h
    cases h
  | feedPublish _ _ =>
    rw [hop] at h
    exact .frame (feedPublishEvaluator_frame h)
  | accountUpdate _ _ _ _ _ =>
    rw [hop] at h
    exact .frame (accountUpdateEvaluator_frame h)
  | accountDelete _ =>
    rw [hop] at h
    exact .frame (accountDeleteEvaluator_frame h)
  | witnessStop _ =>
    rw [hop] at h
    simp only [evaluate, witnessStopEvaluator, bind_eq_ok, pure_eq_ok] at h
    obtain ⟨_, _, rfl⟩ := h
    exact .frame (.modifyWitness _ _ fun _ ↦ rfl)
  | witnessSetProperties _ _ =>
    rw [hop] at h
    exact .frame (witnessSetPropertiesEvaluator_frame h)
  | custom _ _ _ _ =>
    rw [hop] at h
    exact pure_eq_ok.1 h ▸ .refl s
  | customJson _ _ _ _ | customBinary _ _ _ _ =>
    rw [hop] at h
    cases h
    exact .frame (.rest rfl)
  | requestAccountRecovery _ _ _ =>
    rw [hop] at h
    exact .frame (requestAccountRecoveryEvaluator_frame h)
  | recoverAccount _ _ _ =>
    rw [hop] at h
    exact .frame (recoverAccountEvaluator_frame h)
  | changeRecoveryAccount _ _ =>
    rw [hop] at h
    exact .frame (changeRecoveryAccountEvaluator_frame h)
  | resetAccount _ _ _ =>
    rw [hop] at h
    simp only [evaluate, resetAccountEvaluator, bind_eq_ok] at h
    obtain ⟨_, _, _, _, h⟩ := h
    exact .frame (updateOwnerAuthority_frame h)
  | setResetAccount _ _ _ =>
    rw [hop] at h
    exact .frame (setResetAccountEvaluator_frame h)
  | applicationCreate _ _ _ _ _ =>
    rw [hop] at h
    simp only [evaluate, applicationCreateEvaluator, bind_eq_ok, pure_eq_ok] at h
    obtain ⟨_, _, _, _, rfl⟩ := h
    exact .frame (.rest rfl)
  | applicationUpdate _ _ _ _ _ _ =>
    rw [hop] at h
    exact .frame (applicationUpdateEvaluator_frame h)
  | applicationDelete _ _ =>
    rw [hop] at h
    simp only [evaluate, applicationDeleteEvaluator, bind_eq_ok, pure_eq_ok] at h
    obtain ⟨_, _, _, _, rfl⟩ := h
    exact .frame (.rest rfl)
  | buyApplication _ _ =>
    rw [hop] at h
    simp only [evaluate, buyApplicationEvaluator, bind_eq_ok, pure_eq_ok] at h
    obtain ⟨_, _, _, _, _, _, _, _, rfl⟩ := h
    exact .frame (.rest rfl)
  | cancelApplicationBuying _ _ _ =>
    rw [hop] at h
    exact .frame (cancelApplicationBuyingEvaluator_frame h)
  | sponsorFees _ _ _ =>
    rw [hop] at h
    exact .frame (sponsorFeesEvaluator_frame h)

/-- An operation with its fee. -/
theorem applyOperation_explained {trx : Transaction} {op : FeeOperation} {u : Unit}
    (hs : Sound s) (hvalid : op.op.validate ctx.env ctx.genesis = .ok u)
    (h : s.applyOperation ctx op = .ok s') :
    Explained ctx.genesis (.operation trx op) 0 s s' := by
  simp only [applyOperation, bind_eq_ok] at h
  obtain ⟨s₁, hfee, heval⟩ := h
  have hpaid : Explained ctx.genesis (.operation trx op) 0 s s₁ :=
    processOperationFee_explained hfee
  exact (hpaid.trans (evaluate_explained (hpaid.sound hs) hvalid heval)).cast (add_zero 0)

end Database

end SophiaTX.Chain
