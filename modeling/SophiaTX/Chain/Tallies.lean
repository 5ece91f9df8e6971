import SophiaTX.Chain.Registry

/-!
# Messages, meters and block summaries

Three tables are written in one place each: the contents of messages by the evaluators of custom
operations, the bandwidth of accounts at the end of a transaction, and the summary of a block once
the last irreversible block has moved. What else the head decides on is said with them.
-/

namespace SophiaTX.Chain

open SophiaTX.Protocol SophiaTX.Lib

/-- The contents of messages, the bandwidth of accounts and the summaries of blocks, and the head
they are written at. -/
structure Tallies where
  headBlockNumber : ℕ
  headBlockId : BlockId
  lastIrreversibleBlockNum : ℕ
  time : Time
  blockSummaries : ℕ → BlockId
  customContents : List CustomContent
  bandwidths : Table AccountName AccountBandwidth

def Database.tallies (s : Database) : Tallies where
  headBlockNumber := s.dgp.headBlockNumber
  headBlockId := s.dgp.headBlockId
  lastIrreversibleBlockNum := s.dgp.lastIrreversibleBlockNum
  time := s.dgp.time
  blockSummaries := s.blockSummaries
  customContents := s.customContents
  bandwidths := s.bandwidths

/-- The tallies and the window of recent slots. -/
structure SlotTallies extends Tallies where
  recentSlotsFilled : ℕ
  participationCount : ℕ

def Database.slotTallies (s : Database) : SlotTallies where
  headBlockNumber := s.dgp.headBlockNumber
  headBlockId := s.dgp.headBlockId
  lastIrreversibleBlockNum := s.dgp.lastIrreversibleBlockNum
  time := s.dgp.time
  blockSummaries := s.blockSummaries
  customContents := s.customContents
  bandwidths := s.bandwidths
  recentSlotsFilled := s.dgp.recentSlotsFilled
  participationCount := s.dgp.participationCount

/-- What `custom_json` and `custom_binary` operations carry. -/
structure Message where
  binary : Bool
  sender : AccountName
  recipients : List AccountName
  appId : ℕ
  payload : Bytes

/-- The message in an operation, if there is one. -/
def Message.ofOperation : Operation → Option Message
  | .customJson sender recipients appId json => some ⟨false, sender, recipients, appId, json⟩
  | .customBinary sender recipients appId data => some ⟨true, sender, recipients, appId, data⟩
  | _ => none

namespace Database

/-- The contents of messages after an operation. -/
def contentsAfter (s : Database) (op : Operation) : List CustomContent :=
  match Message.ofOperation op with
  | some m =>
    (s.customContentEvaluator m.binary m.sender m.recipients m.appId m.payload).customContents
  | none => s.customContents

end Database

variable {ctx : Context} {g : GenesisState} {s s₁ s' : Database}

attribute [local grind =] bind_eq_ok pure_eq_ok

theorem VoteFrame.slotTallies_eq (h : VoteFrame s s') : s'.slotTallies = s.slotTallies := by
  rw [h.rest]
  rfl

theorem slotTallies_foldlM {α : Type} {f : Database → α → Exec Database} {l : List α}
    (hf : ∀ s a s', f s a = .ok s' → s'.slotTallies = s.slotTallies) (h : l.foldlM f s = .ok s') :
    s'.slotTallies = s.slotTallies :=
  foldlM_invariant (I := fun t ↦ t.slotTallies = s.slotTallies)
    (fun _ _ _ _ hround hs ↦ (hf _ _ _ hround).trans hs) h rfl

namespace Database

/-! ## Parts of evaluators -/

@[simp, grind =]
theorem modifyAccount_slotTallies (s : Database) (name : AccountName) (f : Account → Account) :
    (s.modifyAccount name f).slotTallies = s.slotTallies := rfl

@[simp, grind =]
theorem modifyWitness_slotTallies (s : Database) (name : AccountName) (f : Witness → Witness) :
    (s.modifyWitness name f).slotTallies = s.slotTallies := rfl

@[simp, grind =]
theorem modifyEscrow_slotTallies (s : Database) (key : AccountName × ℕ) (f : Escrow → Escrow) :
    (s.modifyEscrow key f).slotTallies = s.slotTallies := rfl

@[simp, grind =]
theorem updateActive_slotTallies (s : Database) (account : AccountName)
    (active : Option Authority) : (s.updateActive account active).slotTallies = s.slotTallies := by
  cases active <;> rfl

@[grind →]
theorem adjustBalance_slotTallies {account : AccountName} {delta : Asset}
    (h : s.adjustBalance g account delta = .ok s') : s'.slotTallies = s.slotTallies := by
  obtain ⟨_, a, ha, _, hvotes⟩ := adjustBalance_eq_ok h
  exact (adjustProxiedWitnessVotes_frame hvotes).slotTallies_eq

@[grind →]
theorem vest_slotTallies {account : AccountName} {delta : ShareType}
    (h : s.vest account delta = .ok s') : s'.slotTallies = s.slotTallies := by
  obtain ⟨a, ha, _, rfl⟩ := vest_eq_ok h
  rfl

@[grind →]
theorem adjustSupply_slotTallies {delta : Asset} (h : s.adjustSupply g delta = .ok s') :
    s'.slotTallies = s.slotTallies := by
  obtain ⟨_, _, rfl⟩ := adjustSupply_eq_ok h
  rfl

@[grind →]
theorem payFee_slotTallies {account : AccountName} {fee : Asset}
    (h : s.payFee g account fee = .ok s') : s'.slotTallies = s.slotTallies := by
  simp only [payFee, bind_eq_ok] at h
  grind [slotTallies]

theorem processOperationFee_slotTallies {op : FeeOperation}
    (h : s.processOperationFee g op = .ok s') : s'.slotTallies = s.slotTallies := by
  unfold processOperationFee at h
  grind

@[grind →]
theorem refundEscrow_slotTallies {key : AccountName × ℕ} {e : Escrow}
    (h : s.refundEscrow g key e = .ok s') : s'.slotTallies = s.slotTallies := by
  simp only [refundEscrow, bind_eq_ok] at h
  grind [slotTallies]

@[grind →]
theorem adjustWitnessVote_slotTallies {witness : AccountName} {delta : ShareType}
    (h : s.adjustWitnessVote witness delta = .ok s') : s'.slotTallies = s.slotTallies :=
  (adjustWitnessVote_frame h).slotTallies_eq

@[grind →]
theorem adjustProxiedWitnessVotes_slotTallies {account : AccountName} {delta : ShareType}
    (h : s.adjustProxiedWitnessVotes account delta = .ok s') : s'.slotTallies = s.slotTallies :=
  (adjustProxiedWitnessVotes_frame h).slotTallies_eq

@[grind →]
theorem adjustProxiedWitnessVotesArray_slotTallies {delta : VoteDeltas} {remaining : ℕ}
    {account : AccountName}
    (h : adjustProxiedWitnessVotesArray delta remaining account s = .ok s') :
    s'.slotTallies = s.slotTallies :=
  (adjustProxiedWitnessVotesArray_frame h).slotTallies_eq

@[grind →]
theorem createWitness_slotTallies {owner : AccountName} {url : Bytes} {key : PublicKey}
    {props : ChainProperties} (h : s.createWitness g owner url key props = .ok s') :
    s'.slotTallies = s.slotTallies := by
  simp only [createWitness, bind_eq_ok] at h
  grind [slotTallies]

@[grind →]
theorem updateOwnerAuthority_slotTallies {account : AccountName} {owner : Authority}
    (h : s.updateOwnerAuthority account owner = .ok s') : s'.slotTallies = s.slotTallies := by
  simp only [updateOwnerAuthority, bind_eq_ok] at h
  grind [slotTallies]

@[grind →]
theorem updateOwner_slotTallies {account : AccountName} {auth : AccountAuthority}
    {owner : Option Authority} (h : s.updateOwner account auth owner = .ok s') :
    s'.slotTallies = s.slotTallies := by
  cases owner with
  | none => exact congrArg slotTallies (pure_eq_ok.1 h).symm
  | some owner =>
    simp only [updateOwner, bind_eq_ok] at h
    grind

theorem evaluate_slotTallies {fee : Asset} {op : Operation} (h : s.evaluate ctx fee op = .ok s') :
    s'.slotTallies = { s.slotTallies with customContents := s.contentsAfter op } := by
  cases op with
  | customJson _ _ _ _ | customBinary _ _ _ _ => exact pure_eq_ok.1 h ▸ rfl
  | custom _ _ _ _ => exact pure_eq_ok.1 h ▸ rfl
  | transfer _ _ _ _ | transferToVesting _ _ _ | escrowTransfer _ _ _ _ _ _ _ _ _
  | transferFromPromotionPool _ _ =>
    change s'.slotTallies = s.slotTallies
    simp only [evaluate, transferEvaluator, transferToVestingEvaluator, escrowTransferEvaluator,
      transferFromPromotionPoolEvaluator, bind_eq_ok] at h
    grind [slotTallies]
  | escrowDispute _ _ _ _ _ | escrowRelease _ _ _ _ _ _ _ | escrowApprove _ _ _ _ _ _ =>
    change s'.slotTallies = s.slotTallies
    simp only [evaluate, escrowDisputeEvaluator, escrowReleaseEvaluator, escrowApproveEvaluator,
      bind_eq_ok] at h
    grind [slotTallies]
  | withdrawVesting _ _ =>
    obtain ⟨_, a, rate, next, _, _, _, _, rfl⟩ := withdrawVestingEvaluator_eq_ok h
    rfl
  | accountWitnessProxy _ _ | accountWitnessVote _ _ _ | feedPublish _ _ | witnessStop _
  | witnessSetProperties _ _ | witnessUpdate _ _ _ _ | adminWitnessUpdate _ _ _ _ =>
    change s'.slotTallies = s.slotTallies
    simp only [evaluate, accountWitnessProxyEvaluator, accountWitnessVoteEvaluator,
      feedPublishEvaluator, witnessStopEvaluator, witnessSetPropertiesEvaluator,
      witnessUpdateEvaluator, adminWitnessUpdateEvaluator, clearWitnessVotes, bind_eq_ok] at h
    grind [slotTallies, modifyAccount]
  | accountCreate _ _ _ _ _ _ | accountUpdate _ _ _ _ _ | accountDelete _ | resetAccount _ _ _
  | setResetAccount _ _ _ =>
    change s'.slotTallies = s.slotTallies
    simp only [evaluate, accountCreateEvaluator, accountUpdateEvaluator, accountDeleteEvaluator,
      resetAccountEvaluator, setResetAccountEvaluator, bind_eq_ok] at h
    grind [slotTallies, modifyAccount]
  | requestAccountRecovery _ _ _ | recoverAccount _ _ _ | changeRecoveryAccount _ _ =>
    change s'.slotTallies = s.slotTallies
    simp only [evaluate, requestAccountRecoveryEvaluator, recoverAccountEvaluator,
      changeRecoveryAccountEvaluator, bind_eq_ok] at h
    grind [slotTallies]
  | applicationCreate _ _ _ _ _ | applicationUpdate _ _ _ _ _ _ | applicationDelete _ _
  | buyApplication _ _ | cancelApplicationBuying _ _ _ | sponsorFees _ _ _ =>
    change s'.slotTallies = s.slotTallies
    simp only [evaluate, applicationCreateEvaluator, applicationUpdateEvaluator,
      applicationDeleteEvaluator, buyApplicationEvaluator, cancelApplicationBuyingEvaluator,
      sponsorFeesEvaluator, bind_eq_ok] at h
    grind [slotTallies]
  | virtual => cases h

/-! ## Stages -/

theorem applyHardfork_slotTallies {hardfork : ℕ} (h : s.applyHardfork g hardfork = .ok s') :
    s'.slotTallies = s.slotTallies := by
  simp only [applyHardfork, bind_eq_ok] at h
  obtain ⟨s₁, hvotes, h⟩ := h
  have hs₁ : s₁.slotTallies = s.slotTallies := by
    split at hvotes
    · apply (slotTallies_foldlM _ hvotes).trans rfl
      intro s₂ name s₃ hround
      grind
    · exact congrArg slotTallies (pure_eq_ok.1 hvotes).symm
  grind [slotTallies]

theorem setHardfork_slotTallies {hardfork : ℕ} (h : s.setHardfork g hardfork = .ok s') :
    s'.slotTallies = s.slotTallies := by
  apply slotTallies_foldlM _ h
  intro s₁ i s₂ hround
  have hs₂ := applyHardfork_slotTallies hround
  exact hs₂

theorem processHardforks_slotTallies (h : s.processHardforks g = .ok s') :
    s'.slotTallies = s.slotTallies := by
  unfold processHardforks at h
  generalize numHardforks + 1 = rounds at h
  induction rounds generalizing s with
  | zero => exact congrArg slotTallies (pure_eq_ok.1 h).symm
  | succ rounds ih =>
    unfold processHardforksLoop at h
    have hround := @applyHardfork_slotTallies
    grind

/-- The first stage of a block finds the head it builds on. -/
theorem openBlock_slotTallies {b : SignedBlock} (h : s.openBlock ctx b = .ok s') :
    s.slotTallies.headBlockId = b.previous ∧ s'.slotTallies = s.slotTallies := by
  simp only [openBlock, validateBlockHeader, bind_eq_ok, fcAssert_eq_ok, pure_eq_ok] at h
  obtain ⟨s₁, hforks, _, _, _, ⟨_, hprevious, _⟩, _, _, s₂, hextensions, _, _, _, _, rfl⟩ := h
  have hs₁ : s₁.slotTallies = s.slotTallies := by
    have hset := @setHardfork_slotTallies
    simp only [applyGenesisHardforks] at hforks
    grind [slotTallies]
  have hs₂ : s₂.slotTallies = s₁.slotTallies := by
    apply (slotTallies_foldlM _ hextensions).trans rfl
    intro s₃ extension s₄ hround
    cases extension <;> simp only [processHeaderExtension] at hround <;> grind
  refine ⟨?_, hs₂.trans hs₁⟩
  rw [← hs₁]
  exact hprevious

theorem openTransaction_slotTallies {trx : Transaction} (h : s.openTransaction ctx trx = .ok s') :
    s'.slotTallies = s.slotTallies := by
  simp only [openTransaction, bind_eq_ok] at h
  grind [slotTallies]

theorem missSlot_slotTallies {producer : AccountName} {slot : ℕ}
    (h : missSlot g producer s slot = .ok s') : s'.slotTallies = s.slotTallies := by
  simp only [missSlot, bind_eq_ok] at h
  grind

theorem updateGlobalDynamicData_slotTallies {b : SignedBlock}
    (h : s.updateGlobalDynamicData ctx b = .ok s') : s'.slotTallies = { s.slotTallies with
      headBlockNumber := b.blockNum
      headBlockId := ctx.env.blockId b
      time := b.timestamp
      recentSlotsFilled := s'.dgp.recentSlotsFilled
      participationCount := s'.dgp.participationCount } := by
  simp only [updateGlobalDynamicData, bind_eq_ok, pure_eq_ok] at h
  obtain ⟨_, _, s₁, hmissed, _, _, rfl⟩ := h
  have hs₁ : s₁.slotTallies = s.slotTallies :=
    slotTallies_foldlM (fun _ _ _ hround ↦ missSlot_slotTallies hround) hmissed
  rw [← hs₁, shiftSlots_eq]
  rfl

theorem updateWitnessSchedule_slotTallies (h : s.updateWitnessSchedule g = .ok s') :
    s'.slotTallies = s.slotTallies := by
  unfold updateWitnessSchedule at h
  split at h
  · cases h
  · split at h
    · simp only [updateWitnessSchedule4, updateMedianWitnessProps, setSchedule, bind_eq_ok] at h
      grind [slotTallies]
    · exact congrArg slotTallies (pure_eq_ok.1 h).symm

theorem payInterest_slotTallies {name : AccountName} {a : Account} {interest : ShareType}
    (h : s.payInterest g name a = .ok (s', interest)) : s'.slotTallies = s.slotTallies := by
  obtain ⟨economics, s₁, a₁, _, hvotes, _, rfl⟩ := payInterest_eq_ok h
  have hs₁ : s₁.slotTallies = s.slotTallies := by grind [slotTallies]
  exact hs₁

theorem processInterests_slotTallies (h : s.processInterests g = .ok s') :
    s'.slotTallies = s.slotTallies := by
  have hloop : ∀ (rounds id : ℕ) (s s' : Database) (supplyIncrease total : ShareType),
      payInterests g rounds id s supplyIncrease = .ok (s', total) →
        s'.slotTallies = s.slotTallies := by
    intro rounds
    induction rounds with
    | zero =>
      intro id s s' supplyIncrease total h
      cases h
      rfl
    | succ rounds ih =>
      intro id s s' supplyIncrease total h
      unfold payInterests at h
      split at h
      · cases h
        rfl
      · simp only [bind_eq_ok, Prod.exists] at h
        obtain ⟨s₁, interest, hpay, _, _, h⟩ := h
        exact (ih _ _ _ _ _ h).trans (payInterest_slotTallies hpay)
  simp only [processInterests, bind_eq_ok, Prod.exists] at h
  obtain ⟨s₁, total, hpay, hsupply⟩ := h
  exact (adjustSupply_slotTallies hsupply).trans (hloop _ _ _ _ _ _ hpay)

theorem updateMedianFeeds_slotTallies (h : s.updateMedianFeeds g = .ok s') :
    s'.slotTallies = s.slotTallies := by
  have hround : ∀ (feeds : List (AssetSymbol × Price)) (s : Database) (symbol : AssetSymbol) s',
      updateMedianFeed g feeds s symbol = .ok s' → s'.slotTallies = s.slotTallies := by
    intro feeds s symbol s' h
    simp only [updateMedianFeed] at h
    grind [slotTallies]
  unfold updateMedianFeeds at h
  split at h
  · cases h
  · split at h
    · exact congrArg slotTallies (pure_eq_ok.1 h).symm
    · simp only [bind_eq_ok] at h
      obtain ⟨feeds, _, h⟩ := h
      exact slotTallies_foldlM (hround feeds) h

theorem clearNullAccountBalance_slotTallies (h : s.clearNullAccountBalance g = .ok s') :
    s'.slotTallies = s.slotTallies := by
  simp only [clearNullAccountBalance, clearNullLiquid, clearNullVesting, bind_eq_ok] at h
  grind [slotTallies, modifyAccount]

theorem processFunds_slotTallies {blockNum : ℕ} (h : s.processFunds g blockNum = .ok s') :
    s'.slotTallies = s.slotTallies := by
  simp only [processFunds, createVesting, bind_eq_ok] at h
  grind [slotTallies, modifyAccount]

theorem processVestingWithdrawals_slotTallies (h : s.processVestingWithdrawals = .ok s') :
    s'.slotTallies = s.slotTallies := by
  refine processVestingWithdrawals_invariant (I := fun t ↦ t.slotTallies = s.slotTallies) ?_ h rfl
  intro s₁ name a s₂ _ _ hpay hs₁
  simp only [processVestingWithdrawal] at hpay
  grind [slotTallies, modifyAccount]

theorem accountRecoveryProcessing_slotTallies (h : s.accountRecoveryProcessing = .ok s') :
    s'.slotTallies = s.slotTallies := by
  apply (slotTallies_foldlM _ h).trans rfl
  intro s₁ entry s₂ hround
  simp only [applyRecoveryChange] at hround
  grind [slotTallies, modifyAccount]

end Database

/-! ## All stages -/

theorem onPublicNet_slotTallies {step : Database → Exec Database} (h : onPublicNet s step = .ok s')
    (hstep : step s = .ok s' → s'.slotTallies = s.slotTallies) :
    s'.slotTallies = s.slotTallies := by
  unfold onPublicNet at h
  grind

/-- What a stage writes to messages, meters, block summaries and the window of recent slots. -/
def Stage.SlotTalliesStep (ctx : Context) (s : Database) (stage : Stage) (s' : Database) : Prop :=
  match stage with
  | .openBlock b => s.slotTallies.headBlockId = b.previous ∧ s'.slotTallies = s.slotTallies
  | .operation _ op =>
    s'.slotTallies = { s.slotTallies with customContents := s.contentsAfter op.op }
  | .closeTransaction _ => s'.slotTallies = { s.slotTallies with bandwidths := s'.bandwidths }
  | .updateGlobalDynamicData b => s'.slotTallies = { s.slotTallies with
      headBlockNumber := b.blockNum
      headBlockId := ctx.env.blockId b
      time := b.timestamp
      recentSlotsFilled := s'.dgp.recentSlotsFilled
      participationCount := s'.dgp.participationCount }
  | .updateLastIrreversibleBlock => s'.slotTallies = { s.slotTallies with
      lastIrreversibleBlockNum := s'.dgp.lastIrreversibleBlockNum }
  | .createBlockSummary b => s'.slotTallies = { s.slotTallies with
      blockSummaries :=
        Function.update s.blockSummaries (b.blockNum % 65536) (ctx.env.blockId b) }
  | _ => s'.slotTallies = s.slotTallies

theorem Database.contentsAfter_congr {op : Operation} (h : s₁.slotTallies = s.slotTallies) :
    s₁.contentsAfter op = s.contentsAfter op := by
  have hcontents : s₁.customContents = s.customContents := congrArg (fun t ↦ t.customContents) h
  have htime : s₁.dgp.time = s.dgp.time := congrArg (fun t ↦ t.time) h
  unfold contentsAfter customContentEvaluator
  rw [hcontents, htime]

theorem Stage.slotTalliesStep {stage : Stage} (h : stage.run ctx s = .ok s') :
    stage.SlotTalliesStep ctx s s' := by
  cases stage with
  | openBlock b => exact Database.openBlock_slotTallies h
  | openTransaction trx => exact Database.openTransaction_slotTallies h
  | operation trx op =>
    simp only [run, Database.applyOperation, bind_eq_ok] at h
    obtain ⟨s₁, hfee, heval⟩ := h
    have hs₁ := Database.processOperationFee_slotTallies hfee
    calc s'.slotTallies
        = { s₁.slotTallies with customContents := s₁.contentsAfter op.op } :=
          Database.evaluate_slotTallies heval
      _ = { s.slotTallies with customContents := s.contentsAfter op.op } := by
        rw [hs₁, Database.contentsAfter_congr hs₁]
  | closeTransaction trx =>
    simp only [run, Database.closeTransaction] at h
    split at h
    · refine foldlM_invariant
        (I := fun t ↦ t.slotTallies = { s.slotTallies with bandwidths := t.bandwidths }) ?_ h rfl
      intro s₁ account s₂ _ hround hs₁
      simp only [Database.updateAccountBandwidth, bind_eq_ok, pure_eq_ok] at hround
      obtain ⟨bandwidths, _, _, _, _, _, rfl⟩ := hround
      exact congrArg (fun t : SlotTallies ↦ { t with bandwidths := bandwidths }) hs₁
    · exact pure_eq_ok.1 h ▸ rfl
  | updateGlobalDynamicData b => exact Database.updateGlobalDynamicData_slotTallies h
  | updateSigningWitness b =>
    simp only [run, Database.updateSigningWitness, bind_eq_ok, pure_eq_ok] at h
    obtain ⟨_, _, rfl⟩ := h
    rfl
  | updateLastIrreversibleBlock =>
    simp only [run, Database.updateLastIrreversibleBlock, bind_eq_ok, pure_eq_ok] at h
    obtain ⟨_, _, rfl⟩ := h
    rfl
  | createBlockSummary b | clearExpiredTransactions => exact pure_eq_ok.1 h ▸ rfl
  | updateWitnessSchedule => exact Database.updateWitnessSchedule_slotTallies h
  | processInterests => exact onPublicNet_slotTallies h Database.processInterests_slotTallies
  | updateMedianFeeds => exact onPublicNet_slotTallies h Database.updateMedianFeeds_slotTallies
  | clearNullAccountBalance =>
    exact onPublicNet_slotTallies h Database.clearNullAccountBalance_slotTallies
  | processFunds b =>
    simp only [run] at h
    exact onPublicNet_slotTallies h Database.processFunds_slotTallies
  | processVestingWithdrawals =>
    exact onPublicNet_slotTallies h Database.processVestingWithdrawals_slotTallies
  | accountRecoveryProcessing => exact Database.accountRecoveryProcessing_slotTallies h
  | expireEscrowRatification =>
    apply slotTallies_foldlM _ h
    intro s₁ entry s₂ hround
    exact Database.refundEscrow_slotTallies hround
  | processHardforks => exact Database.processHardforks_slotTallies h
  | recordBlock b =>
    simp only [run] at h
    apply onPublicNet_slotTallies h
    intro hrecord
    obtain ⟨_, _, rfl⟩ := Database.recordBlock_eq_ok hrecord
    rfl

/-- What a stage writes to messages, meters and block summaries. -/
def Stage.TalliesStep (ctx : Context) (s : Database) (stage : Stage) (s' : Database) : Prop :=
  match stage with
  | .openBlock b => s.tallies.headBlockId = b.previous ∧ s'.tallies = s.tallies
  | .operation _ op =>
    s'.tallies = { s.tallies with customContents := s.contentsAfter op.op }
  | .closeTransaction _ => s'.tallies = { s.tallies with bandwidths := s'.bandwidths }
  | .updateGlobalDynamicData b => s'.tallies = { s.tallies with
      headBlockNumber := b.blockNum
      headBlockId := ctx.env.blockId b
      time := b.timestamp }
  | .updateLastIrreversibleBlock => s'.tallies = { s.tallies with
      lastIrreversibleBlockNum := s'.dgp.lastIrreversibleBlockNum }
  | .createBlockSummary b => s'.tallies = { s.tallies with
      blockSummaries :=
        Function.update s.blockSummaries (b.blockNum % 65536) (ctx.env.blockId b) }
  | _ => s'.tallies = s.tallies

theorem Stage.talliesStep {stage : Stage} (h : stage.run ctx s = .ok s') :
    stage.TalliesStep ctx s s' := by
  have hstep := Stage.slotTalliesStep h
  cases stage with
  | openBlock b => exact ⟨hstep.1, congrArg SlotTallies.toTallies hstep.2⟩
  | _ => exact congrArg SlotTallies.toTallies hstep

/-- Only the move of the head changes the window of recent slots. -/
theorem Stage.recentSlots_eq {stage : Stage} (h : stage.run ctx s = .ok s')
    (hstage : ∀ b, stage ≠ .updateGlobalDynamicData b) :
    s'.dgp.recentSlotsFilled = s.dgp.recentSlotsFilled ∧
      s'.dgp.participationCount = s.dgp.participationCount := by
  have hstep := Stage.slotTalliesStep h
  cases stage with
  | openBlock b =>
    exact ⟨congrArg SlotTallies.recentSlotsFilled hstep.2,
      congrArg SlotTallies.participationCount hstep.2⟩
  | updateGlobalDynamicData b => exact absurd rfl (hstage b)
  | _ =>
    exact ⟨congrArg SlotTallies.recentSlotsFilled hstep,
      congrArg SlotTallies.participationCount hstep⟩

namespace Stage.TalliesStep

/-- Only one stage moves the head. -/
theorem head_eq {stage : Stage} (h : stage.TalliesStep ctx s s')
    (hstage : ∀ b, stage ≠ .updateGlobalDynamicData b) :
    s'.tallies.headBlockNumber = s.tallies.headBlockNumber ∧
      s'.tallies.headBlockId = s.tallies.headBlockId := by
  cases stage with
  | openBlock b =>
    rw [h.2]
    exact ⟨rfl, rfl⟩
  | updateGlobalDynamicData b => exact absurd rfl (hstage b)
  | _ =>
    rw [show s'.tallies = _ from h]
    exact ⟨rfl, rfl⟩

/-- Bandwidth is charged at the end of a transaction. -/
theorem bandwidths_eq {stage : Stage} (h : stage.TalliesStep ctx s s')
    (hstage : ∀ trx, stage ≠ .closeTransaction trx) : s'.bandwidths = s.bandwidths := by
  cases stage with
  | openBlock b => exact congrArg Tallies.bandwidths h.2
  | closeTransaction trx => exact absurd rfl (hstage trx)
  | _ => exact congrArg Tallies.bandwidths h

end Stage.TalliesStep

end SophiaTX.Chain
