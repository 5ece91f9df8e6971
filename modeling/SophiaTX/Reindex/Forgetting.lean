import SophiaTX.Chain.ApplyBlock

/-!
# The table of transactions out of sight

Nothing but the opening of transactions and the removal of expired ones looks at the table of
transactions. All other steps do the same with another table, and leave that as it is.
-/

namespace SophiaTX.Chain

open SophiaTX.Protocol SophiaTX.Lib

namespace Database

/-- The same state with another table of transactions. -/
def withTransactions (t : Table ℕ Time) (s : Database) : Database := { s with transactions := t }

variable {ctx : Context} {g : GenesisState} (t : Table ℕ Time) (s : Database)

@[simp]
theorem modifyAccount_withTransactions (name : AccountName) (f : Account → Account) :
    (s.withTransactions t).modifyAccount name f = (s.modifyAccount name f).withTransactions t := rfl

@[simp]
theorem modifyWitness_withTransactions (name : AccountName) (f : Witness → Witness) :
    (s.withTransactions t).modifyWitness name f = (s.modifyWitness name f).withTransactions t := rfl

@[simp]
theorem modifyEscrow_withTransactions (key : AccountName × ℕ) (f : Escrow → Escrow) :
    (s.withTransactions t).modifyEscrow key f = (s.modifyEscrow key f).withTransactions t := rfl

/-! ## Votes and balances -/

theorem adjustWitnessVote_withTransactions (witness : AccountName) (delta : ShareType) :
    (s.withTransactions t).adjustWitnessVote witness delta =
      withTransactions t <$> s.adjustWitnessVote witness delta := by
  simp only [adjustWitnessVote, map_bind, map_pure]
  rfl

theorem adjustWitnessVotes_withTransactions (account : AccountName) (delta : ShareType) :
    (s.withTransactions t).adjustWitnessVotes account delta =
      withTransactions t <$> s.adjustWitnessVotes account delta :=
  foldlM_map (fun s witness ↦ adjustWitnessVote_withTransactions t s witness delta) _ s

theorem adjustProxiedWitnessVotesArray_withTransactions (delta : VoteDeltas) (remaining : ℕ)
    (account : AccountName) :
    adjustProxiedWitnessVotesArray delta remaining account (s.withTransactions t) =
      withTransactions t <$> adjustProxiedWitnessVotesArray delta remaining account s := by
  induction remaining generalizing account s with
  | zero =>
    simp only [adjustProxiedWitnessVotesArray, map_bind, map_ite, map_pure,
      adjustWitnessVotes_withTransactions]
    rfl
  | succ remaining ih =>
    simp only [adjustProxiedWitnessVotesArray, map_bind, map_ite,
      modifyAccount_withTransactions, adjustWitnessVotes_withTransactions, ih]
    rfl

theorem adjustProxiedWitnessVotesAt_withTransactions (delta : ShareType) (remaining : ℕ)
    (account : AccountName) :
    adjustProxiedWitnessVotesAt delta remaining account (s.withTransactions t) =
      withTransactions t <$> adjustProxiedWitnessVotesAt delta remaining account s := by
  induction remaining generalizing account s with
  | zero =>
    simp only [adjustProxiedWitnessVotesAt, map_bind, map_ite, map_pure,
      adjustWitnessVotes_withTransactions]
    rfl
  | succ remaining ih =>
    simp only [adjustProxiedWitnessVotesAt, map_bind, map_ite,
      modifyAccount_withTransactions, adjustWitnessVotes_withTransactions, ih]
    rfl

theorem adjustProxiedWitnessVotes_withTransactions (account : AccountName) (delta : ShareType) :
    (s.withTransactions t).adjustProxiedWitnessVotes account delta =
      withTransactions t <$> s.adjustProxiedWitnessVotes account delta :=
  adjustProxiedWitnessVotesAt_withTransactions t s delta _ account

theorem adjustBalance_withTransactions (account : AccountName) (delta : Asset) :
    (s.withTransactions t).adjustBalance g account delta =
      withTransactions t <$> s.adjustBalance g account delta := by
  simp only [adjustBalance, map_bind, modifyAccount_withTransactions,
    adjustProxiedWitnessVotes_withTransactions]
  rfl

theorem createVesting_withTransactions (account : AccountName) (delta : Asset) :
    (s.withTransactions t).createVesting account delta =
      withTransactions t <$> s.createVesting account delta := by
  simp only [createVesting, map_bind, modifyAccount_withTransactions,
    adjustProxiedWitnessVotes_withTransactions]
  rfl

theorem vest_withTransactions (account : AccountName) (delta : ShareType) :
    (s.withTransactions t).vest account delta = withTransactions t <$> s.vest account delta := by
  simp only [vest, map_bind, map_pure]
  rfl

theorem adjustSupply_withTransactions (delta : Asset) :
    (s.withTransactions t).adjustSupply g delta =
      withTransactions t <$> s.adjustSupply g delta := by
  simp only [adjustSupply, map_bind, map_pure]
  rfl

theorem payFee_withTransactions (account : AccountName) (fee : Asset) :
    (s.withTransactions t).payFee g account fee =
      withTransactions t <$> s.payFee g account fee := by
  simp only [payFee, map_bind, map_ite, map_pure, adjustBalance_withTransactions,
    adjustSupply_withTransactions, bind_map_left]
  rfl

theorem processOperationFee_withTransactions (op : FeeOperation) :
    (s.withTransactions t).processOperationFee g op =
      withTransactions t <$> s.processOperationFee g op := by
  simp only [processOperationFee, map_bind, map_ite, map_pure, payFee_withTransactions]
  rfl

/-! ## Operations -/

theorem transferToVestingEvaluator_withTransactions (fromAccount toAccount : AccountName)
    (amount : Asset) :
    (s.withTransactions t).transferToVestingEvaluator g fromAccount toAccount amount =
      withTransactions t <$> s.transferToVestingEvaluator g fromAccount toAccount amount := by
  simp only [transferToVestingEvaluator, map_bind, map_ite, vest_withTransactions,
    adjustBalance_withTransactions, bind_map_left]
  rfl

theorem transferFromPromotionPoolEvaluator_withTransactions (transferTo : AccountName)
    (amount : Asset) :
    (s.withTransactions t).transferFromPromotionPoolEvaluator g transferTo amount =
      withTransactions t <$> s.transferFromPromotionPoolEvaluator g transferTo amount := by
  have heconomics (economics : EconomicModel) :
      { s.withTransactions t with economics := economics } =
        withTransactions t { s with economics := economics } := rfl
  simp only [transferFromPromotionPoolEvaluator, map_bind, heconomics,
    adjustBalance_withTransactions, adjustSupply_withTransactions, bind_map_left]
  rfl

theorem refundEscrow_withTransactions (key : AccountName × ℕ) (e : Escrow) :
    (s.withTransactions t).refundEscrow g key e =
      withTransactions t <$> s.refundEscrow g key e := by
  simp only [refundEscrow, map_bind, map_pure, adjustBalance_withTransactions, bind_map_left]
  rfl

theorem escrowTransferEvaluator_withTransactions (fromAccount toAccount agent : AccountName)
    (escrowId : ℕ) (sophiatxAmount escrowFee : Asset)
    (ratificationDeadline escrowExpiration : Time) :
    (s.withTransactions t).escrowTransferEvaluator g fromAccount toAccount agent escrowId
        sophiatxAmount escrowFee ratificationDeadline escrowExpiration =
      withTransactions t <$> s.escrowTransferEvaluator g fromAccount toAccount agent escrowId
        sophiatxAmount escrowFee ratificationDeadline escrowExpiration := by
  simp only [escrowTransferEvaluator, map_bind, map_pure, adjustBalance_withTransactions,
    bind_map_left]
  rfl

theorem escrowApproveEvaluator_withTransactions (fromAccount toAccount agent who : AccountName)
    (escrowId : ℕ) (approve : Bool) :
    (s.withTransactions t).escrowApproveEvaluator g fromAccount toAccount agent who escrowId
        approve =
      withTransactions t <$> s.escrowApproveEvaluator g fromAccount toAccount agent who escrowId
        approve := by
  simp only [escrowApproveEvaluator, map_bind, map_pure, map_ite, refundEscrow_withTransactions,
    adjustBalance_withTransactions, bind_map_left, modifyEscrow_withTransactions]
  rfl

theorem escrowReleaseEvaluator_withTransactions
    (fromAccount toAccount agent who receiver : AccountName) (escrowId : ℕ)
    (sophiatxAmount : Asset) :
    (s.withTransactions t).escrowReleaseEvaluator g fromAccount toAccount agent who receiver
        escrowId sophiatxAmount =
      withTransactions t <$> s.escrowReleaseEvaluator g fromAccount toAccount agent who receiver
        escrowId sophiatxAmount := by
  simp only [escrowReleaseEvaluator, map_bind, map_pure, map_ite, adjustBalance_withTransactions,
    bind_map_left, modifyEscrow_withTransactions]
  rfl

theorem accountCreateEvaluator_withTransactions (fee : Asset) (creator : AccountName)
    (nameSeed : Bytes) (owner active : Authority) (memoKey : PublicKey) (jsonMetadata : Bytes) :
    (s.withTransactions t).accountCreateEvaluator ctx fee creator nameSeed owner active memoKey
        jsonMetadata =
      withTransactions t <$> s.accountCreateEvaluator ctx fee creator nameSeed owner active memoKey
        jsonMetadata := by
  have hrows (accounts : Table AccountName Account)
      (authorities : Table AccountName AccountAuthority) :
      { s.withTransactions t with accounts := accounts, authorities := authorities } =
        withTransactions t { s with accounts := accounts, authorities := authorities } := rfl
  have hfee (s : Database) (amount : ShareType) :
      (if 0 < amount then (s.withTransactions t).payFee ctx.genesis creator
          ⟨amount, ctx.genesis.symbol⟩ else pure (s.withTransactions t)) =
        withTransactions t <$> (if 0 < amount then s.payFee ctx.genesis creator
          ⟨amount, ctx.genesis.symbol⟩ else pure s) := by
    rw [map_ite, map_pure, payFee_withTransactions]
  simp only [accountCreateEvaluator, map_bind, hrows, hfee, bind_map_left]
  simp only [map_ite, map_bind, map_pure, adjustBalance_withTransactions, bind_map_left]
  rfl

theorem updateOwnerAuthority_withTransactions (account : AccountName) (owner : Authority) :
    (s.withTransactions t).updateOwnerAuthority account owner =
      withTransactions t <$> s.updateOwnerAuthority account owner := by
  simp only [updateOwnerAuthority, map_bind, map_pure]
  rfl

theorem accountUpdateEvaluator_withTransactions (account : AccountName)
    (owner active : Option Authority) (memoKey : PublicKey) (jsonMetadata : Bytes) :
    (s.withTransactions t).accountUpdateEvaluator account owner active memoKey jsonMetadata =
      withTransactions t <$>
        s.accountUpdateEvaluator account owner active memoKey jsonMetadata := by
  have howner (auth : AccountAuthority) : (s.withTransactions t).updateOwner account auth owner =
      withTransactions t <$> s.updateOwner account auth owner := by
    cases owner with
    | none => rfl
    | some owner =>
      simp only [updateOwner, map_bind, updateOwnerAuthority_withTransactions]
      rfl
  simp only [accountUpdateEvaluator, map_bind, map_pure, howner, bind_map_left,
    modifyAccount_withTransactions]
  cases active <;> rfl

theorem accountDeleteEvaluator_withTransactions (account : AccountName) :
    (s.withTransactions t).accountDeleteEvaluator account =
      withTransactions t <$> s.accountDeleteEvaluator account := by
  simp only [accountDeleteEvaluator, map_bind, map_pure, updateOwnerAuthority_withTransactions,
    bind_map_left]
  rfl

theorem requestAccountRecoveryEvaluator_withTransactions
    (recoveryAccount accountToRecover : AccountName) (newOwnerAuthority : Authority) :
    (s.withTransactions t).requestAccountRecoveryEvaluator recoveryAccount accountToRecover
        newOwnerAuthority =
      withTransactions t <$> s.requestAccountRecoveryEvaluator recoveryAccount accountToRecover
        newOwnerAuthority := by
  have hrequests : (s.withTransactions t).recoveryRequests = s.recoveryRequests := rfl
  simp only [requestAccountRecoveryEvaluator, map_bind, hrequests]
  cases s.recoveryRequests.find? accountToRecover with
  | none =>
    simp only [map_bind, map_pure]
    rfl
  | some _ =>
    simp only [map_ite, map_bind, map_pure]
    rfl

theorem recoverAccountEvaluator_withTransactions (accountToRecover : AccountName)
    (newOwnerAuthority recentOwnerAuthority : Authority) :
    (s.withTransactions t).recoverAccountEvaluator accountToRecover newOwnerAuthority
        recentOwnerAuthority =
      withTransactions t <$> s.recoverAccountEvaluator accountToRecover newOwnerAuthority
        recentOwnerAuthority := by
  have hrequests : (s.withTransactions t).recoveryRequests = s.recoveryRequests := rfl
  have herase (requests : Table AccountName AccountRecoveryRequest) :
      { s.withTransactions t with recoveryRequests := requests } =
        withTransactions t { s with recoveryRequests := requests } := rfl
  simp only [recoverAccountEvaluator, map_bind, herase, updateOwnerAuthority_withTransactions]
  simp only [hrequests]
  cases s.recoveryRequests.find? accountToRecover with
  | none => rfl
  | some _ =>
    simp only [map_bind, map_pure, bind_map_left]
    rfl

theorem changeRecoveryAccountEvaluator_withTransactions
    (accountToRecover newRecoveryAccount : AccountName) :
    (s.withTransactions t).changeRecoveryAccountEvaluator accountToRecover newRecoveryAccount =
      withTransactions t <$>
        s.changeRecoveryAccountEvaluator accountToRecover newRecoveryAccount := by
  have hrequests : (s.withTransactions t).changeRecoveryRequests = s.changeRecoveryRequests := rfl
  simp only [changeRecoveryAccountEvaluator, map_bind, hrequests]
  cases s.changeRecoveryRequests.find? accountToRecover with
  | none =>
    simp only [map_bind, map_pure]
    rfl
  | some _ =>
    simp only [map_ite, map_pure]
    rfl

theorem createWitness_withTransactions (owner : AccountName) (url : Bytes) (key : PublicKey)
    (props : ChainProperties) :
    (s.withTransactions t).createWitness g owner url key props =
      withTransactions t <$> s.createWitness g owner url key props := by
  simp only [createWitness, map_bind, map_pure]
  rfl

theorem witnessUpdateEvaluator_withTransactions (owner : AccountName) (url : Bytes)
    (blockSigningKey : PublicKey) (props : ChainProperties) :
    (s.withTransactions t).witnessUpdateEvaluator ctx owner url blockSigningKey props =
      withTransactions t <$> s.witnessUpdateEvaluator ctx owner url blockSigningKey props := by
  have hwitnesses : (s.withTransactions t).witnesses = s.witnesses := rfl
  simp only [witnessUpdateEvaluator, map_ite, map_bind, map_pure, modifyWitness_withTransactions,
    createWitness_withTransactions, hwitnesses]
  cases s.witnesses.find? owner <;> rfl

theorem adminWitnessUpdateEvaluator_withTransactions (owner : AccountName) (url : Bytes)
    (blockSigningKey : PublicKey) (props : ChainProperties) :
    (s.withTransactions t).adminWitnessUpdateEvaluator g owner url blockSigningKey props =
      withTransactions t <$> s.adminWitnessUpdateEvaluator g owner url blockSigningKey props := by
  have hwitnesses : (s.withTransactions t).witnesses = s.witnesses := rfl
  simp only [adminWitnessUpdateEvaluator, map_bind, createWitness_withTransactions, hwitnesses]
  cases s.witnesses.find? owner <;> rfl

theorem checkProxyChain_withTransactions (rounds : ℕ) (proxyChain : List ℕ) (proxy : Account) :
    (s.withTransactions t).checkProxyChain rounds proxyChain proxy =
      s.checkProxyChain rounds proxyChain proxy := by
  induction rounds generalizing proxyChain proxy with
  | zero => rfl
  | succ rounds ih =>
    simp only [checkProxyChain, ih]
    rfl

theorem accountWitnessProxyEvaluator_withTransactions (account proxy : AccountName) :
    (s.withTransactions t).accountWitnessProxyEvaluator account proxy =
      withTransactions t <$> s.accountWitnessProxyEvaluator account proxy := by
  have hclear (s : Database) : (s.withTransactions t).clearWitnessVotes account =
      (s.clearWitnessVotes account).withTransactions t := rfl
  simp only [accountWitnessProxyEvaluator, map_bind, map_pure, map_ite, bind_map_left, hclear,
    adjustProxiedWitnessVotesArray_withTransactions, modifyAccount_withTransactions,
    checkProxyChain_withTransactions]
  rfl

theorem accountWitnessVoteEvaluator_withTransactions (account witness : AccountName)
    (approve : Bool) :
    (s.withTransactions t).accountWitnessVoteEvaluator g account witness approve =
      withTransactions t <$> s.accountWitnessVoteEvaluator g account witness approve := by
  have hvotes : (s.withTransactions t).witnessVotes = s.witnessVotes := rfl
  have hcreate (votes : Table (AccountName × AccountName) Unit) :
      { s.withTransactions t with witnessVotes := votes } =
        withTransactions t { s with witnessVotes := votes } := rfl
  simp only [accountWitnessVoteEvaluator, map_bind, hcreate, adjustWitnessVote_withTransactions]
  simp only [hvotes]
  cases s.witnessVotes.find? (account, witness) with
  | none =>
    simp only [map_bind, map_pure, bind_map_left]
    rfl
  | some _ =>
    simp only [map_bind, map_pure, bind_map_left]
    rfl

/-- Operations do not see the table of transactions. -/
theorem evaluate_withTransactions (fee : Asset) (op : Operation) :
    (s.withTransactions t).evaluate ctx fee op = withTransactions t <$> s.evaluate ctx fee op := by
  cases op with
  | transfer _ _ _ _ =>
    simp only [evaluate, transferEvaluator, map_bind, adjustBalance_withTransactions, bind_map_left]
    rfl
  | transferToVesting _ _ _ => exact transferToVestingEvaluator_withTransactions t s _ _ _
  | transferFromPromotionPool _ _ =>
    exact transferFromPromotionPoolEvaluator_withTransactions t s _ _
  | accountCreate _ _ _ _ _ _ => exact accountCreateEvaluator_withTransactions t s _ _ _ _ _ _ _
  | accountUpdate _ _ _ _ _ => exact accountUpdateEvaluator_withTransactions t s _ _ _ _ _
  | accountDelete _ => exact accountDeleteEvaluator_withTransactions t s _
  | witnessUpdate _ _ _ _ => exact witnessUpdateEvaluator_withTransactions t s _ _ _ _
  | adminWitnessUpdate _ _ _ _ => exact adminWitnessUpdateEvaluator_withTransactions t s _ _ _ _
  | accountWitnessVote _ _ _ => exact accountWitnessVoteEvaluator_withTransactions t s _ _ _
  | accountWitnessProxy _ _ => exact accountWitnessProxyEvaluator_withTransactions t s _ _
  | requestAccountRecovery _ _ _ =>
    exact requestAccountRecoveryEvaluator_withTransactions t s _ _ _
  | recoverAccount _ _ _ => exact recoverAccountEvaluator_withTransactions t s _ _ _
  | changeRecoveryAccount _ _ => exact changeRecoveryAccountEvaluator_withTransactions t s _ _
  | escrowTransfer _ _ _ _ _ _ _ _ _ =>
    exact escrowTransferEvaluator_withTransactions t s _ _ _ _ _ _ _ _
  | escrowRelease _ _ _ _ _ _ _ => exact escrowReleaseEvaluator_withTransactions t s _ _ _ _ _ _ _
  | escrowApprove _ _ _ _ _ _ => exact escrowApproveEvaluator_withTransactions t s _ _ _ _ _ _
  | resetAccount _ _ _ =>
    simp only [evaluate, resetAccountEvaluator, map_bind, updateOwnerAuthority_withTransactions]
    rfl
  | custom _ _ _ _ | «virtual» => rfl
  | _ =>
    -- What is left reads objects and writes one of them.
    simp only [evaluate, withdrawVestingEvaluator, feedPublishEvaluator, witnessStopEvaluator,
      witnessSetPropertiesEvaluator, escrowDisputeEvaluator, setResetAccountEvaluator,
      applicationCreateEvaluator, applicationUpdateEvaluator, applicationDeleteEvaluator,
      buyApplicationEvaluator, cancelApplicationBuyingEvaluator, sponsorFeesEvaluator, map_bind,
      map_ite, map_pure]
    rfl

theorem applyOperation_withTransactions (op : FeeOperation) :
    (s.withTransactions t).applyOperation ctx op =
      withTransactions t <$> s.applyOperation ctx op := by
  simp only [applyOperation, map_bind, processOperationFee_withTransactions, bind_map_left,
    evaluate_withTransactions]

/-! ## Blocks -/

theorem recalculateAllVotes_withTransactions :
    (s.withTransactions t).recalculateAllVotes = withTransactions t <$> s.recalculateAllVotes := by
  unfold recalculateAllVotes
  refine foldlM_map (w := withTransactions t) (fun s name ↦ ?_) _ s.clearVotes
  simp only [map_bind, adjustProxiedWitnessVotes_withTransactions]
  rfl

theorem applyHardfork_withTransactions (hardfork : ℕ) :
    (s.withTransactions t).applyHardfork g hardfork =
      withTransactions t <$> s.applyHardfork g hardfork := by
  have hvotes : (if hardfork = 1 then (s.withTransactions t).recalculateAllVotes
      else pure (s.withTransactions t)) =
        withTransactions t <$> (if hardfork = 1 then s.recalculateAllVotes else pure s) := by
    rw [map_ite, map_pure, recalculateAllVotes_withTransactions]
  simp only [applyHardfork, hvotes, bind_map_left, map_bind, map_pure]
  rfl

theorem processHardforksLoop_withTransactions (rounds : ℕ) :
    processHardforksLoop g rounds (s.withTransactions t) =
      withTransactions t <$> processHardforksLoop g rounds s := by
  induction rounds generalizing s with
  | zero => rfl
  | succ rounds ih =>
    simp only [processHardforksLoop, map_ite, map_bind, map_pure, map_error,
      applyHardfork_withTransactions, bind_map_left, ih]
    rfl

theorem applyGenesisHardforks_withTransactions (b : SignedBlock) :
    (s.withTransactions t).applyGenesisHardforks g b =
      withTransactions t <$> s.applyGenesisHardforks g b := by
  have hset (n : ℕ) : (s.withTransactions t).setHardfork g n =
      withTransactions t <$> s.setHardfork g n :=
    foldlM_map (fun s i ↦ applyHardfork_withTransactions t { s with
      hardforks := { s.hardforks with
        nextHardfork := hardforkVersions i
        nextHardforkTime := s.dgp.time } } i) _ s
  simp only [applyGenesisHardforks, map_ite, map_bind, map_pure, hset, bind_map_left]
  rfl

theorem processHeaderExtension_withTransactions (witness : AccountName)
    (ext : BlockHeaderExtension) :
    processHeaderExtension witness (s.withTransactions t) ext =
      withTransactions t <$> processHeaderExtension witness s ext := by
  cases ext with
  | void => rfl
  | version _ | hardforkVersionVote _ _ =>
    simp only [processHeaderExtension, map_bind, map_pure]
    rfl

theorem openBlock_withTransactions (b : SignedBlock) :
    (s.withTransactions t).openBlock ctx b = withTransactions t <$> s.openBlock ctx b := by
  have hwitness (s : Database) : { s.withTransactions t with
      dgp := { (s.withTransactions t).dgp with currentWitness := b.witness } } =
        withTransactions t { s with dgp := { s.dgp with currentWitness := b.witness } } := rfl
  have hextensions (s : Database) :
      b.extensions.foldlM (processHeaderExtension b.witness) (s.withTransactions t) =
        withTransactions t <$> b.extensions.foldlM (processHeaderExtension b.witness) s :=
    foldlM_map (fun s ext ↦ processHeaderExtension_withTransactions t s b.witness ext) _ s
  simp only [openBlock, applyGenesisHardforks_withTransactions, bind_map_left, map_bind, hwitness,
    hextensions, map_pure]
  rfl

theorem closeTransaction_withTransactions (trx : Transaction) :
    (s.withTransactions t).closeTransaction ctx trx =
      withTransactions t <$> s.closeTransaction ctx trx := by
  have hbandwidth (s : Database) (bandwidth count : ℕ) (account : AccountName) :
      updateAccountBandwidth ctx.genesis bandwidth count (s.withTransactions t) account =
        withTransactions t <$> updateAccountBandwidth ctx.genesis bandwidth count s account := by
    simp only [updateAccountBandwidth, map_bind, map_pure]
    rfl
  simp only [closeTransaction, map_ite, map_pure]
  refine if_congr Iff.rfl ?_ rfl
  exact foldlM_map (fun s account ↦ hbandwidth s _ _ account) _ s

theorem updateGlobalDynamicData_withTransactions (b : SignedBlock) :
    (s.withTransactions t).updateGlobalDynamicData ctx b =
      withTransactions t <$> s.updateGlobalDynamicData ctx b := by
  have hmiss (s : Database) (slot : ℕ) :
      missSlot ctx.genesis b.witness (s.withTransactions t) slot =
        withTransactions t <$> missSlot ctx.genesis b.witness s slot := by
    simp only [missSlot, map_bind, map_ite, map_pure]
    rfl
  have hslots (slots : List ℕ) (s : Database) :
      slots.foldlM (missSlot ctx.genesis b.witness) (s.withTransactions t) =
        withTransactions t <$> slots.foldlM (missSlot ctx.genesis b.witness) s :=
    foldlM_map hmiss slots s
  simp only [updateGlobalDynamicData, hslots, bind_map_left, map_bind, map_pure]
  rfl

theorem payInterest_withTransactions (name : AccountName) (a : Account) :
    (s.withTransactions t).payInterest g name a =
      Prod.map (withTransactions t) (fun x ↦ x) <$> s.payInterest g name a := by
  have heconomics (economics : EconomicModel) :
      { s.withTransactions t with economics := economics } =
        withTransactions t { s with economics := economics } := rfl
  have hvotes (s : Database) (interest : ShareType) :
      (if 0 < interest ∧ (s.withTransactions t).hasHardfork 1 then
          (s.withTransactions t).adjustProxiedWitnessVotes name interest
        else pure (s.withTransactions t)) =
        withTransactions t <$> (if 0 < interest ∧ s.hasHardfork 1 then
          s.adjustProxiedWitnessVotes name interest else pure s) := by
    rw [map_ite, map_pure, adjustProxiedWitnessVotes_withTransactions]
    rfl
  simp only [payInterest, map_bind, map_pure, heconomics, hvotes, bind_map_left]
  rfl

theorem payInterests_withTransactions (rounds id : ℕ) (supplyIncrease : ShareType) :
    payInterests g rounds id (s.withTransactions t) supplyIncrease =
      Prod.map (withTransactions t) (fun x ↦ x) <$> payInterests g rounds id s supplyIncrease := by
  induction rounds generalizing s id supplyIncrease with
  | zero => rfl
  | succ rounds ih =>
    have hfind : (s.withTransactions t).findAccountById id = s.findAccountById id := rfl
    simp only [payInterests, hfind]
    cases s.findAccountById id with
    | none => rfl
    | some entry =>
      simp only [payInterest_withTransactions, bind_map_left, map_bind, Prod.map_fst, Prod.map_snd,
        ih]

theorem processInterests_withTransactions :
    (s.withTransactions t).processInterests g = withTransactions t <$> s.processInterests g := by
  simp only [processInterests, payInterests_withTransactions, bind_map_left, map_bind,
    Prod.map_fst, Prod.map_snd, adjustSupply_withTransactions]
  rfl

theorem updateMedianFeeds_withTransactions :
    (s.withTransactions t).updateMedianFeeds g = withTransactions t <$> s.updateMedianFeeds g := by
  have hfeed (feeds : List (AssetSymbol × Price)) (s : Database) (symbol : AssetSymbol) :
      updateMedianFeed g feeds (s.withTransactions t) symbol =
        withTransactions t <$> updateMedianFeed g feeds s symbol := by
    simp only [updateMedianFeed, map_ite, map_bind, map_pure]
    rfl
  have hfeeds (feeds : List (AssetSymbol × Price)) (symbols : List AssetSymbol) (s : Database) :
      symbols.foldlM (updateMedianFeed g feeds) (s.withTransactions t) =
        withTransactions t <$> symbols.foldlM (updateMedianFeed g feeds) s :=
    foldlM_map (hfeed feeds) symbols s
  simp only [updateMedianFeeds, map_ite, map_bind, map_pure, map_error, hfeeds]
  rfl

theorem clearNullAccountBalance_withTransactions :
    (s.withTransactions t).clearNullAccountBalance g =
      withTransactions t <$> s.clearNullAccountBalance g := by
  have hliquid (s : Database) (balance : ShareType) :
      (s.withTransactions t).clearNullLiquid g balance =
        Prod.map (withTransactions t) (fun x ↦ x) <$> s.clearNullLiquid g balance := by
    simp only [clearNullLiquid, map_ite, map_bind, map_pure, adjustBalance_withTransactions,
      bind_map_left]
    rfl
  have hvesting (s : Database) (vestingShares total : ShareType) :
      (s.withTransactions t).clearNullVesting vestingShares total =
        Prod.map (withTransactions t) (fun x ↦ x) <$> s.clearNullVesting vestingShares total := by
    simp only [clearNullVesting, map_ite, map_bind, map_pure]
    rfl
  simp only [clearNullAccountBalance, hliquid, hvesting, bind_map_left, map_bind, map_ite,
    map_pure, Prod.map_fst, Prod.map_snd, adjustSupply_withTransactions]
  rfl

theorem processFunds_withTransactions (blockNum : ℕ) :
    (s.withTransactions t).processFunds g blockNum =
      withTransactions t <$> s.processFunds g blockNum := by
  have heconomics (economics : EconomicModel) :
      { s.withTransactions t with economics := economics } =
        withTransactions t { s with economics := economics } := rfl
  simp only [processFunds, map_bind, map_pure, heconomics, createVesting_withTransactions,
    bind_map_left]
  rfl

theorem vestingWithdrawalsLoop_withTransactions (rounds : ℕ)
    (next : Option (AccountName × Account)) :
    vestingWithdrawalsLoop rounds next (s.withTransactions t) =
      withTransactions t <$> vestingWithdrawalsLoop rounds next s := by
  have hwithdrawal (s : Database) (name : AccountName) (a : Account) :
      (s.withTransactions t).processVestingWithdrawal name a =
        withTransactions t <$> s.processVestingWithdrawal name a := by
    simp only [processVestingWithdrawal, map_bind, map_pure]
    rfl
  induction rounds generalizing s next with
  | zero => rfl
  | succ rounds ih =>
    cases next with
    | none => rfl
    | some entry =>
      simp only [vestingWithdrawalsLoop, map_ite, map_bind, map_pure, hwithdrawal,
        bind_map_left, ih]
      rfl

theorem accountRecoveryProcessing_withTransactions :
    (s.withTransactions t).accountRecoveryProcessing =
      withTransactions t <$> s.accountRecoveryProcessing := by
  have hchange (s : Database) (entry : AccountName × ChangeRecoveryAccountRequest) :
      applyRecoveryChange (s.withTransactions t) entry =
        withTransactions t <$> applyRecoveryChange s entry := by
    simp only [applyRecoveryChange, map_bind, map_pure]
    rfl
  exact foldlM_map hchange _ { s with
    recoveryRequests := s.recoveryRequests.filterRows fun _ request ↦
      decide (s.dgp.time < request.expires)
    ownerHistories := s.ownerHistories.dropWhile fun hist ↦
      decide (timeAdd hist.lastValidTime ownerAuthRecoveryPeriod < s.dgp.time) }

theorem expireEscrowRatification_withTransactions :
    (s.withTransactions t).expireEscrowRatification g =
      withTransactions t <$> s.expireEscrowRatification g :=
  foldlM_map (fun s entry ↦ refundEscrow_withTransactions t s entry.1 entry.2) _ s

theorem updateWitnessSchedule_withTransactions :
    (s.withTransactions t).updateWitnessSchedule g =
      withTransactions t <$> s.updateWitnessSchedule g := by
  have hprops (s : Database) : (s.withTransactions t).updateMedianWitnessProps =
      withTransactions t <$> s.updateMedianWitnessProps := by
    simp only [updateMedianWitnessProps, map_bind]
    refine bind_congr fun scheduled ↦ ?_
    split <;> rfl
  have hround : (s.withTransactions t).updateWitnessSchedule4 g =
      withTransactions t <$> s.updateWitnessSchedule4 g := by
    refine bind_map_congr fun processed ↦ bind_map_congr fun witnesses ↦ bind_map_congr fun _ ↦
      bind_map_congr fun votes ↦ ?_
    obtain ⟨majorityVersion, hardforks⟩ := votes
    refine Eq.trans ?_ (hprops _)
    rfl
  simp only [updateWitnessSchedule, map_ite, map_pure, map_error, hround]
  rfl

end Database

/-- Every other stage does not see the table of transactions. -/
theorem Stage.run_withTransactions {ctx : Context} {stage : Stage} (t : Table ℕ Time) (s : Database)
    (hopen : ∀ trx, stage ≠ .openTransaction trx) (hclear : stage ≠ .clearExpiredTransactions) :
    stage.run ctx (s.withTransactions t) = Database.withTransactions t <$> stage.run ctx s := by
  have hpublic (step : Database → Exec Database)
      (hstep : step (s.withTransactions t) = Database.withTransactions t <$> step s) :
      onPublicNet (s.withTransactions t) step =
        Database.withTransactions t <$> onPublicNet s step := by
    rw [onPublicNet, onPublicNet, map_ite, map_pure, hstep]
    rfl
  cases stage with
  | openTransaction trx => exact absurd rfl (hopen trx)
  | clearExpiredTransactions => exact absurd rfl hclear
  | openBlock b => exact Database.openBlock_withTransactions t s b
  | operation _ op => exact Database.applyOperation_withTransactions t s op
  | closeTransaction trx => exact Database.closeTransaction_withTransactions t s trx
  | updateGlobalDynamicData b => exact Database.updateGlobalDynamicData_withTransactions t s b
  | updateSigningWitness b =>
    simp only [run, Database.updateSigningWitness, map_bind, map_pure]
    rfl
  | updateLastIrreversibleBlock =>
    simp only [run, Database.updateLastIrreversibleBlock, map_bind, map_pure]
    rfl
  | createBlockSummary b => rfl
  | updateWitnessSchedule => exact Database.updateWitnessSchedule_withTransactions t s
  | processInterests => exact hpublic _ (Database.processInterests_withTransactions t s)
  | updateMedianFeeds => exact hpublic _ (Database.updateMedianFeeds_withTransactions t s)
  | clearNullAccountBalance =>
    exact hpublic _ (Database.clearNullAccountBalance_withTransactions t s)
  | processFunds b =>
    exact hpublic (fun s ↦ s.processFunds ctx.genesis b.blockNum)
      (Database.processFunds_withTransactions t s b.blockNum)
  | processVestingWithdrawals =>
    exact hpublic _ (Database.vestingWithdrawalsLoop_withTransactions t s _ _)
  | accountRecoveryProcessing => exact Database.accountRecoveryProcessing_withTransactions t s
  | expireEscrowRatification => exact Database.expireEscrowRatification_withTransactions t s
  | processHardforks => exact Database.processHardforksLoop_withTransactions t s _
  | recordBlock b =>
    refine hpublic (fun s ↦ s.recordBlock b.blockNum) ?_
    simp only [Database.recordBlock, map_bind, map_pure]
    rfl

end SophiaTX.Chain
