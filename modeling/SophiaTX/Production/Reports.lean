import SophiaTX.Chain.Council
import SophiaTX.Chain.Position

/-!
# Reports out of sight

A header names the witness that made the block and may report the versions that it runs and votes
for. Transactions look at none of that: they do the same whatever is reported, and leave it as it
is.
-/

namespace SophiaTX.Chain

open SophiaTX.Protocol SophiaTX.Lib

/-- What a witness reports of itself. -/
structure VersionReport where
  runningVersion : Version
  hardforkVersionVote : Version
  hardforkTimeVote : Time

def Witness.reporting (r : VersionReport) (w : Witness) : Witness :=
  { w with
    runningVersion := r.runningVersion
    hardforkVersionVote := r.hardforkVersionVote
    hardforkTimeVote := r.hardforkTimeVote }

namespace Database

/-- The row of a witness once `producer` has reported. -/
def reportedRow (producer : AccountName) (r : VersionReport) (name : AccountName) (w : Witness) :
    Witness :=
  if name = producer then w.reporting r else w

/-- The same state with `producer` at work, and with what it reports. -/
def reportedBy (producer : AccountName) (r : VersionReport) (s : Database) : Database :=
  { s with
    dgp := { s.dgp with currentWitness := producer }
    witnesses := s.witnesses.mapRows (reportedRow producer r) }

variable {ctx : Context} {g : GenesisState} (producer : AccountName) (r : VersionReport)
  (s : Database)

/-! ## Witnesses -/

theorem modifyWitness_reportedRow (name : AccountName) {f f' : Witness → Witness}
    (hf : ∀ w, f' (reportedRow producer r name w) = reportedRow producer r name (f w)) :
    (s.reportedBy producer r).modifyWitness name f' =
      (s.modifyWitness name f).reportedBy producer r := by
  rw [modifyWitness, modifyWitness, reportedBy, reportedBy]
  congr 1
  exact Table.modify_mapRows _ _ name hf

/-- A change of other fields does not meet the report. -/
theorem modifyWitness_reportedBy (name : AccountName) (f : Witness → Witness)
    (hf : ∀ w, f (w.reporting r) = (f w).reporting r) :
    (s.reportedBy producer r).modifyWitness name f =
      (s.modifyWitness name f).reportedBy producer r := by
  apply modifyWitness_reportedRow
  intro w
  unfold reportedRow
  split_ifs
  · exact hf w
  · rfl

theorem getWitness_reportedBy (name : AccountName) : (s.reportedBy producer r).getWitness name =
    reportedRow producer r name <$> s.getWitness name := by
  rw [getWitness, getWitness, reportedBy, Table.find?_mapRows]
  cases s.witnesses.find? name <;> rfl

@[simp]
theorem modifyAccount_reportedBy (name : AccountName) (f : Account → Account) :
    (s.reportedBy producer r).modifyAccount name f =
      (s.modifyAccount name f).reportedBy producer r := rfl

@[simp]
theorem modifyEscrow_reportedBy (key : AccountName × ℕ) (f : Escrow → Escrow) :
    (s.reportedBy producer r).modifyEscrow key f =
      (s.modifyEscrow key f).reportedBy producer r := rfl

theorem adjustVote_reportedRow (now : ℕ) (delta : ShareType) (name : AccountName) (w : Witness) :
    (reportedRow producer r name w).adjustVote now delta =
      reportedRow producer r name <$> w.adjustVote now delta := by
  unfold reportedRow
  split_ifs
  · simp only [Witness.adjustVote, map_bind, map_pure]
    rfl
  · exact (id_map _).symm

/-- The witness with the most votes is the same. -/
theorem witnessesByVote_reportedBy : (s.reportedBy producer r).witnessesByVote.map Prod.fst =
    s.witnessesByVote.map Prod.fst := by
  have hvotes : ∀ entry : AccountName × Witness,
      (reportedRow producer r entry.1 entry.2).votes = entry.2.votes := by
    intro entry
    unfold reportedRow
    split_ifs <;> rfl
  have hsorted := List.map_insertionSort
    (fun a b : AccountName × Witness ↦ b.2.votes < a.2.votes ∨ (a.2.votes = b.2.votes ∧ a.1 ≤ b.1))
    (fun a b : AccountName × Witness ↦ b.2.votes < a.2.votes ∨ (a.2.votes = b.2.votes ∧ a.1 ≤ b.1))
    (fun entry ↦ (entry.1, reportedRow producer r entry.1 entry.2)) s.witnesses.entries
    fun a _ b _ ↦ by simp only [hvotes]
  have hrows : (s.reportedBy producer r).witnessesByVote = s.witnessesByVote.map fun entry ↦
      (entry.1, reportedRow producer r entry.1 entry.2) := hsorted.symm
  rw [hrows, List.map_map]
  rfl

/-! ## Votes and balances -/

theorem adjustWitnessVote_reportedBy (witness : AccountName) (delta : ShareType) :
    (s.reportedBy producer r).adjustWitnessVote witness delta =
      reportedBy producer r <$> s.adjustWitnessVote witness delta := by
  have hmodify (w : Witness) :
      (s.reportedBy producer r).modifyWitness witness
          (fun _ ↦ reportedRow producer r witness w) =
        (s.modifyWitness witness fun _ ↦ w).reportedBy producer r :=
    modifyWitness_reportedRow producer r s witness fun _ ↦ rfl
  have hnow : (s.reportedBy producer r).wso = s.wso := rfl
  simp only [adjustWitnessVote, getWitness_reportedBy, adjustVote_reportedRow, bind_map_left,
    map_bind, map_pure, hmodify, hnow]

theorem adjustWitnessVotes_reportedBy (account : AccountName) (delta : ShareType) :
    (s.reportedBy producer r).adjustWitnessVotes account delta =
      reportedBy producer r <$> s.adjustWitnessVotes account delta :=
  foldlM_map (fun s witness ↦ adjustWitnessVote_reportedBy producer r s witness delta) _ s

theorem adjustProxiedWitnessVotesArray_reportedBy (delta : VoteDeltas) (remaining : ℕ)
    (account : AccountName) :
    adjustProxiedWitnessVotesArray delta remaining account (s.reportedBy producer r) =
      reportedBy producer r <$> adjustProxiedWitnessVotesArray delta remaining account s := by
  induction remaining generalizing account s with
  | zero =>
    simp only [adjustProxiedWitnessVotesArray, map_bind, map_ite, map_pure,
      adjustWitnessVotes_reportedBy]
    rfl
  | succ remaining ih =>
    simp only [adjustProxiedWitnessVotesArray, map_bind, map_ite, modifyAccount_reportedBy,
      adjustWitnessVotes_reportedBy, ih]
    rfl

theorem adjustProxiedWitnessVotes_reportedBy (account : AccountName) (delta : ShareType) :
    (s.reportedBy producer r).adjustProxiedWitnessVotes account delta =
      reportedBy producer r <$> s.adjustProxiedWitnessVotes account delta := by
  unfold adjustProxiedWitnessVotes
  generalize maxProxyRecursionDepth = remaining
  induction remaining generalizing account s with
  | zero =>
    simp only [adjustProxiedWitnessVotesAt, map_bind, map_ite, map_pure,
      adjustWitnessVotes_reportedBy]
    rfl
  | succ remaining ih =>
    simp only [adjustProxiedWitnessVotesAt, map_bind, map_ite, modifyAccount_reportedBy,
      adjustWitnessVotes_reportedBy, ih]
    rfl

theorem adjustBalance_reportedBy (account : AccountName) (delta : Asset) :
    (s.reportedBy producer r).adjustBalance g account delta =
      reportedBy producer r <$> s.adjustBalance g account delta := by
  simp only [adjustBalance, map_bind, modifyAccount_reportedBy,
    adjustProxiedWitnessVotes_reportedBy]
  rfl

theorem vest_reportedBy (account : AccountName) (delta : ShareType) :
    (s.reportedBy producer r).vest account delta =
      reportedBy producer r <$> s.vest account delta := by
  simp only [vest, map_bind, map_pure]
  rfl

theorem adjustSupply_reportedBy (delta : Asset) :
    (s.reportedBy producer r).adjustSupply g delta =
      reportedBy producer r <$> s.adjustSupply g delta := by
  simp only [adjustSupply, map_bind, map_pure]
  rfl

theorem payFee_reportedBy (account : AccountName) (fee : Asset) :
    (s.reportedBy producer r).payFee g account fee =
      reportedBy producer r <$> s.payFee g account fee := by
  simp only [payFee, map_bind, map_ite, map_pure, adjustBalance_reportedBy,
    adjustSupply_reportedBy, bind_map_left]
  rfl

theorem processOperationFee_reportedBy (op : FeeOperation) :
    (s.reportedBy producer r).processOperationFee g op =
      reportedBy producer r <$> s.processOperationFee g op := by
  simp only [processOperationFee, map_bind, map_ite, map_pure, payFee_reportedBy]
  rfl

/-! ## Operations -/

theorem refundEscrow_reportedBy (key : AccountName × ℕ) (e : Escrow) :
    (s.reportedBy producer r).refundEscrow g key e =
      reportedBy producer r <$> s.refundEscrow g key e := by
  simp only [refundEscrow, map_bind, map_pure, adjustBalance_reportedBy, bind_map_left]
  rfl

theorem updateOwnerAuthority_reportedBy (account : AccountName) (owner : Authority) :
    (s.reportedBy producer r).updateOwnerAuthority account owner =
      reportedBy producer r <$> s.updateOwnerAuthority account owner := by
  simp only [updateOwnerAuthority, map_bind, map_pure]
  rfl

theorem assertWitnessBond_reportedBy (account : AccountName) (vestingShares amount : ShareType) :
    (s.reportedBy producer r).assertWitnessBond account vestingShares amount =
      s.assertWitnessBond account vestingShares amount := by
  have hkey (w : Witness) : (reportedRow producer r account w).signingKey = w.signingKey := by
    unfold reportedRow
    split_ifs <;> rfl
  simp only [assertWitnessBond, reportedBy, Table.find?_mapRows]
  cases s.witnesses.find? account with
  | none => rfl
  | some w =>
    simp only [Option.map_some, hkey]
    rfl

theorem assertRecoveryAccount_reportedBy (a : Account) (recoveryAccount : AccountName) :
    (s.reportedBy producer r).assertRecoveryAccount a recoveryAccount =
      s.assertRecoveryAccount a recoveryAccount := by
  have hfirst : ((s.reportedBy producer r).witnessesByVote.head?.map Prod.fst) =
      s.witnessesByVote.head?.map Prod.fst := by
    rw [← List.head?_map, ← List.head?_map, witnessesByVote_reportedBy]
  simp only [assertRecoveryAccount, hfirst]

/-- A new witness is another one than the producer. -/
theorem createWitness_reportedBy (hproducer : producer ∈ s.witnesses.keys) (owner : AccountName)
    (url : Bytes) (key : PublicKey) (props : ChainProperties) :
    (s.reportedBy producer r).createWitness g owner url key props =
      reportedBy producer r <$> s.createWitness g owner url key props := by
  have hrow (w : Witness) (hnew : owner ∉ s.witnesses.keys) :
      reportedRow producer r owner w = w := by
    apply if_neg
    rintro rfl
    exact hnew hproducer
  have hcreate (w : Witness) : createRow (s.reportedBy producer r).witnesses owner w =
      (fun witnesses ↦ witnesses.mapRows (reportedRow producer r)) <$>
        createRow s.witnesses owner w := by
    rw [createRow, createRow, reportedBy, Table.emplace?_mapRows _ _ (hrow w)]
    cases s.witnesses.emplace? owner w <;> rfl
  have hsize : (s.reportedBy producer r).witnesses.size = s.witnesses.size :=
    List.length_map _
  simp only [createWitness, hsize, hcreate, bind_map_left, map_bind, map_pure]
  rfl

theorem witnessUpdateEvaluator_reportedBy (hproducer : producer ∈ s.witnesses.keys)
    (owner : AccountName) (url : Bytes) (blockSigningKey : PublicKey) (props : ChainProperties) :
    (s.reportedBy producer r).witnessUpdateEvaluator ctx owner url blockSigningKey props =
      reportedBy producer r <$>
        s.witnessUpdateEvaluator ctx owner url blockSigningKey props := by
  have hfind : (s.reportedBy producer r).witnesses.find? owner =
      (s.witnesses.find? owner).map (reportedRow producer r owner) := Table.find?_mapRows _ _ _
  have hprivate := modifyWitness_reportedBy producer r s owner
    (fun w ↦ updatePrivateWitness ctx.genesis w url blockSigningKey props) fun _ ↦ rfl
  have hpublic := modifyWitness_reportedBy producer r s owner
    (fun w ↦ publishRates (updateWitness w url blockSigningKey props) s.dgp.time
      (props.priceFeeds.map fun feed ↦ (feed.1, rateInBase ctx.genesis feed.2))) fun _ ↦ rfl
  have htime : (s.reportedBy producer r).dgp.time = s.dgp.time := rfl
  simp only [witnessUpdateEvaluator, map_ite, map_bind, map_pure, hfind, hprivate, hpublic, htime,
    createWitness_reportedBy producer r s hproducer, Option.isSome_map]
  cases s.witnesses.find? owner <;> rfl

theorem adminWitnessUpdateEvaluator_reportedBy (hproducer : producer ∈ s.witnesses.keys)
    (owner : AccountName) (url : Bytes) (blockSigningKey : PublicKey) (props : ChainProperties) :
    (s.reportedBy producer r).adminWitnessUpdateEvaluator g owner url blockSigningKey props =
      reportedBy producer r <$>
        s.adminWitnessUpdateEvaluator g owner url blockSigningKey props := by
  have hfind : (s.reportedBy producer r).witnesses.find? owner =
      (s.witnesses.find? owner).map (reportedRow producer r owner) := Table.find?_mapRows _ _ _
  have hmodify := modifyWitness_reportedBy producer r s owner
    (fun w ↦ updatePrivateWitness g w url blockSigningKey props) fun _ ↦ rfl
  simp only [adminWitnessUpdateEvaluator, map_bind, hfind, hmodify,
    createWitness_reportedBy producer r s hproducer]
  cases s.witnesses.find? owner <;> rfl

theorem witnessSetPropertiesEvaluator_reportedBy (owner : AccountName)
    (props : WitnessProperties) :
    (s.reportedBy producer r).witnessSetPropertiesEvaluator g owner props =
      reportedBy producer r <$> s.witnessSetPropertiesEvaluator g owner props := by
  have hkey (w : Witness) : (reportedRow producer r owner w).signingKey = w.signingKey := by
    unfold reportedRow
    split_ifs <;> rfl
  have hdgp : (s.reportedBy producer r).dgp.privateNet = s.dgp.privateNet ∧
    (s.reportedBy producer r).dgp.time = s.dgp.time := ⟨rfl, rfl⟩
  simp only [witnessSetPropertiesEvaluator, getWitness_reportedBy, bind_map_left, map_bind,
    map_pure, hkey, hdgp]
  refine bind_congr fun w ↦ bind_congr fun _ ↦ bind_congr fun _ ↦ congrArg pure ?_
  exact modifyWitness_reportedBy producer r s owner _ fun _ ↦ rfl

theorem feedPublishEvaluator_reportedBy (publisher : AccountName) (exchangeRate : Price) :
    (s.reportedBy producer r).feedPublishEvaluator g publisher exchangeRate =
      reportedBy producer r <$> s.feedPublishEvaluator g publisher exchangeRate := by
  simp only [feedPublishEvaluator, getWitness_reportedBy, bind_map_left, map_bind, map_pure]
  refine bind_congr fun _ ↦ bind_congr fun w ↦ congrArg pure ?_
  exact modifyWitness_reportedBy producer r s publisher _ fun _ ↦ rfl

theorem witnessStopEvaluator_reportedBy (owner : AccountName) :
    (s.reportedBy producer r).witnessStopEvaluator owner =
      reportedBy producer r <$> s.witnessStopEvaluator owner := by
  simp only [witnessStopEvaluator, map_bind, map_pure]
  refine bind_congr fun _ ↦ congrArg pure ?_
  exact modifyWitness_reportedBy producer r s owner _ fun _ ↦ rfl

theorem accountCreateEvaluator_reportedBy (fee : Asset) (creator : AccountName)
    (nameSeed : Bytes) (owner active : Authority) (memoKey : PublicKey) (jsonMetadata : Bytes) :
    (s.reportedBy producer r).accountCreateEvaluator ctx fee creator nameSeed owner active memoKey
        jsonMetadata =
      reportedBy producer r <$> s.accountCreateEvaluator ctx fee creator nameSeed owner active
        memoKey jsonMetadata := by
  have hrows (accounts : Table AccountName Account)
      (authorities : Table AccountName AccountAuthority) :
      { s.reportedBy producer r with accounts := accounts, authorities := authorities } =
        reportedBy producer r { s with accounts := accounts, authorities := authorities } := rfl
  have hfee (s : Database) (amount : ShareType) :
      (if 0 < amount then (s.reportedBy producer r).payFee ctx.genesis creator
          ⟨amount, ctx.genesis.symbol⟩ else pure (s.reportedBy producer r)) =
        reportedBy producer r <$> (if 0 < amount then s.payFee ctx.genesis creator
          ⟨amount, ctx.genesis.symbol⟩ else pure s) := by
    rw [map_ite, map_pure, payFee_reportedBy]
  simp only [accountCreateEvaluator, map_bind, hrows, hfee, bind_map_left]
  simp only [map_ite, map_bind, map_pure, adjustBalance_reportedBy, bind_map_left]
  rfl

theorem accountUpdateEvaluator_reportedBy (account : AccountName)
    (owner active : Option Authority) (memoKey : PublicKey) (jsonMetadata : Bytes) :
    (s.reportedBy producer r).accountUpdateEvaluator account owner active memoKey jsonMetadata =
      reportedBy producer r <$>
        s.accountUpdateEvaluator account owner active memoKey jsonMetadata := by
  have howner (auth : AccountAuthority) : (s.reportedBy producer r).updateOwner account auth owner =
      reportedBy producer r <$> s.updateOwner account auth owner := by
    cases owner with
    | none => rfl
    | some owner =>
      simp only [updateOwner, map_bind, updateOwnerAuthority_reportedBy]
      rfl
  simp only [accountUpdateEvaluator, map_bind, map_pure, howner, bind_map_left,
    modifyAccount_reportedBy]
  cases active <;> rfl

theorem checkProxyChain_reportedBy (rounds : ℕ) (proxyChain : List ℕ) (proxy : Account) :
    (s.reportedBy producer r).checkProxyChain rounds proxyChain proxy =
      s.checkProxyChain rounds proxyChain proxy := by
  induction rounds generalizing proxyChain proxy with
  | zero => rfl
  | succ rounds ih =>
    simp only [checkProxyChain, ih]
    rfl

theorem accountWitnessProxyEvaluator_reportedBy (account proxy : AccountName) :
    (s.reportedBy producer r).accountWitnessProxyEvaluator account proxy =
      reportedBy producer r <$> s.accountWitnessProxyEvaluator account proxy := by
  have hclear (s : Database) : (s.reportedBy producer r).clearWitnessVotes account =
      (s.clearWitnessVotes account).reportedBy producer r := rfl
  simp only [accountWitnessProxyEvaluator, map_bind, map_pure, map_ite, bind_map_left, hclear,
    adjustProxiedWitnessVotesArray_reportedBy, modifyAccount_reportedBy,
    checkProxyChain_reportedBy]
  rfl

theorem accountWitnessVoteEvaluator_reportedBy (account witness : AccountName)
    (approve : Bool) :
    (s.reportedBy producer r).accountWitnessVoteEvaluator g account witness approve =
      reportedBy producer r <$> s.accountWitnessVoteEvaluator g account witness approve := by
  have hvotes : (s.reportedBy producer r).witnessVotes = s.witnessVotes := rfl
  have hcreate (votes : Table (AccountName × AccountName) Unit) :
      { s.reportedBy producer r with witnessVotes := votes } =
        reportedBy producer r { s with witnessVotes := votes } := rfl
  simp only [accountWitnessVoteEvaluator, map_bind, hcreate, adjustWitnessVote_reportedBy,
    getWitness_reportedBy, bind_map_left]
  simp only [hvotes]
  cases s.witnessVotes.find? (account, witness) with
  | none =>
    simp only [map_bind, map_pure]
    rfl
  | some _ =>
    simp only [map_bind, map_pure]
    rfl

/-- Operations do not see who makes the block and what it reports. -/
theorem evaluate_reportedBy (hproducer : producer ∈ s.witnesses.keys) (fee : Asset)
    (op : Operation) :
    (s.reportedBy producer r).evaluate ctx fee op =
      reportedBy producer r <$> s.evaluate ctx fee op := by
  have hrecovery : (s.reportedBy producer r).recoveryRequests = s.recoveryRequests := rfl
  have hchanges : (s.reportedBy producer r).changeRecoveryRequests = s.changeRecoveryRequests := rfl
  cases op with
  | witnessUpdate _ _ _ _ => exact witnessUpdateEvaluator_reportedBy producer r s hproducer _ _ _ _
  | adminWitnessUpdate _ _ _ _ =>
    exact adminWitnessUpdateEvaluator_reportedBy producer r s hproducer _ _ _ _
  | witnessStop _ => exact witnessStopEvaluator_reportedBy producer r s _
  | witnessSetProperties _ _ => exact witnessSetPropertiesEvaluator_reportedBy producer r s _ _
  | feedPublish _ _ => exact feedPublishEvaluator_reportedBy producer r s _ _
  | accountCreate _ _ _ _ _ _ =>
    exact accountCreateEvaluator_reportedBy producer r s _ _ _ _ _ _ _
  | accountUpdate _ _ _ _ _ => exact accountUpdateEvaluator_reportedBy producer r s _ _ _ _ _
  | accountWitnessVote _ _ _ => exact accountWitnessVoteEvaluator_reportedBy producer r s _ _ _
  | accountWitnessProxy _ _ => exact accountWitnessProxyEvaluator_reportedBy producer r s _ _
  | requestAccountRecovery _ account _ =>
    simp only [evaluate, requestAccountRecoveryEvaluator, map_bind, hrecovery,
      assertRecoveryAccount_reportedBy]
    cases s.recoveryRequests.find? account with
    | none =>
      simp only [map_bind, map_pure]
      rfl
    | some _ =>
      simp only [map_ite, map_bind, map_pure]
      rfl
  | recoverAccount account _ _ =>
    have herase (requests : Table AccountName AccountRecoveryRequest) :
        { s.reportedBy producer r with recoveryRequests := requests } =
          reportedBy producer r { s with recoveryRequests := requests } := rfl
    simp only [evaluate, recoverAccountEvaluator, map_bind, herase,
      updateOwnerAuthority_reportedBy]
    simp only [hrecovery]
    cases s.recoveryRequests.find? account with
    | none => rfl
    | some _ =>
      simp only [map_bind, map_pure, bind_map_left]
      rfl
  | changeRecoveryAccount account _ =>
    simp only [evaluate, changeRecoveryAccountEvaluator, map_bind, hchanges]
    cases s.changeRecoveryRequests.find? account with
    | none =>
      simp only [map_bind, map_pure]
      rfl
    | some _ =>
      simp only [map_ite, map_pure]
      rfl
  | transferFromPromotionPool _ _ =>
    have heconomics (economics : EconomicModel) :
        { s.reportedBy producer r with economics := economics } =
          reportedBy producer r { s with economics := economics } := rfl
    simp only [evaluate, transferFromPromotionPoolEvaluator, map_bind, heconomics,
      adjustBalance_reportedBy, adjustSupply_reportedBy, bind_map_left]
    rfl
  | custom _ _ _ _ | «virtual» => rfl
  | _ =>
    -- What is left pays, or reads objects and writes one of them.
    simp only [evaluate, transferEvaluator, transferToVestingEvaluator, escrowTransferEvaluator,
      escrowReleaseEvaluator, escrowApproveEvaluator, accountDeleteEvaluator,
      resetAccountEvaluator, withdrawVestingEvaluator, escrowDisputeEvaluator,
      setResetAccountEvaluator, applicationCreateEvaluator, applicationUpdateEvaluator,
      applicationDeleteEvaluator, buyApplicationEvaluator, cancelApplicationBuyingEvaluator,
      sponsorFeesEvaluator, map_bind, map_ite, map_pure, adjustBalance_reportedBy,
      vest_reportedBy, refundEscrow_reportedBy, updateOwnerAuthority_reportedBy,
      assertWitnessBond_reportedBy, modifyAccount_reportedBy, modifyEscrow_reportedBy,
      bind_map_left]
    rfl

theorem applyOperation_reportedBy (hproducer : producer ∈ s.witnesses.keys) (op : FeeOperation) :
    (s.reportedBy producer r).applyOperation ctx op =
      reportedBy producer r <$> s.applyOperation ctx op := by
  simp only [applyOperation, processOperationFee_reportedBy, bind_map_left, map_bind]
  cases hfee : s.processOperationFee ctx.genesis op with
  | error _ => rfl
  | ok s₁ =>
    have hkeys : s₁.witnesses.keys = s.witnesses.keys :=
      (processOperationFee_commerce hfee).witnesses.1
    rw [ok_bind, ok_bind]
    exact evaluate_reportedBy producer r s₁ (hkeys ▸ hproducer) op.fee op.op

/-! ## Transactions -/

theorem openTransaction_reportedBy (trx : Transaction) :
    (s.reportedBy producer r).openTransaction ctx trx =
      reportedBy producer r <$> s.openTransaction ctx trx := by
  simp only [openTransaction, map_bind, map_ite, map_pure]
  rfl

theorem closeTransaction_reportedBy (trx : Transaction) :
    (s.reportedBy producer r).closeTransaction ctx trx =
      reportedBy producer r <$> s.closeTransaction ctx trx := by
  have hbandwidth (s : Database) (bandwidth count : ℕ) (account : AccountName) :
      updateAccountBandwidth ctx.genesis bandwidth count (s.reportedBy producer r) account =
        reportedBy producer r <$> updateAccountBandwidth ctx.genesis bandwidth count s account := by
    simp only [updateAccountBandwidth, map_bind, map_pure]
    rfl
  simp only [closeTransaction, map_ite, map_pure]
  refine if_congr Iff.rfl ?_ rfl
  exact foldlM_map (fun s account ↦ hbandwidth s _ _ account) _ s

end Database

variable {ctx : Context} {s s' : Database} {producer : AccountName} {stages : List Stage}

theorem Council.isSome_setKey {c : Council} {name : AccountName} {key : PublicKey}
    (h : (c.keys producer).isSome) : ((c.setKey name key).keys producer).isSome := by
  simp only [setKey, Function.update_apply]
  split_ifs
  · rfl
  · exact h

theorem Council.OperationStep.isSome_keys {c c' : Council} {op : Operation}
    (hstep : c.OperationStep op c') (h : (c.keys producer).isSome) :
    (c'.keys producer).isSome := by
  cases op with
  | witnessUpdate _ _ _ _ | adminWitnessUpdate _ _ _ _ =>
    rw [show c' = _ from hstep]
    exact isSome_setKey h
  | witnessStop owner =>
    rw [show c' = _ from hstep]
    by_cases howner : producer = owner
    · rw [howner] at h ⊢
      simpa using h
    · simpa [howner] using h
  | witnessSetProperties _ _ =>
    obtain ⟨_, _, _, rfl⟩ := hstep
    exact isSome_setKey h
  | _ =>
    rw [show c' = c from hstep]
    exact h

/-- No transaction removes a witness. -/
theorem inTransaction_witness {stage : Stage} (hinside : stage.InTransaction)
    (h : stage.run ctx s = .ok s') (hproducer : producer ∈ s.witnesses.keys) :
    producer ∈ s'.witnesses.keys := by
  have hkeys (t : Database) :
      producer ∈ t.witnesses.keys ↔ (t.council.keys producer).isSome := by
    rw [Table.mem_keys_iff, Database.council, Option.isSome_map, Option.isSome_iff_exists]
  have hstep := Stage.council_step h
  rw [hkeys] at hproducer ⊢
  cases stage with
  | openTransaction _ | closeTransaction _ =>
    rw [show s'.council = s.council from hstep]
    exact hproducer
  | operation trx op => exact hstep.isSome_keys hproducer
  | _ => cases hinside

theorem Stage.run_reportedBy (r : VersionReport) {stage : Stage} (hinside : stage.InTransaction)
    (hproducer : producer ∈ s.witnesses.keys) :
    stage.run ctx (s.reportedBy producer r) =
      Database.reportedBy producer r <$> stage.run ctx s := by
  cases stage with
  | openTransaction trx => exact s.openTransaction_reportedBy producer r trx
  | operation _ op => exact s.applyOperation_reportedBy producer r hproducer op
  | closeTransaction trx => exact s.closeTransaction_reportedBy producer r trx
  | _ => cases hinside

/-- The transactions of a block do the same before and after its header has been read. -/
theorem runStages_reportedBy (r : VersionReport) (hinside : ∀ stage ∈ stages, stage.InTransaction)
    (hproducer : producer ∈ s.witnesses.keys) :
    runStages ctx stages (s.reportedBy producer r) =
      Database.reportedBy producer r <$> runStages ctx stages s := by
  unfold runStages
  induction stages generalizing s with
  | nil => rfl
  | cons stage rest ih =>
    obtain ⟨hstage, hrest⟩ := List.forall_mem_cons.1 hinside
    rw [List.foldlM_cons, List.foldlM_cons, Stage.run_reportedBy r hstage hproducer]
    cases hrun : stage.run ctx s with
    | error _ => rfl
    | ok s₁ => exact ih hrest (inTransaction_witness hstage hrun hproducer)

end SophiaTX.Chain
