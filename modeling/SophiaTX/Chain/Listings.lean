import SophiaTX.Chain.Tallies

/-!
# Applications, sponsors, prices and chain properties

What the chain lists for everyone: the applications and who has bought them, the sponsors of
accounts, the median prices, the scheduled witnesses and their median properties. The first three
are written by the evaluators of their own operations only, the others by one step of a block each.
-/

namespace SophiaTX.Chain

open SophiaTX.Protocol SophiaTX.Lib

structure Listings where
  applications : Table ApplicationName Application
  nextApplicationId : ℕ
  applicationBuyings : Table (AccountName × ℤ) Time
  sponsors : Table AccountName AccountName
  feedHistories : Table AssetSymbol FeedHistory
  numScheduledWitnesses : ℕ
  currentShuffledWitnesses : List AccountName
  medianProps : ChainProperties
  maximumBlockSize : ℕ

def Database.listings (s : Database) : Listings where
  applications := s.applications
  nextApplicationId := s.nextApplicationId
  applicationBuyings := s.applicationBuyings
  sponsors := s.sponsors
  feedHistories := s.feedHistories
  numScheduledWitnesses := s.wso.numScheduledWitnesses
  currentShuffledWitnesses := s.wso.currentShuffledWitnesses
  medianProps := s.wso.medianProps
  maximumBlockSize := s.dgp.maximumBlockSize

/-- An application is listed under an id. -/
def Listings.Lists (l : Listings) (name : ApplicationName) (app : Application) (id : ℤ) : Prop :=
  l.applications.find? name = some app ∧ (app.id : ℤ) = id

/-- What an operation that succeeds does to the listings. -/
def Listings.OperationStep (now : Time) (l : Listings) (op : Operation) (l' : Listings) : Prop :=
  match op with
  | .applicationCreate author name url metadata priceParam => ∃ applications,
      l.applications.emplace? (.ofString name)
        ⟨l.nextApplicationId, author, url, metadata, priceParam⟩ = some applications ∧
      l' = { l with
        applications := applications
        nextApplicationId := l.nextApplicationId + 1 }
  | .applicationUpdate author newAuthor name url metadata priceParam => ∃ app,
      l.applications.find? (.ofString name) = some app ∧ app.author = author ∧
      l' = { l with applications := l.applications.modify (.ofString name) fun app ↦ { app with
        author := newAuthor.getD app.author
        priceParam := priceParam.getD app.priceParam
        metadata := if metadata.length > 0 then metadata else app.metadata
        url := if url.length > 0 then url else app.url } }
  | .applicationDelete author name => ∃ app,
      l.applications.find? (.ofString name) = some app ∧ app.author = author ∧
      l' = { l with
        applicationBuyings :=
          l.applicationBuyings.filterRows fun key _ ↦ decide (key.2 ≠ app.id)
        applications := l.applications.erase (.ofString name) }
  | .buyApplication buyer appId => ∃ name app buyings, l.Lists name app appId ∧
      l.applicationBuyings.emplace? (buyer, appId) now = some buyings ∧
      l' = { l with applicationBuyings := buyings }
  | .cancelApplicationBuying appOwner buyer appId => ∃ name app, l.Lists name app appId ∧
      app.author = appOwner ∧
      l' = { l with applicationBuyings := l.applicationBuyings.erase (buyer, appId) }
  | .sponsorFees sponsor sponsored isSponsoring =>
    if sponsor = 0 then (∃ former, l.sponsors.find? sponsored = some former) ∧
      l' = { l with sponsors := l.sponsors.erase sponsored }
    else if isSponsoring then ∃ sponsors,
      l.sponsors.emplace? sponsored sponsor = some sponsors ∧ l' = { l with sponsors := sponsors }
    else l.sponsors.find? sponsored = some sponsor ∧
      l' = { l with sponsors := l.sponsors.erase sponsored }
  | _ => l' = l

variable {ctx : Context} {g : GenesisState} {s s₁ s' : Database}

/-- Operations change neither the schedule nor what the witnesses decide. -/
theorem Listings.OperationStep.rest {now : Time} {l l' : Listings} {op : Operation}
    (h : l.OperationStep now op l') : l' = { l with
      applications := l'.applications
      nextApplicationId := l'.nextApplicationId
      applicationBuyings := l'.applicationBuyings
      sponsors := l'.sponsors } := by
  cases op with
  | applicationCreate _ _ _ _ _ =>
    obtain ⟨_, _, rfl⟩ := h
    rfl
  | applicationUpdate _ _ _ _ _ _ | applicationDelete _ _ =>
    obtain ⟨_, _, _, rfl⟩ := h
    rfl
  | buyApplication _ _ =>
    obtain ⟨_, _, _, _, _, rfl⟩ := h
    rfl
  | cancelApplicationBuying _ _ _ =>
    obtain ⟨_, _, _, _, rfl⟩ := h
    rfl
  | sponsorFees _ _ _ =>
    simp only [OperationStep] at h
    split at h
    · rw [h.2]
    · split at h
      · obtain ⟨_, _, rfl⟩ := h
        rfl
      · rw [h.2]
  | _ => exact h ▸ rfl

attribute [local grind =] bind_eq_ok pure_eq_ok

theorem VoteFrame.listings_eq (h : VoteFrame s s') : s'.listings = s.listings := by
  rw [h.rest]
  rfl

theorem listings_foldlM {α : Type} {f : Database → α → Exec Database} {l : List α}
    (hf : ∀ s a s', f s a = .ok s' → s'.listings = s.listings) (h : l.foldlM f s = .ok s') :
    s'.listings = s.listings :=
  foldlM_invariant (I := fun t ↦ t.listings = s.listings)
    (fun _ _ _ _ hround hs ↦ (hf _ _ _ hround).trans hs) h rfl

namespace Database

/-! ## Parts of evaluators -/

@[simp, grind =]
theorem modifyAccount_listings (s : Database) (name : AccountName) (f : Account → Account) :
    (s.modifyAccount name f).listings = s.listings := rfl

@[simp, grind =]
theorem modifyWitness_listings (s : Database) (name : AccountName) (f : Witness → Witness) :
    (s.modifyWitness name f).listings = s.listings := rfl

@[simp, grind =]
theorem modifyEscrow_listings (s : Database) (key : AccountName × ℕ) (f : Escrow → Escrow) :
    (s.modifyEscrow key f).listings = s.listings := rfl

@[simp, grind =]
theorem updateActive_listings (s : Database) (account : AccountName)
    (active : Option Authority) : (s.updateActive account active).listings = s.listings := by
  cases active <;> rfl

@[grind →]
theorem adjustBalance_listings {account : AccountName} {delta : Asset}
    (h : s.adjustBalance g account delta = .ok s') : s'.listings = s.listings := by
  obtain ⟨_, a, ha, _, hvotes⟩ := adjustBalance_eq_ok h
  exact (adjustProxiedWitnessVotes_frame hvotes).listings_eq

@[grind →]
theorem vest_listings {account : AccountName} {delta : ShareType}
    (h : s.vest account delta = .ok s') : s'.listings = s.listings := by
  obtain ⟨a, ha, _, rfl⟩ := vest_eq_ok h
  rfl

@[grind →]
theorem adjustSupply_listings {delta : Asset} (h : s.adjustSupply g delta = .ok s') :
    s'.listings = s.listings := by
  obtain ⟨_, _, rfl⟩ := adjustSupply_eq_ok h
  rfl

@[grind →]
theorem payFee_listings {account : AccountName} {fee : Asset}
    (h : s.payFee g account fee = .ok s') : s'.listings = s.listings := by
  simp only [payFee, bind_eq_ok] at h
  grind [listings]

theorem processOperationFee_listings {op : FeeOperation}
    (h : s.processOperationFee g op = .ok s') : s'.listings = s.listings := by
  unfold processOperationFee at h
  grind

@[grind →]
theorem refundEscrow_listings {key : AccountName × ℕ} {e : Escrow}
    (h : s.refundEscrow g key e = .ok s') : s'.listings = s.listings := by
  simp only [refundEscrow, bind_eq_ok] at h
  grind [listings]

@[grind →]
theorem adjustWitnessVote_listings {witness : AccountName} {delta : ShareType}
    (h : s.adjustWitnessVote witness delta = .ok s') : s'.listings = s.listings :=
  (adjustWitnessVote_frame h).listings_eq

@[grind →]
theorem adjustProxiedWitnessVotes_listings {account : AccountName} {delta : ShareType}
    (h : s.adjustProxiedWitnessVotes account delta = .ok s') : s'.listings = s.listings :=
  (adjustProxiedWitnessVotes_frame h).listings_eq

@[grind →]
theorem adjustProxiedWitnessVotesArray_listings {delta : VoteDeltas} {remaining : ℕ}
    {account : AccountName}
    (h : adjustProxiedWitnessVotesArray delta remaining account s = .ok s') :
    s'.listings = s.listings :=
  (adjustProxiedWitnessVotesArray_frame h).listings_eq

@[grind →]
theorem createWitness_listings {owner : AccountName} {url : Bytes} {key : PublicKey}
    {props : ChainProperties} (h : s.createWitness g owner url key props = .ok s') :
    s'.listings = s.listings := by
  simp only [createWitness, bind_eq_ok] at h
  grind [listings]

@[grind →]
theorem updateOwnerAuthority_listings {account : AccountName} {owner : Authority}
    (h : s.updateOwnerAuthority account owner = .ok s') : s'.listings = s.listings := by
  simp only [updateOwnerAuthority, bind_eq_ok] at h
  grind [listings]

@[grind →]
theorem updateOwner_listings {account : AccountName} {auth : AccountAuthority}
    {owner : Option Authority} (h : s.updateOwner account auth owner = .ok s') :
    s'.listings = s.listings := by
  cases owner with
  | none => exact congrArg listings (pure_eq_ok.1 h).symm
  | some owner =>
    simp only [updateOwner, bind_eq_ok] at h
    grind

/-! ## Operations -/

theorem getApplicationById_eq_ok {id : ℤ} {app : Application}
    (h : s.getApplicationById id = .ok app) : ∃ name, s.listings.Lists name app id := by
  simp only [getApplicationById, orUnknownKey_eq_ok, Option.map_eq_some_iff] at h
  obtain ⟨⟨name, row⟩, hrow, rfl⟩ := h
  have hid := List.find?_some hrow
  exact ⟨name, (Table.find?_eq_some_iff _ _ _).2 (List.mem_of_find?_eq_some hrow),
    of_decide_eq_true hid⟩

theorem sponsorFeesEvaluator_listings {sponsor sponsored : AccountName} {isSponsoring : Bool}
    (h : s.sponsorFeesEvaluator sponsor sponsored isSponsoring = .ok s') :
    s.listings.OperationStep s.dgp.time (.sponsorFees sponsor sponsored isSponsoring)
      s'.listings := by
  simp only [sponsorFeesEvaluator, bind_eq_ok] at h
  obtain ⟨_, _, h⟩ := h
  simp only [Listings.OperationStep]
  split at h
  · rename_i hempty
    simp only [bind_eq_ok, orUnknownKey_eq_ok, pure_eq_ok] at h
    obtain ⟨former, hformer, rfl⟩ := h
    rw [if_pos hempty]
    exact ⟨⟨former, hformer⟩, rfl⟩
  · rename_i hsponsor
    rw [if_neg hsponsor]
    simp only [bind_eq_ok] at h
    obtain ⟨_, _, _, _, h⟩ := h
    cases isSponsoring with
    | true =>
      simp only [if_true, bind_eq_ok, createRow_eq_ok, pure_eq_ok] at h
      obtain ⟨_, _, sponsors, hsponsors, rfl⟩ := h
      exact ⟨sponsors, hsponsors, rfl⟩
    | false =>
      simp only [Bool.false_eq_true, if_false, bind_eq_ok, fcAssert_eq_ok, pure_eq_ok] at h
      obtain ⟨_, hcurrent, rfl⟩ := h
      exact ⟨hcurrent, rfl⟩

theorem evaluate_listings {fee : Asset} {op : Operation} (h : s.evaluate ctx fee op = .ok s') :
    s.listings.OperationStep s.dgp.time op s'.listings := by
  cases op with
  | customJson _ _ _ _ | customBinary _ _ _ _ => exact pure_eq_ok.1 h ▸ rfl
  | custom _ _ _ _ => exact pure_eq_ok.1 h ▸ rfl
  | transfer _ _ _ _ | transferToVesting _ _ _ | escrowTransfer _ _ _ _ _ _ _ _ _
  | transferFromPromotionPool _ _ =>
    change s'.listings = s.listings
    simp only [evaluate, transferEvaluator, transferToVestingEvaluator, escrowTransferEvaluator,
      transferFromPromotionPoolEvaluator, bind_eq_ok] at h
    grind [listings]
  | escrowDispute _ _ _ _ _ | escrowRelease _ _ _ _ _ _ _ | escrowApprove _ _ _ _ _ _ =>
    change s'.listings = s.listings
    simp only [evaluate, escrowDisputeEvaluator, escrowReleaseEvaluator, escrowApproveEvaluator,
      bind_eq_ok] at h
    grind [listings]
  | withdrawVesting _ _ =>
    obtain ⟨_, a, rate, next, _, _, _, _, rfl⟩ := withdrawVestingEvaluator_eq_ok h
    rfl
  | accountWitnessProxy _ _ | accountWitnessVote _ _ _ | feedPublish _ _ | witnessStop _
  | witnessSetProperties _ _ | witnessUpdate _ _ _ _ | adminWitnessUpdate _ _ _ _ =>
    change s'.listings = s.listings
    simp only [evaluate, accountWitnessProxyEvaluator, accountWitnessVoteEvaluator,
      feedPublishEvaluator, witnessStopEvaluator, witnessSetPropertiesEvaluator,
      witnessUpdateEvaluator, adminWitnessUpdateEvaluator, clearWitnessVotes, bind_eq_ok] at h
    grind [listings, modifyAccount]
  | accountCreate _ _ _ _ _ _ | accountUpdate _ _ _ _ _ | accountDelete _ | resetAccount _ _ _
  | setResetAccount _ _ _ =>
    change s'.listings = s.listings
    simp only [evaluate, accountCreateEvaluator, accountUpdateEvaluator, accountDeleteEvaluator,
      resetAccountEvaluator, setResetAccountEvaluator, bind_eq_ok] at h
    grind [listings, modifyAccount]
  | requestAccountRecovery _ _ _ | recoverAccount _ _ _ | changeRecoveryAccount _ _ =>
    change s'.listings = s.listings
    simp only [evaluate, requestAccountRecoveryEvaluator, recoverAccountEvaluator,
      changeRecoveryAccountEvaluator, bind_eq_ok] at h
    grind [listings]
  | applicationCreate author name url metadata priceParam =>
    simp only [evaluate, applicationCreateEvaluator, bind_eq_ok, createRow_eq_ok, pure_eq_ok] at h
    obtain ⟨_, _, applications, happlications, rfl⟩ := h
    exact ⟨applications, happlications, rfl⟩
  | applicationUpdate author newAuthor name url metadata priceParam =>
    simp only [evaluate, applicationUpdateEvaluator, getApplication, bind_eq_ok,
      orUnknownKey_eq_ok, fcAssert_eq_ok, pure_eq_ok] at h
    obtain ⟨app, happ, _, _, _, hauthor, rfl⟩ := h
    exact ⟨app, happ, hauthor, rfl⟩
  | applicationDelete author name =>
    simp only [evaluate, applicationDeleteEvaluator, getApplication, bind_eq_ok,
      orUnknownKey_eq_ok, fcAssert_eq_ok, pure_eq_ok] at h
    obtain ⟨app, happ, _, hauthor, rfl⟩ := h
    exact ⟨app, happ, hauthor, rfl⟩
  | buyApplication buyer appId =>
    simp only [evaluate, buyApplicationEvaluator, bind_eq_ok, createRow_eq_ok, pure_eq_ok] at h
    obtain ⟨_, _, app, happ, _, _, buyings, hbuyings, rfl⟩ := h
    obtain ⟨name, hname⟩ := getApplicationById_eq_ok happ
    exact ⟨name, app, buyings, hname, hbuyings, rfl⟩
  | cancelApplicationBuying appOwner buyer appId =>
    simp only [evaluate, cancelApplicationBuyingEvaluator, bind_eq_ok, orUnknownKey_eq_ok,
      fcAssert_eq_ok, pure_eq_ok] at h
    obtain ⟨_, _, app, happ, _, _, _, hauthor, rfl⟩ := h
    obtain ⟨name, hname⟩ := getApplicationById_eq_ok happ
    exact ⟨name, app, hname, hauthor, rfl⟩
  | sponsorFees sponsor sponsored isSponsoring => exact sponsorFeesEvaluator_listings h
  | virtual => cases h

/-! ## Other stages -/

theorem applyHardfork_listings {hardfork : ℕ} (h : s.applyHardfork g hardfork = .ok s') :
    s'.listings = s.listings := by
  simp only [applyHardfork, bind_eq_ok] at h
  obtain ⟨s₁, hvotes, h⟩ := h
  have hs₁ : s₁.listings = s.listings := by
    split at hvotes
    · apply (listings_foldlM _ hvotes).trans rfl
      intro s₂ name s₃ hround
      grind
    · exact congrArg listings (pure_eq_ok.1 hvotes).symm
  grind [listings]

theorem setHardfork_listings {hardfork : ℕ} (h : s.setHardfork g hardfork = .ok s') :
    s'.listings = s.listings := by
  apply listings_foldlM _ h
  intro s₁ i s₂ hround
  have hs₂ := applyHardfork_listings hround
  exact hs₂

theorem processHardforks_listings (h : s.processHardforks g = .ok s') :
    s'.listings = s.listings := by
  unfold processHardforks at h
  generalize numHardforks + 1 = rounds at h
  induction rounds generalizing s with
  | zero => exact congrArg listings (pure_eq_ok.1 h).symm
  | succ rounds ih =>
    unfold processHardforksLoop at h
    have hround := @applyHardfork_listings
    grind

theorem openBlock_listings {b : SignedBlock} (h : s.openBlock ctx b = .ok s') :
    s'.listings = s.listings := by
  simp only [openBlock, bind_eq_ok, fcAssert_eq_ok, pure_eq_ok] at h
  obtain ⟨s₁, hforks, _, _, _, _, _, _, s₂, hextensions, _, _, _, _, rfl⟩ := h
  have hs₁ : s₁.listings = s.listings := by
    have hset := @setHardfork_listings
    simp only [applyGenesisHardforks] at hforks
    grind [listings]
  have hs₂ : s₂.listings = s₁.listings := by
    apply (listings_foldlM _ hextensions).trans rfl
    intro s₃ extension s₄ hround
    cases extension <;> simp only [processHeaderExtension] at hround <;> grind
  exact hs₂.trans hs₁

theorem openTransaction_listings {trx : Transaction} (h : s.openTransaction ctx trx = .ok s') :
    s'.listings = s.listings := by
  simp only [openTransaction, bind_eq_ok] at h
  grind [listings]

theorem updateGlobalDynamicData_listings {b : SignedBlock}
    (h : s.updateGlobalDynamicData ctx b = .ok s') : s'.listings = s.listings := by
  simp only [updateGlobalDynamicData, bind_eq_ok, pure_eq_ok] at h
  obtain ⟨_, _, s₁, hmissed, _, _, rfl⟩ := h
  have hs₁ : s₁.listings = s.listings := by
    apply listings_foldlM _ hmissed
    intro s₂ slot s₃ hround
    simp only [missSlot, bind_eq_ok] at hround
    grind
  rw [← hs₁, shiftSlots_eq]
  rfl

theorem payInterest_listings {name : AccountName} {a : Account} {interest : ShareType}
    (h : s.payInterest g name a = .ok (s', interest)) : s'.listings = s.listings := by
  obtain ⟨economics, s₁, a₁, _, hvotes, _, rfl⟩ := payInterest_eq_ok h
  have hs₁ : s₁.listings = s.listings := by grind [listings]
  exact hs₁

theorem payInterests_listings {rounds id : ℕ} {supplyIncrease total : ShareType}
    (h : payInterests g rounds id s supplyIncrease = .ok (s', total)) :
    s'.listings = s.listings := by
  induction rounds generalizing id s supplyIncrease with
  | zero =>
    cases h
    rfl
  | succ rounds ih =>
    unfold payInterests at h
    split at h
    · cases h
      rfl
    · simp only [bind_eq_ok, Prod.exists] at h
      obtain ⟨s₁, interest, hpay, _, _, h⟩ := h
      exact (ih h).trans (payInterest_listings hpay)

theorem processInterests_listings (h : s.processInterests g = .ok s') :
    s'.listings = s.listings := by
  simp only [processInterests, bind_eq_ok, Prod.exists] at h
  obtain ⟨s₁, total, hpay, hsupply⟩ := h
  exact (adjustSupply_listings hsupply).trans (payInterests_listings hpay)

theorem clearNullAccountBalance_listings (h : s.clearNullAccountBalance g = .ok s') :
    s'.listings = s.listings := by
  simp only [clearNullAccountBalance, clearNullLiquid, clearNullVesting, bind_eq_ok] at h
  grind [listings, modifyAccount]

theorem processFunds_listings {blockNum : ℕ} (h : s.processFunds g blockNum = .ok s') :
    s'.listings = s.listings := by
  simp only [processFunds, createVesting, bind_eq_ok] at h
  grind [listings, modifyAccount]

theorem processVestingWithdrawals_listings (h : s.processVestingWithdrawals = .ok s') :
    s'.listings = s.listings := by
  refine processVestingWithdrawals_invariant (I := fun t ↦ t.listings = s.listings) ?_ h rfl
  intro s₁ name a s₂ _ _ hpay hs₁
  simp only [processVestingWithdrawal] at hpay
  grind [listings, modifyAccount]

theorem accountRecoveryProcessing_listings (h : s.accountRecoveryProcessing = .ok s') :
    s'.listings = s.listings := by
  apply (listings_foldlM _ h).trans rfl
  intro s₁ entry s₂ hround
  simp only [applyRecoveryChange] at hround
  grind [listings, modifyAccount]

theorem updateMedianFeeds_listings (h : s.updateMedianFeeds g = .ok s') :
    s'.listings = { s.listings with feedHistories := s'.feedHistories } := by
  have hround : ∀ (feeds : List (AssetSymbol × Price)) (s s' : Database) (symbol : AssetSymbol),
      updateMedianFeed g feeds s symbol = .ok s' →
        s'.listings = { s.listings with feedHistories := s'.feedHistories } := by
    intro feeds s s' symbol h
    simp only [updateMedianFeed] at h
    grind [listings]
  unfold updateMedianFeeds at h
  split at h
  · cases h
  · split at h
    · exact pure_eq_ok.1 h ▸ rfl
    · simp only [bind_eq_ok] at h
      obtain ⟨feeds, _, h⟩ := h
      refine foldlM_invariant
        (I := fun t ↦ t.listings = { s.listings with feedHistories := t.feedHistories }) ?_ h rfl
      intro s₁ symbol s₂ _ hsymbol hs₁
      have hs₂ := hround _ _ _ _ hsymbol
      rw [hs₂, hs₁]

theorem updateWitnessSchedule_listings (h : s.updateWitnessSchedule g = .ok s') :
    s'.listings = { s.listings with
      numScheduledWitnesses := s'.wso.numScheduledWitnesses
      currentShuffledWitnesses := s'.wso.currentShuffledWitnesses
      medianProps := s'.wso.medianProps
      maximumBlockSize := s'.dgp.maximumBlockSize } := by
  unfold updateWitnessSchedule at h
  split at h
  · cases h
  · split at h
    · simp only [updateWitnessSchedule4, updateMedianWitnessProps, setSchedule, bind_eq_ok] at h
      grind [listings]
    · exact pure_eq_ok.1 h ▸ rfl

end Database

/-! ## All stages -/

theorem onPublicNet_listings {step : Database → Exec Database} (h : onPublicNet s step = .ok s')
    (hstep : step s = .ok s' → s'.listings = s.listings) : s'.listings = s.listings := by
  unfold onPublicNet at h
  grind

/-- What a stage does to the listings. -/
def Stage.ListingsStep (s : Database) (stage : Stage) (s' : Database) : Prop :=
  match stage with
  | .operation _ op => s.listings.OperationStep s.dgp.time op.op s'.listings
  | .updateMedianFeeds => s'.listings = { s.listings with feedHistories := s'.feedHistories }
  | .updateWitnessSchedule => s'.listings = { s.listings with
      numScheduledWitnesses := s'.wso.numScheduledWitnesses
      currentShuffledWitnesses := s'.wso.currentShuffledWitnesses
      medianProps := s'.wso.medianProps
      maximumBlockSize := s'.dgp.maximumBlockSize }
  | _ => s'.listings = s.listings

theorem Stage.listingsStep {stage : Stage} (h : stage.run ctx s = .ok s') :
    stage.ListingsStep s s' := by
  cases stage with
  | openBlock b => exact Database.openBlock_listings h
  | openTransaction trx => exact Database.openTransaction_listings h
  | operation trx op =>
    simp only [run, Database.applyOperation, bind_eq_ok] at h
    obtain ⟨s₁, hfee, heval⟩ := h
    have htime : s₁.dgp.time = s.dgp.time :=
      congrArg (fun t ↦ t.time) (Database.processOperationFee_slotTallies hfee)
    have hstep := Database.evaluate_listings heval
    rw [Database.processOperationFee_listings hfee, htime] at hstep
    exact hstep
  | closeTransaction trx =>
    simp only [run, Database.closeTransaction] at h
    split at h
    · apply listings_foldlM _ h
      intro s₁ account s₂ hround
      simp only [Database.updateAccountBandwidth, bind_eq_ok, pure_eq_ok] at hround
      obtain ⟨bandwidths, _, _, _, _, _, rfl⟩ := hround
      rfl
    · exact pure_eq_ok.1 h ▸ rfl
  | updateGlobalDynamicData b => exact Database.updateGlobalDynamicData_listings h
  | updateSigningWitness b =>
    simp only [run, Database.updateSigningWitness, bind_eq_ok, pure_eq_ok] at h
    obtain ⟨_, _, rfl⟩ := h
    rfl
  | updateLastIrreversibleBlock =>
    simp only [run, Database.updateLastIrreversibleBlock, bind_eq_ok, pure_eq_ok] at h
    obtain ⟨_, _, rfl⟩ := h
    rfl
  | createBlockSummary b | clearExpiredTransactions => exact pure_eq_ok.1 h ▸ rfl
  | updateWitnessSchedule => exact Database.updateWitnessSchedule_listings h
  | processInterests => exact onPublicNet_listings h Database.processInterests_listings
  | updateMedianFeeds =>
    simp only [run, onPublicNet] at h
    split at h
    · exact pure_eq_ok.1 h ▸ rfl
    · exact Database.updateMedianFeeds_listings h
  | clearNullAccountBalance =>
    exact onPublicNet_listings h Database.clearNullAccountBalance_listings
  | processFunds b =>
    simp only [run] at h
    exact onPublicNet_listings h Database.processFunds_listings
  | processVestingWithdrawals =>
    exact onPublicNet_listings h Database.processVestingWithdrawals_listings
  | accountRecoveryProcessing => exact Database.accountRecoveryProcessing_listings h
  | expireEscrowRatification =>
    apply listings_foldlM _ h
    intro s₁ entry s₂ hround
    exact Database.refundEscrow_listings hround
  | processHardforks => exact Database.processHardforks_listings h
  | recordBlock b =>
    simp only [run] at h
    apply onPublicNet_listings h
    intro hrecord
    obtain ⟨_, _, rfl⟩ := Database.recordBlock_eq_ok hrecord
    rfl

end SophiaTX.Chain
