import SophiaTX.Chain.Council
import SophiaTX.Chain.Listings

/-!
# Published exchange rates

A witness publishes rates by three operations and keeps the last one for each currency. Nothing else
touches them, and no witness is ever removed.
-/

namespace SophiaTX.Chain

open SophiaTX.Protocol SophiaTX.Lib

def ratesIn (witnesses : Table AccountName Witness) (name : AccountName) :
    Option (List (AssetSymbol × SubmittedExchangeRate)) :=
  (witnesses.find? name).map fun w ↦ w.submittedExchangeRates

/-- The rates of the witnesses. -/
def Database.rates (s : Database) :
    AccountName → Option (List (AssetSymbol × SubmittedExchangeRate)) := ratesIn s.witnesses

/-- What a name publishes with an operation. In a private net nothing is published. -/
def publishes (g : GenesisState) (privateNet : Bool) (name : AccountName) :
    Operation → List (AssetSymbol × Price)
  | .feedPublish publisher exchangeRate =>
    let rate := Database.rateInBase g exchangeRate
    if publisher = name ∧ privateNet = false then [(rate.quote.symbol, rate)] else []
  | .witnessUpdate owner _ _ props =>
    if owner = name ∧ privateNet = false then
      props.priceFeeds.map fun feed ↦ (feed.1, Database.rateInBase g feed.2)
    else []
  | .witnessSetProperties owner props =>
    if owner = name ∧ privateNet = false then
      ((props.exchangeRates.getD []).map (Database.rateInBase g)).map fun rate ↦
        (rate.quote.symbol, rate)
    else []
  | _ => []

/-- The rates of a witness after it has published more. -/
def published (now : Time) (feeds : List (AssetSymbol × Price))
    (rates : List (AssetSymbol × SubmittedExchangeRate)) :
    List (AssetSymbol × SubmittedExchangeRate) :=
  feeds.foldl (fun rates feed ↦ Database.setExchangeRate rates feed.1 ⟨feed.2, now⟩) rates

/-- The rates of one witness while it publishes some, or becomes a witness. -/
def RateStep (now : Time) (feeds : List (AssetSymbol × Price))
    (old new : Option (List (AssetSymbol × SubmittedExchangeRate))) : Prop :=
  new = old.map (published now feeds) ∨ old = none ∧ new = some []

/-- Operations about an account, its authorities and their recovery. -/
def Operation.IsAccountOperation : Operation → Prop
  | .accountCreate _ _ _ _ _ _ | .accountUpdate _ _ _ _ _ | .accountDelete _ |
    .resetAccount _ _ _ | .setResetAccount _ _ _ | .requestAccountRecovery _ _ _ |
    .recoverAccount _ _ _ | .changeRecoveryAccount _ _ => True
  | _ => False

variable {ctx : Context} {g : GenesisState} {s s' : Database}

theorem rateStep_of_eq {now : Time} {old new : Option (List (AssetSymbol × SubmittedExchangeRate))}
    (h : new = old) : RateStep now [] old new :=
  .inl (h.trans Option.map_id_apply.symm)

theorem rates_of_agree (h : s.witnesses.AgreeOn (fun w ↦ w.submittedExchangeRates) s'.witnesses) :
    s'.rates = s.rates := funext h.2

theorem Commerce.rates (h : Commerce s s') : s'.rates = s.rates :=
  rates_of_agree (h.witnesses.map fun w ↦ w.submittedExchangeRates)

namespace Database

theorem modifyWitness_rates (s : Database) (name : AccountName) {f : Witness → Witness}
    (hf : ∀ w, (f w).submittedExchangeRates = w.submittedExchangeRates) :
    (s.modifyWitness name f).rates = s.rates :=
  rates_of_agree (Table.AgreeOn.modify _ _ fun w _ ↦ hf w)

/-! ## Operations -/

/-- A witness that publishes: only its own rates change. -/
theorem publishRates_step {owner name : AccountName} {f : Witness → Witness}
    {feeds : List (AssetSymbol × Price)} (now : Time)
    (hf : ∀ w, (f w).submittedExchangeRates = published now feeds w.submittedExchangeRates) :
    RateStep now (if owner = name then feeds else []) (s.rates name)
      ((s.modifyWitness owner f).rates name) := by
  simp only [rates, ratesIn, modifyWitness, Table.find?_modify]
  by_cases hname : owner = name
  · rw [if_pos hname, if_pos hname.symm]
    refine .inl ?_
    rw [Option.map_map, Option.map_map]
    exact congrArg (fun f ↦ (s.witnesses.find? name).map f) (funext hf)
  · rw [if_neg hname, if_neg (Ne.symm hname)]
    exact rateStep_of_eq rfl

theorem createWitness_rates {now : Time} {feeds : List (AssetSymbol × Price)}
    {owner name : AccountName} {url : Bytes} {key : PublicKey} {props : ChainProperties}
    (h : s.createWitness g owner url key props = .ok s') (hfeeds : owner ≠ name → feeds = []) :
    RateStep now feeds (s.rates name) (s'.rates name) := by
  simp only [createWitness, bind_eq_ok, createRow_eq_ok, pure_eq_ok] at h
  obtain ⟨witnesses, hcreate, rfl⟩ := h
  simp only [rates, ratesIn, Table.find?_emplace? hcreate]
  by_cases hname : owner = name
  · subst hname
    rw [if_pos rfl, (Table.emplace?_eq_some hcreate).1]
    exact .inr ⟨rfl, rfl⟩
  · rw [if_neg (Ne.symm hname), hfeeds hname]
    exact rateStep_of_eq rfl

theorem witnessUpdateEvaluator_rates {owner : AccountName} {url : Bytes} {key : PublicKey}
    {props : ChainProperties} (h : s.witnessUpdateEvaluator ctx owner url key props = .ok s')
    (name : AccountName) : RateStep s.dgp.time
      (publishes ctx.genesis s.dgp.privateNet name (.witnessUpdate owner url key props))
      (s.rates name) (s'.rates name) := by
  simp only [witnessUpdateEvaluator] at h
  cases hprivate : s.dgp.privateNet with
  | true =>
    simp only [hprivate, if_true, bind_eq_ok, fcAssert_eq_ok, pure_eq_ok] at h
    obtain ⟨_, _, rfl⟩ := h
    rw [publishes, if_neg (by simp)]
    refine rateStep_of_eq (congrFun ?_ name)
    exact modifyWitness_rates _ _ fun _ ↦ rfl
  | false =>
    simp only [hprivate, Bool.false_eq_true, if_false, bind_eq_ok] at h
    obtain ⟨_, _, _, _, _, _, h⟩ := h
    simp only [publishes, and_true]
    split at h
    · cases h
      exact publishRates_step s.dgp.time fun _ ↦ rfl
    · exact createWitness_rates h fun hne ↦ if_neg hne

theorem adminWitnessUpdateEvaluator_rates {owner : AccountName} {url : Bytes} {key : PublicKey}
    {props : ChainProperties} (h : s.adminWitnessUpdateEvaluator g owner url key props = .ok s')
    (name : AccountName) : RateStep s.dgp.time [] (s.rates name) (s'.rates name) := by
  simp only [adminWitnessUpdateEvaluator, bind_eq_ok] at h
  obtain ⟨_, _, h⟩ := h
  split at h
  · exact createWitness_rates h fun _ ↦ rfl
  · cases h
    refine rateStep_of_eq (congrFun ?_ name)
    exact modifyWitness_rates _ _ fun _ ↦ rfl

theorem witnessSetPropertiesEvaluator_rates {owner : AccountName} {props : WitnessProperties}
    (h : s.witnessSetPropertiesEvaluator g owner props = .ok s') (name : AccountName) :
    RateStep s.dgp.time (publishes g s.dgp.privateNet name (.witnessSetProperties owner props))
      (s.rates name) (s'.rates name) := by
  simp only [witnessSetPropertiesEvaluator, bind_eq_ok, pure_eq_ok] at h
  obtain ⟨_, _, _, _, _, _, rfl⟩ := h
  cases hprivate : s.dgp.privateNet with
  | true =>
    rw [publishes, if_neg (by simp)]
    refine rateStep_of_eq (congrFun ?_ name)
    exact modifyWitness_rates _ _ fun _ ↦ rfl
  | false =>
    simp only [publishes, and_true]
    exact publishRates_step s.dgp.time fun _ ↦ rfl

theorem feedPublishEvaluator_rates {publisher : AccountName} {exchangeRate : Price}
    (h : s.feedPublishEvaluator g publisher exchangeRate = .ok s') (name : AccountName) :
    RateStep s.dgp.time (publishes g s.dgp.privateNet name (.feedPublish publisher exchangeRate))
      (s.rates name) (s'.rates name) := by
  simp only [feedPublishEvaluator, assertPublicNet, bind_eq_ok, fcAssert_eq_ok, pure_eq_ok] at h
  obtain ⟨_, hpublic, _, _, rfl⟩ := h
  simp only [publishes, hpublic, and_true]
  exact publishRates_step s.dgp.time fun _ ↦ rfl

theorem updateOwnerAuthority_rates {account : AccountName} {owner : Authority}
    (h : s.updateOwnerAuthority account owner = .ok s') : s'.rates = s.rates := by
  simp only [updateOwnerAuthority, bind_eq_ok, pure_eq_ok] at h
  obtain ⟨_, _, rfl⟩ := h
  rfl

theorem accountCreateEvaluator_rates {fee : Asset} {creator : AccountName} {nameSeed : Bytes}
    {owner active : Authority} {memoKey : PublicKey} {jsonMetadata : Bytes}
    (h : s.accountCreateEvaluator ctx fee creator nameSeed owner active memoKey jsonMetadata =
      .ok s') : s'.rates = s.rates := by
  simp only [accountCreateEvaluator, bind_eq_ok] at h
  obtain ⟨_, _, _, _, _, _, _, _, _, _, _, _, excess, _, _, _, _, _, accounts, _, authorities, _,
    s₁, hfee, h⟩ := h
  have hs₁ : s₁.rates = s.rates := by
    split at hfee
    · exact (payFee_commerce hfee).rates
    · exact pure_eq_ok.1 hfee ▸ rfl
  split at h
  · simp only [bind_eq_ok] at h
    obtain ⟨s₂, hnew, _, _, hpay⟩ := h
    exact ((adjustBalance_commerce hnew).trans (adjustBalance_commerce hpay)).rates.trans hs₁
  · exact pure_eq_ok.1 h ▸ hs₁

theorem accountUpdateEvaluator_rates {account : AccountName} {owner active : Option Authority}
    {memoKey : PublicKey} {jsonMetadata : Bytes}
    (h : s.accountUpdateEvaluator account owner active memoKey jsonMetadata = .ok s') :
    s'.rates = s.rates := by
  simp only [accountUpdateEvaluator, bind_eq_ok, pure_eq_ok] at h
  obtain ⟨_, _, _, _, auth, _, s₁, howner, _, _, rfl⟩ := h
  have hs₁ : s₁.rates = s.rates := by
    cases owner with
    | none => exact pure_eq_ok.1 howner ▸ rfl
    | some owner =>
      simp only [updateOwner, bind_eq_ok] at howner
      obtain ⟨_, _, _, _, howner⟩ := howner
      exact updateOwnerAuthority_rates howner
  refine Eq.trans ?_ hs₁
  cases active <;> rfl

/-- The operations on accounts and on their recovery publish no rates. -/
theorem evaluate_rates_of_account {fee : Asset} {op : Operation}
    (h : s.evaluate ctx fee op = .ok s')
    (hop : Operation.IsAccountOperation op) : s'.rates = s.rates := by
  cases op with
  | accountCreate _ _ _ _ _ _ => exact accountCreateEvaluator_rates h
  | accountUpdate _ _ _ _ _ => exact accountUpdateEvaluator_rates h
  | accountDelete _ =>
    simp only [evaluate, accountDeleteEvaluator, bind_eq_ok, pure_eq_ok] at h
    obtain ⟨_, _, _, _, _, _, _, _, s₁, howner, rfl⟩ := h
    have hs₁ := updateOwnerAuthority_rates howner
    exact hs₁
  | resetAccount _ _ _ =>
    simp only [evaluate, resetAccountEvaluator, bind_eq_ok] at h
    obtain ⟨_, _, _, _, howner⟩ := h
    exact updateOwnerAuthority_rates howner
  | recoverAccount _ _ _ =>
    simp only [evaluate, recoverAccountEvaluator, bind_eq_ok] at h
    obtain ⟨_, _, _, _, h⟩ := h
    split at h
    · cases h
    · simp only [bind_eq_ok, pure_eq_ok] at h
      obtain ⟨_, _, _, _, s₁, howner, rfl⟩ := h
      have hs₁ := updateOwnerAuthority_rates howner
      exact hs₁
  | setResetAccount _ _ _ =>
    simp only [evaluate, setResetAccountEvaluator, bind_eq_ok, pure_eq_ok] at h
    obtain ⟨_, _, _, _, _, _, _, _, rfl⟩ := h
    rfl
  | requestAccountRecovery _ _ _ =>
    simp only [evaluate, requestAccountRecoveryEvaluator, bind_eq_ok] at h
    obtain ⟨_, _, _, _, h⟩ := h
    split at h
    · simp only [bind_eq_ok, pure_eq_ok] at h
      obtain ⟨_, _, _, _, _, _, _, _, rfl⟩ := h
      rfl
    · split at h
      · cases h
        rfl
      · simp only [bind_eq_ok, pure_eq_ok] at h
        obtain ⟨_, _, _, _, rfl⟩ := h
        rfl
  | changeRecoveryAccount _ _ =>
    simp only [evaluate, changeRecoveryAccountEvaluator, bind_eq_ok] at h
    obtain ⟨_, _, _, _, h⟩ := h
    split at h
    · simp only [bind_eq_ok, pure_eq_ok] at h
      obtain ⟨_, _, rfl⟩ := h
      rfl
    · split at h <;> cases h <;> rfl
  | _ => exact absurd hop id

theorem evaluate_rates {fee : Asset} {op : Operation} (h : s.evaluate ctx fee op = .ok s')
    (name : AccountName) : RateStep s.dgp.time (publishes ctx.genesis s.dgp.privateNet name op)
      (s.rates name) (s'.rates name) := by
  cases op with
  | feedPublish _ _ => exact feedPublishEvaluator_rates h name
  | witnessUpdate _ _ _ _ => exact witnessUpdateEvaluator_rates h name
  | adminWitnessUpdate _ _ _ _ => exact adminWitnessUpdateEvaluator_rates h name
  | witnessSetProperties _ _ => exact witnessSetPropertiesEvaluator_rates h name
  | witnessStop _ =>
    simp only [evaluate, witnessStopEvaluator, bind_eq_ok, pure_eq_ok] at h
    obtain ⟨_, _, rfl⟩ := h
    refine rateStep_of_eq (congrFun ?_ name)
    exact modifyWitness_rates _ _ fun _ ↦ rfl
  | accountCreate _ _ _ _ _ _ | accountUpdate _ _ _ _ _ | accountDelete _ | resetAccount _ _ _
  | setResetAccount _ _ _ | requestAccountRecovery _ _ _ | recoverAccount _ _ _
  | changeRecoveryAccount _ _ =>
    exact rateStep_of_eq (congrFun (evaluate_rates_of_account h trivial) name)
  | _ => exact rateStep_of_eq (congrFun (evaluate_commerce h trivial).rates name)

/-! ## Other steps -/

theorem applyHardfork_rates {hardfork : ℕ} (h : s.applyHardfork g hardfork = .ok s') :
    s'.rates = s.rates := by
  simp only [applyHardfork, bind_eq_ok, pure_eq_ok] at h
  obtain ⟨s₁, hvotes, _, _, _, _, rfl⟩ := h
  have hclear : s.clearVotes.rates = s.rates :=
    rates_of_agree (Table.AgreeOn.mapRows _ fun _ _ ↦ rfl)
  have hs₁ : s₁.rates = s.rates := by
    split at hvotes
    · exact (recalculateAllVotes_commerce hvotes).rates.trans hclear
    · exact pure_eq_ok.1 hvotes ▸ rfl
  exact hs₁

theorem setHardfork_rates {hardfork : ℕ} (h : s.setHardfork g hardfork = .ok s') :
    s'.rates = s.rates := by
  refine foldlM_invariant (I := fun t ↦ t.rates = s.rates) ?_ h rfl
  intro s₁ i s₂ _ hround hs₁
  exact (applyHardfork_rates hround).trans hs₁

theorem processHardforksLoop_rates {rounds : ℕ} (h : processHardforksLoop g rounds s = .ok s') :
    s'.rates = s.rates := by
  induction rounds generalizing s with
  | zero => exact pure_eq_ok.1 h ▸ rfl
  | succ rounds ih =>
    unfold processHardforksLoop at h
    split at h
    · split at h
      · simp only [bind_eq_ok] at h
        obtain ⟨s₁, hfork, h⟩ := h
        exact (ih h).trans (applyHardfork_rates hfork)
      · cases h
    · exact pure_eq_ok.1 h ▸ rfl

theorem openBlock_rates {b : SignedBlock} (h : s.openBlock ctx b = .ok s') :
    s'.rates = s.rates := by
  simp only [openBlock, bind_eq_ok, pure_eq_ok] at h
  obtain ⟨s₁, hforks, _, _, _, _, _, _, s₂, hextensions, _, _, _, _, rfl⟩ := h
  have hs₁ : s₁.rates = s.rates := by
    simp only [applyGenesisHardforks] at hforks
    split at hforks
    · simp only [bind_eq_ok, pure_eq_ok] at hforks
      obtain ⟨s₃, hset, _, _, rfl⟩ := hforks
      refine Eq.trans ?_ (setHardfork_rates hset)
      exact rates_of_agree (Table.AgreeOn.mapRows _ fun _ _ ↦ rfl)
    · exact pure_eq_ok.1 hforks ▸ rfl
  refine foldlM_invariant (I := fun t ↦ t.rates = s.rates) ?_ hextensions hs₁
  intro s₃ extension s₄ _ hround hs₃
  cases extension with
  | void => exact pure_eq_ok.1 hround ▸ hs₃
  | version _ | hardforkVersionVote _ _ =>
    simp only [processHeaderExtension, bind_eq_ok, pure_eq_ok] at hround
    obtain ⟨_, _, rfl⟩ := hround
    refine Eq.trans ?_ hs₃
    exact modifyWitness_rates _ _ fun _ ↦ rfl

theorem updateGlobalDynamicData_rates {b : SignedBlock}
    (h : s.updateGlobalDynamicData ctx b = .ok s') : s'.rates = s.rates := by
  simp only [updateGlobalDynamicData, bind_eq_ok, pure_eq_ok] at h
  obtain ⟨_, _, s₁, hmissed, _, _, rfl⟩ := h
  refine foldlM_invariant (I := fun t ↦ t.rates = s.rates) ?_ hmissed rfl
  intro s₂ slot s₃ _ hround hs₂
  simp only [missSlot, bind_eq_ok] at hround
  obtain ⟨missed, _, _, _, hround⟩ := hround
  refine Eq.trans ?_ hs₂
  split at hround
  · rw [pure_eq_ok] at hround
    rw [← hround]
    exact modifyWitness_rates _ _ fun _ ↦ rfl
  · exact pure_eq_ok.1 hround ▸ rfl

theorem updateWitnessSchedule_rates (h : s.updateWitnessSchedule g = .ok s') :
    s'.rates = s.rates := by
  unfold updateWitnessSchedule at h
  split at h
  · cases h
  · split at h
    · obtain ⟨witnesses, v, hardforks, hwitnesses, _, hs'⟩ := updateWitnessSchedule4_eq_ok h
      rw [hs']
      exact rates_of_agree (hwitnesses.map fun w ↦ w.submittedExchangeRates)
    · exact pure_eq_ok.1 h ▸ rfl

end Database

theorem onPublicNet_rates {step : Database → Exec Database} (h : onPublicNet s step = .ok s')
    (hstep : step s = .ok s' → Commerce s s') : s'.rates = s.rates := by
  unfold onPublicNet at h
  split at h
  · exact pure_eq_ok.1 h ▸ rfl
  · exact (hstep h).rates

/-- What a name publishes in a stage. -/
def Stage.published (g : GenesisState) (s : Database) (name : AccountName) :
    Stage → List (AssetSymbol × Price)
  | .operation _ op => publishes g s.dgp.privateNet name op.op
  | _ => []

theorem Stage.ratesStep {stage : Stage} (h : stage.run ctx s = .ok s') (name : AccountName) :
    RateStep s.dgp.time (stage.published ctx.genesis s name) (s.rates name) (s'.rates name) := by
  cases stage with
  | openBlock b => exact rateStep_of_eq (congrFun (Database.openBlock_rates h) name)
  | openTransaction trx =>
    simp only [run, Database.openTransaction, bind_eq_ok] at h
    obtain ⟨_, _, _, _, _, _, _, _, h⟩ := h
    split at h
    · simp only [bind_eq_ok, pure_eq_ok] at h
      obtain ⟨_, _, rfl⟩ := h
      exact rateStep_of_eq rfl
    · exact rateStep_of_eq (congrFun (congrArg Database.rates (pure_eq_ok.1 h).symm) name)
  | operation trx op =>
    simp only [run, Database.applyOperation, bind_eq_ok] at h
    obtain ⟨s₁, hfee, heval⟩ := h
    have htime : s₁.dgp.time = s.dgp.time :=
      congrArg (fun t ↦ t.time) (Database.processOperationFee_slotTallies hfee)
    have hprivate : s₁.dgp.privateNet = s.dgp.privateNet :=
      congrArg (fun t ↦ t.dgp.privateNet) (Database.processOperationFee_commerce hfee).rest
    have hstep := Database.evaluate_rates heval name
    rw [(Database.processOperationFee_commerce hfee).rates, htime, hprivate] at hstep
    exact hstep
  | closeTransaction trx =>
    exact rateStep_of_eq (congrFun (Database.closeTransaction_commerce h).rates name)
  | updateGlobalDynamicData b =>
    exact rateStep_of_eq (congrFun (Database.updateGlobalDynamicData_rates h) name)
  | updateSigningWitness b =>
    simp only [run, Database.updateSigningWitness, bind_eq_ok, pure_eq_ok] at h
    obtain ⟨_, _, rfl⟩ := h
    refine rateStep_of_eq (congrFun ?_ name)
    exact Database.modifyWitness_rates _ _ fun _ ↦ rfl
  | updateLastIrreversibleBlock =>
    simp only [run, Database.updateLastIrreversibleBlock, bind_eq_ok, pure_eq_ok] at h
    obtain ⟨_, _, rfl⟩ := h
    exact rateStep_of_eq rfl
  | createBlockSummary b | clearExpiredTransactions =>
    cases h
    exact rateStep_of_eq rfl
  | updateWitnessSchedule =>
    exact rateStep_of_eq (congrFun (Database.updateWitnessSchedule_rates h) name)
  | processInterests =>
    exact rateStep_of_eq (congrFun (onPublicNet_rates h Database.processInterests_commerce) name)
  | updateMedianFeeds =>
    exact rateStep_of_eq (congrFun (onPublicNet_rates h Database.updateMedianFeeds_commerce) name)
  | clearNullAccountBalance =>
    have hsame := onPublicNet_rates h Database.clearNullAccountBalance_commerce
    exact rateStep_of_eq (congrFun hsame name)
  | processFunds b =>
    simp only [run] at h
    exact rateStep_of_eq (congrFun (onPublicNet_rates h Database.processFunds_commerce) name)
  | processVestingWithdrawals =>
    have hsame := onPublicNet_rates h Database.processVestingWithdrawals_commerce
    exact rateStep_of_eq (congrFun hsame name)
  | accountRecoveryProcessing =>
    simp only [run, Database.accountRecoveryProcessing] at h
    refine rateStep_of_eq (congrFun ?_ name)
    refine foldlM_invariant (I := fun t ↦ t.rates = s.rates) ?_ h rfl
    intro s₁ entry s₂ _ hround hs₁
    simp only [Database.applyRecoveryChange, bind_eq_ok, pure_eq_ok] at hround
    obtain ⟨_, _, rfl⟩ := hround
    exact hs₁
  | expireEscrowRatification =>
    exact rateStep_of_eq (congrFun (Database.expireEscrowRatification_commerce h).rates name)
  | processHardforks => exact rateStep_of_eq (congrFun (Database.processHardforksLoop_rates h) name)
  | recordBlock b =>
    simp only [run] at h
    refine rateStep_of_eq (congrFun (onPublicNet_rates h fun hrecord ↦ ?_) name)
    obtain ⟨_, _, rfl⟩ := Database.recordBlock_eq_ok hrecord
    exact .tables rfl

end SophiaTX.Chain
