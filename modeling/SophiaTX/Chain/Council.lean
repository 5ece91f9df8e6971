import SophiaTX.Chain.Commerce

/-!
# The council of witnesses

The state of the hardforks, the signing keys of the witnesses and the bond they must hold. A few
operations and stages write to it, and what they write is said here once.
-/

namespace SophiaTX.Chain

open SophiaTX.Protocol SophiaTX.Lib

structure Council where
  hardforks : HardforkProperty
  keys : AccountName → Option PublicKey
  requiredVesting : ShareType

def Database.council (s : Database) : Council where
  hardforks := s.hardforks
  keys name := (s.witnesses.find? name).map fun w ↦ w.signingKey
  requiredVesting := s.dgp.witnessRequiredVesting

namespace Council

/-- The signing key of a witness is set. -/
def setKey (c : Council) (name : AccountName) (key : PublicKey) : Council :=
  { c with keys := Function.update c.keys name (some key) }

/-- Only the state of the hardforks may differ. -/
def SameSeats (c c' : Council) : Prop :=
  c'.keys = c.keys ∧ c'.requiredVesting = c.requiredVesting

/-- What operations do to the council. -/
def OperationStep (c : Council) (op : Operation) (c' : Council) : Prop :=
  match op with
  | .witnessUpdate owner _ key _ | .adminWitnessUpdate owner _ key _ => c' = c.setKey owner key
  | .witnessStop owner => c' = { c with
      keys := Function.update c.keys owner ((c.keys owner).map fun _ ↦ nullKey) }
  | .witnessSetProperties owner props => ∃ key, c.keys owner = some key ∧
    props.key = some key ∧ c' = c.setKey owner (props.newSigningKey.getD key)
  | _ => c' = c

/-- What stages do to the council. -/
def Step (c : Council) (stage : Stage) (c' : Council) : Prop :=
  match stage with
  | .operation _ op => c.OperationStep op.op c'
  | .openBlock _ | .updateWitnessSchedule | .processHardforks => c.SameSeats c'
  | .updateGlobalDynamicData _ => c'.hardforks = c.hardforks ∧
    ∀ name, c'.keys name = c.keys name ∨ c'.keys name = some nullKey
  | _ => c' = c

theorem SameSeats.trans {c c₁ c₂ : Council} (h : c.SameSeats c₁) (h' : c₁.SameSeats c₂) :
    c.SameSeats c₂ :=
  ⟨h'.1.trans h.1, h'.2.trans h.2⟩

end Council

variable {ctx : Context} {g : GenesisState} {s s' : Database}

/-! ## What is left alone -/

/-- Rows of witnesses change, but not their keys. -/
theorem keys_of_agree (h : s.witnesses.AgreeOn (fun w ↦ w.signingKey) s'.witnesses) :
    s'.council.keys = s.council.keys :=
  funext h.2

theorem council_of_witnesses (hrest : { s' with witnesses := s.witnesses }.council = s.council)
    (h : s.witnesses.AgreeOn (fun w ↦ w.signingKey) s'.witnesses) : s'.council = s.council := by
  rw [← hrest, Database.council, Council.mk.injEq]
  exact ⟨rfl, keys_of_agree h, rfl⟩

theorem council_modifyWitness (s : Database) (name : AccountName) {f : Witness → Witness}
    (hf : ∀ w, (f w).signingKey = w.signingKey) :
    (s.modifyWitness name f).council = s.council :=
  council_of_witnesses rfl (Table.AgreeOn.modify _ _ fun w _ ↦ hf w)

/-- Commerce leaves the council alone. -/
theorem Commerce.council (h : Commerce s s') : s'.council = s.council := by
  refine council_of_witnesses ?_ (h.witnesses.map fun w ↦ w.signingKey)
  rw [h.rest]
  rfl

namespace Database

/-! ## Operations -/

theorem updateOwnerAuthority_council {account : AccountName} {owner : Authority}
    (h : s.updateOwnerAuthority account owner = .ok s') : s'.council = s.council := by
  simp only [updateOwnerAuthority, bind_eq_ok, pure_eq_ok] at h
  obtain ⟨_, _, rfl⟩ := h
  rfl

theorem setKey_council (s : Database) {name : AccountName} {w : Witness} {f : Witness → Witness}
    {key : PublicKey} (hw : s.witnesses.find? name = some w) (hf : (f w).signingKey = key) :
    (s.modifyWitness name f).council = s.council.setKey name key := by
  simp only [council, Council.setKey, modifyWitness, Council.mk.injEq, true_and, and_true]
  funext other
  rw [Table.find?_modify, Function.update_apply]
  split
  · rename_i hother
    rw [hother, hw, Option.map_some, Option.map_some, hf]
  · rfl

theorem createWitness_council {owner : AccountName} {url : Bytes} {key : PublicKey}
    {props : ChainProperties} (h : s.createWitness g owner url key props = .ok s') :
    s'.council = s.council.setKey owner key := by
  simp only [createWitness, bind_eq_ok, createRow_eq_ok, pure_eq_ok] at h
  obtain ⟨witnesses, hcreate, rfl⟩ := h
  simp only [council, Council.setKey, Council.mk.injEq, true_and, and_true]
  funext other
  rw [Table.find?_emplace? hcreate, Function.update_apply]
  split <;> rfl

theorem witnessUpdateEvaluator_council {owner : AccountName} {url : Bytes}
    {blockSigningKey : PublicKey} {props : ChainProperties}
    (h : s.witnessUpdateEvaluator ctx owner url blockSigningKey props = .ok s') :
    s'.council = s.council.setKey owner blockSigningKey := by
  simp only [witnessUpdateEvaluator] at h
  split at h
  · simp only [bind_eq_ok, fcAssert_eq_ok, pure_eq_ok] at h
    obtain ⟨_, hsome, rfl⟩ := h
    obtain ⟨w, hw⟩ := Option.isSome_iff_exists.1 hsome
    exact setKey_council s hw rfl
  · simp only [bind_eq_ok] at h
    obtain ⟨_, _, _, _, _, _, h⟩ := h
    split at h
    · rename_i w hw
      cases h
      exact setKey_council s hw rfl
    · exact createWitness_council h

theorem adminWitnessUpdateEvaluator_council {owner : AccountName} {url : Bytes}
    {blockSigningKey : PublicKey} {props : ChainProperties}
    (h : s.adminWitnessUpdateEvaluator g owner url blockSigningKey props = .ok s') :
    s'.council = s.council.setKey owner blockSigningKey := by
  simp only [adminWitnessUpdateEvaluator, bind_eq_ok] at h
  obtain ⟨_, _, h⟩ := h
  split at h
  · exact createWitness_council h
  · rename_i w hw
    cases h
    exact setKey_council s hw rfl

theorem witnessStopEvaluator_council {owner : AccountName}
    (h : s.witnessStopEvaluator owner = .ok s') : s'.council = { s.council with
      keys := Function.update s.council.keys owner
        ((s.council.keys owner).map fun _ ↦ nullKey) } := by
  simp only [witnessStopEvaluator, bind_eq_ok, pure_eq_ok] at h
  obtain ⟨_, _, rfl⟩ := h
  simp only [council, modifyWitness, Council.mk.injEq, true_and, and_true]
  funext other
  rw [Table.find?_modify, Function.update_apply]
  split
  · rename_i hother
    rw [hother, Option.map_map, Option.map_map]
    rfl
  · rfl

theorem witnessSetPropertiesEvaluator_council {owner : AccountName} {props : WitnessProperties}
    (h : s.witnessSetPropertiesEvaluator g owner props = .ok s') :
    s.council.OperationStep (.witnessSetProperties owner props) s'.council := by
  simp only [witnessSetPropertiesEvaluator, getWitness, bind_eq_ok, orUnknownKey_eq_ok,
    fcAssert_eq_ok, pure_eq_ok] at h
  obtain ⟨w, hw, _, hkey, _, _, rfl⟩ := h
  exact ⟨w.signingKey, by simp [council, hw], hkey, setKey_council s hw rfl⟩

theorem accountCreateEvaluator_council {fee : Asset} {creator : AccountName} {nameSeed : Bytes}
    {owner active : Authority} {memoKey : PublicKey} {jsonMetadata : Bytes}
    (h : s.accountCreateEvaluator ctx fee creator nameSeed owner active memoKey jsonMetadata =
      .ok s') : s'.council = s.council := by
  simp only [accountCreateEvaluator, bind_eq_ok] at h
  obtain ⟨_, _, _, _, _, _, _, _, _, _, _, _, excess, _, _, _, _, _, accounts, _, authorities, _,
    s₁, hfee, h⟩ := h
  have hs₁ : s₁.council = s.council := by
    split at hfee
    · exact (payFee_commerce hfee).council
    · exact pure_eq_ok.1 hfee ▸ rfl
  split at h
  · simp only [bind_eq_ok] at h
    obtain ⟨s₂, hnew, _, _, hpay⟩ := h
    exact ((adjustBalance_commerce hnew).trans (adjustBalance_commerce hpay)).council.trans hs₁
  · exact pure_eq_ok.1 h ▸ hs₁

theorem accountUpdateEvaluator_council {account : AccountName} {owner active : Option Authority}
    {memoKey : PublicKey} {jsonMetadata : Bytes}
    (h : s.accountUpdateEvaluator account owner active memoKey jsonMetadata = .ok s') :
    s'.council = s.council := by
  simp only [accountUpdateEvaluator, bind_eq_ok, pure_eq_ok] at h
  obtain ⟨_, _, _, _, auth, _, s₁, howner, _, _, rfl⟩ := h
  have hs₁ : s₁.council = s.council := by
    cases owner with
    | none => exact pure_eq_ok.1 howner ▸ rfl
    | some owner =>
      simp only [updateOwner, bind_eq_ok] at howner
      obtain ⟨_, _, _, _, howner⟩ := howner
      exact updateOwnerAuthority_council howner
  refine Eq.trans ?_ hs₁
  cases active <;> rfl

theorem evaluate_council {fee : Asset} {op : Operation} (h : s.evaluate ctx fee op = .ok s') :
    s.council.OperationStep op s'.council := by
  cases op with
  | witnessUpdate _ _ _ _ => exact witnessUpdateEvaluator_council h
  | adminWitnessUpdate _ _ _ _ => exact adminWitnessUpdateEvaluator_council h
  | witnessStop _ => exact witnessStopEvaluator_council h
  | witnessSetProperties _ _ => exact witnessSetPropertiesEvaluator_council h
  | accountCreate _ _ _ _ _ _ => exact accountCreateEvaluator_council h
  | accountUpdate _ _ _ _ _ => exact accountUpdateEvaluator_council h
  | accountDelete _ =>
    simp only [evaluate, accountDeleteEvaluator, bind_eq_ok, pure_eq_ok] at h
    obtain ⟨_, _, _, _, _, _, _, _, s₁, howner, rfl⟩ := h
    have hs₁ := updateOwnerAuthority_council howner
    exact hs₁
  | resetAccount _ _ _ =>
    simp only [evaluate, resetAccountEvaluator, bind_eq_ok] at h
    obtain ⟨_, _, _, _, howner⟩ := h
    exact updateOwnerAuthority_council howner
  | recoverAccount _ _ _ =>
    simp only [evaluate, recoverAccountEvaluator, bind_eq_ok] at h
    obtain ⟨_, _, _, _, h⟩ := h
    split at h
    · cases h
    · simp only [bind_eq_ok, pure_eq_ok] at h
      obtain ⟨_, _, _, _, s₁, howner, rfl⟩ := h
      have hs₁ := updateOwnerAuthority_council howner
      exact hs₁
  | setResetAccount _ _ _ =>
    simp only [evaluate, setResetAccountEvaluator, bind_eq_ok, pure_eq_ok] at h
    obtain ⟨_, _, _, _, _, _, _, _, rfl⟩ := h
    rfl
  | requestAccountRecovery _ _ _ =>
    simp only [evaluate, requestAccountRecoveryEvaluator, bind_eq_ok] at h
    obtain ⟨_, _, _, _, h⟩ := h
    split at h
    · simp only [bind_eq_ok, pure_eq_ok] at h
      obtain ⟨_, _, _, _, _, _, _, _, rfl⟩ := h
      rfl
    · split at h
      · cases h
        rfl
      · simp only [bind_eq_ok, pure_eq_ok] at h
        obtain ⟨_, _, _, _, rfl⟩ := h
        rfl
  | changeRecoveryAccount _ _ =>
    simp only [evaluate, changeRecoveryAccountEvaluator, bind_eq_ok] at h
    obtain ⟨_, _, _, _, h⟩ := h
    split at h
    · simp only [bind_eq_ok, pure_eq_ok] at h
      obtain ⟨_, _, rfl⟩ := h
      rfl
    · split at h <;> cases h <;> rfl
  | feedPublish _ _ =>
    simp only [evaluate, feedPublishEvaluator, bind_eq_ok, pure_eq_ok] at h
    obtain ⟨_, _, _, _, rfl⟩ := h
    exact council_modifyWitness _ _ fun _ ↦ rfl
  | _ => exact (evaluate_commerce h trivial).council

/-! ## Stages -/

theorem recalculateAllVotes_commerce (h : s.recalculateAllVotes = .ok s') :
    Commerce s.clearVotes s' := by
  refine Commerce.foldlM (fun s₁ name s₂ hround ↦ ?_) h
  simp only [bind_eq_ok] at hround
  obtain ⟨_, _, _, _, hadjust⟩ := hround
  exact (adjustProxiedWitnessVotes_frame hadjust).commerce

/-- A hardfork that is applied becomes the last one, and is the one after it. -/
theorem applyHardfork_council {hardfork : ℕ} (h : s.applyHardfork g hardfork = .ok s') :
    hardfork = s.hardforks.lastHardfork + 1 ∧
      s.hardforks.processedHardforks.length = hardfork ∧
      s'.council = { s.council with
        hardforks := { s.hardforks with
          processedHardforks := s.hardforks.processedHardforks ++ [hardforkTimes g hardfork]
          lastHardfork := hardfork
          currentHardforkVersion := hardforkVersions hardfork } } := by
  simp only [applyHardfork, bind_eq_ok, fcAssert_eq_ok, pure_eq_ok] at h
  obtain ⟨s₁, hvotes, _, hlast, _, hlength, rfl⟩ := h
  have hclear : s.clearVotes.council = s.council :=
    council_of_witnesses rfl (Table.AgreeOn.mapRows _ fun _ _ ↦ rfl)
  have hs₁ : s₁.council = s.council := by
    split at hvotes
    · exact (recalculateAllVotes_commerce hvotes).council.trans hclear
    · exact pure_eq_ok.1 hvotes ▸ rfl
  have hforks : s₁.hardforks = s.hardforks := congrArg Council.hardforks hs₁
  rw [hforks] at hlast hlength
  refine ⟨hlast, hlength, ?_⟩
  rw [← hs₁, ← hforks]
  rfl

theorem missSlot_council {producer : AccountName} {slot : ℕ}
    (h : missSlot g producer s slot = .ok s') : s'.council.hardforks = s.council.hardforks ∧
      ∀ name, s'.council.keys name = s.council.keys name ∨
        s'.council.keys name = some nullKey := by
  simp only [missSlot, bind_eq_ok] at h
  obtain ⟨missed, _, _, _, h⟩ := h
  split at h
  · rw [pure_eq_ok] at h
    rw [← h]
    refine ⟨rfl, fun name ↦ ?_⟩
    simp only [council, modifyWitness, Table.find?_modify]
    split
    · cases s.witnesses.find? name with
      | none => exact .inl rfl
      | some w =>
        simp only [Option.map_some, Option.some.injEq]
        split
        · exact .inr rfl
        · exact .inl rfl
    · exact .inl rfl
  · exact pure_eq_ok.1 h ▸ ⟨rfl, fun _ ↦ .inl rfl⟩

theorem updateGlobalDynamicData_council {b : SignedBlock}
    (h : s.updateGlobalDynamicData ctx b = .ok s') :
    s.council.Step (.updateGlobalDynamicData b) s'.council := by
  simp only [updateGlobalDynamicData, bind_eq_ok, pure_eq_ok] at h
  obtain ⟨_, _, s₁, hmissed, _, _, rfl⟩ := h
  refine foldlM_invariant (I := fun t ↦ s.council.Step (.updateGlobalDynamicData b) t.council) ?_
    hmissed ⟨rfl, fun _ ↦ .inl rfl⟩
  rintro s₂ slot s₃ - hround ⟨hforks, hkeys⟩
  obtain ⟨hforks', hkeys'⟩ := missSlot_council hround
  refine ⟨hforks'.trans hforks, fun name ↦ ?_⟩
  rcases hkeys' name with hsame | hnull
  · rw [hsame]
    exact hkeys name
  · exact .inr hnull

theorem setHardfork_council {hardfork : ℕ} (h : s.setHardfork g hardfork = .ok s') :
    s.council.SameSeats s'.council := by
  refine foldlM_invariant (I := fun t ↦ s.council.SameSeats t.council) ?_ h ⟨rfl, rfl⟩
  intro s₁ i s₂ _ hround hs₁
  refine hs₁.trans ?_
  rw [(applyHardfork_council hround).2.2]
  exact ⟨rfl, rfl⟩

theorem processHardforksLoop_council {rounds : ℕ}
    (h : processHardforksLoop g rounds s = .ok s') : s.council.SameSeats s'.council := by
  induction rounds generalizing s with
  | zero => exact pure_eq_ok.1 h ▸ ⟨rfl, rfl⟩
  | succ rounds ih =>
    unfold processHardforksLoop at h
    split at h
    · split at h
      · simp only [bind_eq_ok] at h
        obtain ⟨s₁, hfork, h⟩ := h
        refine Council.SameSeats.trans ?_ (ih h)
        rw [(applyHardfork_council hfork).2.2]
        exact ⟨rfl, rfl⟩
      · cases h
    · exact pure_eq_ok.1 h ▸ ⟨rfl, rfl⟩

theorem applyGenesisHardforks_council {b : SignedBlock}
    (h : s.applyGenesisHardforks g b = .ok s') : s.council.SameSeats s'.council := by
  simp only [applyGenesisHardforks] at h
  split at h
  · simp only [bind_eq_ok, pure_eq_ok] at h
    obtain ⟨s₁, hfork, _, _, rfl⟩ := h
    refine (setHardfork_council hfork).trans ⟨?_, rfl⟩
    exact keys_of_agree (Table.AgreeOn.mapRows _ fun _ _ ↦ rfl)
  · exact pure_eq_ok.1 h ▸ ⟨rfl, rfl⟩

/-- After the hardforks of a first block, opening a block changes neither hardforks nor keys. -/
theorem openBlock_council {b : SignedBlock} (h : s.openBlock ctx b = .ok s') :
    ∃ s₁, s.applyGenesisHardforks ctx.genesis b = .ok s₁ ∧ s'.council = s₁.council := by
  simp only [openBlock, bind_eq_ok, pure_eq_ok] at h
  obtain ⟨s₁, hforks, _, _, _, _, _, _, s₂, hextensions, _, _, _, _, rfl⟩ := h
  refine ⟨s₁, hforks, ?_⟩
  refine foldlM_invariant (I := fun t ↦ t.council = s₁.council) ?_ hextensions rfl
  intro s₃ extension s₄ _ hround hs₃
  cases extension with
  | void => exact pure_eq_ok.1 hround ▸ hs₃
  | version _ | hardforkVersionVote _ _ =>
    simp only [processHeaderExtension, bind_eq_ok, pure_eq_ok] at hround
    obtain ⟨_, _, rfl⟩ := hround
    refine Eq.trans ?_ hs₃
    exact council_modifyWitness _ _ fun _ ↦ rfl

theorem updateWitnessSchedule_council (h : s.updateWitnessSchedule g = .ok s') :
    s.council.SameSeats s'.council := by
  unfold updateWitnessSchedule at h
  split at h
  · cases h
  · split at h
    · obtain ⟨witnesses, v, hardforks, hwitnesses, _, hs'⟩ := updateWitnessSchedule4_eq_ok h
      rw [hs']
      exact ⟨keys_of_agree (hwitnesses.map fun w ↦ w.signingKey), rfl⟩
    · exact pure_eq_ok.1 h ▸ ⟨rfl, rfl⟩

end Database

theorem onPublicNet_council {step : Database → Exec Database} (h : onPublicNet s step = .ok s')
    (hstep : step s = .ok s' → Commerce s s') : s'.council = s.council := by
  unfold onPublicNet at h
  split at h
  · exact pure_eq_ok.1 h ▸ rfl
  · exact (hstep h).council

/-- Every stage that succeeds does to the council what is said above. -/
theorem Stage.council_step {stage : Stage} (h : stage.run ctx s = .ok s') :
    s.council.Step stage s'.council := by
  cases stage with
  | openBlock b =>
    obtain ⟨s₁, hforks, hs'⟩ := Database.openBlock_council h
    rw [hs']
    exact Database.applyGenesisHardforks_council hforks
  | openTransaction trx =>
    simp only [run, Database.openTransaction, bind_eq_ok] at h
    obtain ⟨_, _, _, _, _, _, _, _, h⟩ := h
    split at h
    · simp only [bind_eq_ok, pure_eq_ok] at h
      obtain ⟨_, _, rfl⟩ := h
      rfl
    · exact congrArg Database.council (pure_eq_ok.1 h).symm
  | operation trx op =>
    simp only [run, Database.applyOperation, bind_eq_ok] at h
    obtain ⟨s₁, hfee, heval⟩ := h
    have hstep := Database.evaluate_council heval
    rw [(Database.processOperationFee_commerce hfee).council] at hstep
    exact hstep
  | closeTransaction trx => exact (Database.closeTransaction_commerce h).council
  | updateGlobalDynamicData b => exact Database.updateGlobalDynamicData_council h
  | updateSigningWitness b =>
    simp only [run, Database.updateSigningWitness, bind_eq_ok, pure_eq_ok] at h
    obtain ⟨_, _, rfl⟩ := h
    exact council_modifyWitness _ _ fun _ ↦ rfl
  | updateLastIrreversibleBlock =>
    simp only [run, Database.updateLastIrreversibleBlock, bind_eq_ok, pure_eq_ok] at h
    obtain ⟨_, _, rfl⟩ := h
    rfl
  | createBlockSummary b | clearExpiredTransactions =>
    cases h
    rfl
  | updateWitnessSchedule => exact Database.updateWitnessSchedule_council h
  | processInterests => exact onPublicNet_council h Database.processInterests_commerce
  | updateMedianFeeds => exact onPublicNet_council h Database.updateMedianFeeds_commerce
  | clearNullAccountBalance =>
    exact onPublicNet_council h Database.clearNullAccountBalance_commerce
  | processFunds b =>
    simp only [run] at h
    exact onPublicNet_council h Database.processFunds_commerce
  | processVestingWithdrawals =>
    exact onPublicNet_council h Database.processVestingWithdrawals_commerce
  | accountRecoveryProcessing =>
    simp only [run, Database.accountRecoveryProcessing] at h
    refine foldlM_invariant (I := fun t ↦ t.council = s.council) ?_ h rfl
    intro s₁ entry s₂ _ hround hs₁
    simp only [Database.applyRecoveryChange, bind_eq_ok, pure_eq_ok] at hround
    obtain ⟨_, _, rfl⟩ := hround
    exact hs₁
  | expireEscrowRatification => exact (Database.expireEscrowRatification_commerce h).council
  | processHardforks => exact Database.processHardforksLoop_council h
  | recordBlock b =>
    simp only [run] at h
    refine onPublicNet_council h fun hrecord ↦ ?_
    obtain ⟨_, _, rfl⟩ := Database.recordBlock_eq_ok hrecord
    exact .tables rfl

end SophiaTX.Chain
