import SophiaTX.Chain.RegistrySteps

/-!
# Stages and the authorities

Only five operations write to the table of authorities, each to the row of one account. Rows are
created and rewritten, and never removed.
-/

namespace SophiaTX.Chain

open SophiaTX.Protocol SophiaTX.Lib

/-- The account whose authorities an operation writes, if it writes any. -/
def Operation.rekeyed (env : Env) : Operation → Option AccountName
  | .accountCreate _ nameSeed _ _ _ _ => some (env.makeRandomFixedString nameSeed)
  | .accountUpdate account _ _ _ _ => some account
  | .accountDelete account => some account
  | .recoverAccount account _ _ => some account
  | .resetAccount _ account _ => some account
  | _ => none

/-- All rows but that of an account are the same, and that account has a row. -/
structure Rewritten (name : AccountName) (rows rows' : Table AccountName AccountAuthority) :
    Prop where
  row : ∃ auth, rows'.find? name = some auth
  other : ∀ other, other ≠ name → rows'.find? other = rows.find? other

variable {ctx : Context} {g : GenesisState} {s s' : Database} {name : AccountName}

theorem Rewritten.modify {rows : Table AccountName AccountAuthority} {auth : AccountAuthority}
    (hauth : rows.find? name = some auth) (f : AccountAuthority → AccountAuthority) :
    Rewritten name rows (rows.modify name f) := by
  constructor
  · exact ⟨f auth, by rw [Table.find?_modify, if_pos rfl, hauth, Option.map_some]⟩
  · intro other hother
    rw [Table.find?_modify, if_neg hother]

theorem Rewritten.trans {rows rows₁ rows₂ : Table AccountName AccountAuthority}
    (h : Rewritten name rows rows₁) (h' : Rewritten name rows₁ rows₂) : Rewritten name rows rows₂ :=
  ⟨h'.row, fun other hother ↦ (h'.other other hother).trans (h.other other hother)⟩

/-- Commerce leaves the authorities alone. -/
theorem Commerce.authorities (h : Commerce s s') : s'.authorities = s.authorities := by
  rw [h.rest]

theorem authorities_foldlM {α : Type} {f : Database → α → Exec Database} {l : List α}
    (hf : ∀ s a s', f s a = .ok s' → s'.authorities = s.authorities) (h : l.foldlM f s = .ok s') :
    s'.authorities = s.authorities :=
  foldlM_invariant (I := fun t ↦ t.authorities = s.authorities)
    (fun _ _ _ _ hround hs ↦ (hf _ _ _ hround).trans hs) h rfl

namespace Database

/-! ## Operations -/

theorem updateOwnerAuthority_rewritten {owner : Authority}
    (h : s.updateOwnerAuthority name owner = .ok s') :
    Rewritten name s.authorities s'.authorities := by
  simp only [updateOwnerAuthority, getAuthority, bind_eq_ok, orUnknownKey_eq_ok, pure_eq_ok] at h
  obtain ⟨auth, hauth, rfl⟩ := h
  exact .modify hauth fun auth ↦ { auth with owner := owner, lastOwnerUpdate := s.dgp.time }

theorem accountCreateEvaluator_rewritten {fee : Asset} {creator : AccountName} {nameSeed : Bytes}
    {owner active : Authority} {memoKey : PublicKey} {jsonMetadata : Bytes}
    (h : s.accountCreateEvaluator ctx fee creator nameSeed owner active memoKey jsonMetadata =
      .ok s') :
    s.authorities.find? (ctx.env.makeRandomFixedString nameSeed) = none ∧
      Rewritten (ctx.env.makeRandomFixedString nameSeed) s.authorities s'.authorities := by
  simp only [accountCreateEvaluator, bind_eq_ok, createRow_eq_ok] at h
  obtain ⟨_, _, _, _, _, _, _, _, _, _, _, _, excess, _, _, _, _, _, accounts, haccounts,
    authorities, hauthorities, s₁, hfee, h⟩ := h
  have hs₁ : s₁.authorities = authorities := by
    split at hfee
    · exact (payFee_commerce hfee).authorities
    · exact pure_eq_ok.1 hfee ▸ rfl
  have hs' : s'.authorities = s₁.authorities := by
    split at h
    · simp only [bind_eq_ok] at h
      obtain ⟨s₂, hnew, _, _, hpay⟩ := h
      exact ((adjustBalance_commerce hnew).trans (adjustBalance_commerce hpay)).authorities
    · exact pure_eq_ok.1 h ▸ rfl
  refine ⟨(Table.emplace?_eq_some hauthorities).1, ?_, fun other hother ↦ ?_⟩
  · exact ⟨_, by rw [hs', hs₁, Table.find?_emplace? hauthorities, if_pos rfl]⟩
  · rw [hs', hs₁, Table.find?_emplace? hauthorities, if_neg hother]

theorem accountUpdateEvaluator_rewritten {owner active : Option Authority} {memoKey : PublicKey}
    {jsonMetadata : Bytes}
    (h : s.accountUpdateEvaluator name owner active memoKey jsonMetadata = .ok s') :
    Rewritten name s.authorities s'.authorities := by
  simp only [accountUpdateEvaluator, getAuthority, bind_eq_ok, orUnknownKey_eq_ok,
    pure_eq_ok] at h
  obtain ⟨_, _, _, _, auth, hauth, s₁, howner, _, _, rfl⟩ := h
  have hs₁ : Rewritten name s.authorities s₁.authorities := by
    cases owner with
    | none => exact pure_eq_ok.1 howner ▸ ⟨⟨auth, hauth⟩, fun _ _ ↦ rfl⟩
    | some owner =>
      simp only [updateOwner, bind_eq_ok] at howner
      obtain ⟨_, _, _, _, howner⟩ := howner
      exact updateOwnerAuthority_rewritten howner
  cases active with
  | none => exact hs₁
  | some active =>
    obtain ⟨auth, hauth⟩ := hs₁.row
    exact hs₁.trans (.modify hauth fun auth ↦ { auth with active := active })

theorem accountDeleteEvaluator_rewritten (h : s.accountDeleteEvaluator name = .ok s') :
    Rewritten name s.authorities s'.authorities := by
  simp only [accountDeleteEvaluator, bind_eq_ok, pure_eq_ok] at h
  obtain ⟨_, _, _, _, _, _, _, _, s₁, howner, rfl⟩ := h
  have hs₁ := updateOwnerAuthority_rewritten howner
  obtain ⟨auth, hauth⟩ := hs₁.row
  exact hs₁.trans (.modify hauth fun auth ↦ { auth with active := ⟨1, [], [(nullKey, 1)]⟩ })

theorem recoverAccountEvaluator_rewritten {newOwnerAuthority recentOwnerAuthority : Authority}
    (h : s.recoverAccountEvaluator name newOwnerAuthority recentOwnerAuthority = .ok s') :
    Rewritten name s.authorities s'.authorities := by
  simp only [recoverAccountEvaluator, bind_eq_ok] at h
  obtain ⟨_, _, _, _, h⟩ := h
  split at h
  · cases h
  · simp only [bind_eq_ok, pure_eq_ok] at h
    obtain ⟨_, _, _, _, s₁, howner, rfl⟩ := h
    have hs₁ := updateOwnerAuthority_rewritten howner
    exact hs₁

/-- Operations that write authorities write those of one account. -/
theorem evaluate_rewritten {fee : Asset} {op : Operation} (h : s.evaluate ctx fee op = .ok s')
    (hname : Operation.rekeyed ctx.env op = some name) :
    Rewritten name s.authorities s'.authorities := by
  cases op with
  | accountCreate _ _ _ _ _ _ =>
    cases hname
    exact (accountCreateEvaluator_rewritten h).2
  | accountUpdate _ _ _ _ _ =>
    cases hname
    exact accountUpdateEvaluator_rewritten h
  | accountDelete _ =>
    cases hname
    exact accountDeleteEvaluator_rewritten h
  | recoverAccount _ _ _ =>
    cases hname
    exact recoverAccountEvaluator_rewritten h
  | resetAccount _ _ _ =>
    cases hname
    simp only [evaluate, resetAccountEvaluator, bind_eq_ok] at h
    obtain ⟨_, _, _, _, howner⟩ := h
    exact updateOwnerAuthority_rewritten howner
  | _ => cases hname

theorem createWitness_authorities {owner : AccountName} {url : Bytes} {key : PublicKey}
    {props : ChainProperties} (h : s.createWitness g owner url key props = .ok s') :
    s'.authorities = s.authorities := by
  simp only [createWitness, bind_eq_ok, pure_eq_ok] at h
  obtain ⟨_, _, rfl⟩ := h
  rfl

theorem evaluate_authorities {fee : Asset} {op : Operation} (h : s.evaluate ctx fee op = .ok s')
    (hname : Operation.rekeyed ctx.env op = none) : s'.authorities = s.authorities := by
  cases op with
  | accountCreate _ _ _ _ _ _ | accountUpdate _ _ _ _ _ | accountDelete _ | recoverAccount _ _ _
  | resetAccount _ _ _ => cases hname
  | setResetAccount _ _ _ =>
    simp only [evaluate, setResetAccountEvaluator, bind_eq_ok, pure_eq_ok] at h
    obtain ⟨_, _, _, _, _, _, _, _, rfl⟩ := h
    rfl
  | requestAccountRecovery _ _ _ =>
    simp only [evaluate, requestAccountRecoveryEvaluator, bind_eq_ok] at h
    obtain ⟨_, _, _, _, h⟩ := h
    split at h
    · simp only [bind_eq_ok, pure_eq_ok] at h
      obtain ⟨_, _, _, _, _, _, _, _, rfl⟩ := h
      rfl
    · split at h
      · cases h
        rfl
      · simp only [bind_eq_ok, pure_eq_ok] at h
        obtain ⟨_, _, _, _, rfl⟩ := h
        rfl
  | changeRecoveryAccount _ _ =>
    simp only [evaluate, changeRecoveryAccountEvaluator, bind_eq_ok] at h
    obtain ⟨_, _, _, _, h⟩ := h
    split at h
    · simp only [bind_eq_ok, pure_eq_ok] at h
      obtain ⟨_, _, rfl⟩ := h
      rfl
    · split at h <;> cases h <;> rfl
  | witnessUpdate _ _ _ _ =>
    simp only [evaluate, witnessUpdateEvaluator] at h
    split at h
    · simp only [bind_eq_ok, pure_eq_ok] at h
      obtain ⟨_, _, rfl⟩ := h
      rfl
    · simp only [bind_eq_ok] at h
      obtain ⟨_, _, _, _, _, _, h⟩ := h
      split at h
      · cases h
        rfl
      · exact createWitness_authorities h
  | adminWitnessUpdate _ _ _ _ =>
    simp only [evaluate, adminWitnessUpdateEvaluator, bind_eq_ok] at h
    obtain ⟨_, _, h⟩ := h
    split at h
    · exact createWitness_authorities h
    · cases h
      rfl
  | feedPublish _ _ =>
    simp only [evaluate, feedPublishEvaluator, bind_eq_ok, pure_eq_ok] at h
    obtain ⟨_, _, _, _, rfl⟩ := h
    rfl
  | witnessStop _ =>
    simp only [evaluate, witnessStopEvaluator, bind_eq_ok, pure_eq_ok] at h
    obtain ⟨_, _, rfl⟩ := h
    rfl
  | witnessSetProperties _ _ =>
    simp only [evaluate, witnessSetPropertiesEvaluator, bind_eq_ok, pure_eq_ok] at h
    obtain ⟨_, _, _, _, _, _, rfl⟩ := h
    rfl
  | _ => exact (evaluate_commerce h trivial).authorities

/-! ## Stages -/

theorem applyHardfork_authorities {hardfork : ℕ} (h : s.applyHardfork g hardfork = .ok s') :
    s'.authorities = s.authorities := by
  simp only [applyHardfork, bind_eq_ok, pure_eq_ok] at h
  obtain ⟨s₁, hvotes, _, _, _, _, rfl⟩ := h
  have hs₁ : s₁.authorities = s.authorities := by
    split at hvotes
    · refine (authorities_foldlM (fun s₂ name s₃ hround ↦ ?_) hvotes).trans rfl
      simp only [bind_eq_ok] at hround
      obtain ⟨_, _, _, _, hadjust⟩ := hround
      exact (adjustProxiedWitnessVotes_frame hadjust).commerce.authorities
    · exact pure_eq_ok.1 hvotes ▸ rfl
  exact hs₁

theorem setHardfork_authorities {hardfork : ℕ} (h : s.setHardfork g hardfork = .ok s') :
    s'.authorities = s.authorities := by
  refine authorities_foldlM (fun s₁ i s₂ hround ↦ ?_) h
  have hs₂ := applyHardfork_authorities hround
  exact hs₂

theorem processHardforks_authorities (h : s.processHardforks g = .ok s') :
    s'.authorities = s.authorities := by
  unfold processHardforks at h
  generalize numHardforks + 1 = rounds at h
  induction rounds generalizing s with
  | zero => exact pure_eq_ok.1 h ▸ rfl
  | succ rounds ih =>
    unfold processHardforksLoop at h
    split at h
    · split at h
      · simp only [bind_eq_ok] at h
        obtain ⟨s₁, hfork, h⟩ := h
        exact (ih h).trans (applyHardfork_authorities hfork)
      · cases h
    · exact pure_eq_ok.1 h ▸ rfl

theorem openBlock_authorities {b : SignedBlock} (h : s.openBlock ctx b = .ok s') :
    s'.authorities = s.authorities := by
  simp only [openBlock, bind_eq_ok, pure_eq_ok] at h
  obtain ⟨s₁, hforks, _, _, _, _, _, _, s₂, hextensions, _, _, _, _, rfl⟩ := h
  have hs₁ : s₁.authorities = s.authorities := by
    simp only [applyGenesisHardforks] at hforks
    split at hforks
    · simp only [bind_eq_ok, pure_eq_ok] at hforks
      obtain ⟨s₃, hfork, _, _, rfl⟩ := hforks
      have hs₃ := setHardfork_authorities hfork
      exact hs₃
    · exact pure_eq_ok.1 hforks ▸ rfl
  have hs₂ : s₂.authorities = s₁.authorities := by
    refine (authorities_foldlM (fun s₃ extension s₄ hround ↦ ?_) hextensions).trans rfl
    cases extension with
    | void => exact pure_eq_ok.1 hround ▸ rfl
    | version _ | hardforkVersionVote _ _ =>
      simp only [processHeaderExtension, bind_eq_ok, pure_eq_ok] at hround
      obtain ⟨_, _, rfl⟩ := hround
      rfl
  exact hs₂.trans hs₁

theorem openTransaction_authorities {trx : Transaction} (h : s.openTransaction ctx trx = .ok s') :
    s'.authorities = s.authorities := by
  simp only [openTransaction, bind_eq_ok] at h
  obtain ⟨_, _, _, _, _, _, _, _, h⟩ := h
  split at h
  · simp only [bind_eq_ok, pure_eq_ok] at h
    obtain ⟨_, _, rfl⟩ := h
    rfl
  · exact pure_eq_ok.1 h ▸ rfl

theorem updateGlobalDynamicData_authorities {b : SignedBlock}
    (h : s.updateGlobalDynamicData ctx b = .ok s') : s'.authorities = s.authorities := by
  simp only [updateGlobalDynamicData, bind_eq_ok, pure_eq_ok] at h
  obtain ⟨_, _, s₁, hmissed, _, _, rfl⟩ := h
  have hs₁ : s₁.authorities = s.authorities := by
    refine authorities_foldlM (fun s₂ slot s₃ hround ↦ ?_) hmissed
    simp only [missSlot, bind_eq_ok] at hround
    obtain ⟨_, _, _, _, hround⟩ := hround
    split at hround
    · cases hround
      rfl
    · exact pure_eq_ok.1 hround ▸ rfl
  exact hs₁

theorem updateWitnessSchedule_authorities (h : s.updateWitnessSchedule g = .ok s') :
    s'.authorities = s.authorities := by
  unfold updateWitnessSchedule at h
  split at h
  · cases h
  · split at h
    · simp only [updateWitnessSchedule4, bind_eq_ok, Prod.exists] at h
      obtain ⟨_, _, _, _, _, _, _, _, _, _, hprops⟩ := h
      simp only [updateMedianWitnessProps, bind_eq_ok] at hprops
      obtain ⟨_, _, hprops⟩ := hprops
      split at hprops
      · cases hprops
        rfl
      · cases hprops
    · exact pure_eq_ok.1 h ▸ rfl

theorem accountRecoveryProcessing_authorities (h : s.accountRecoveryProcessing = .ok s') :
    s'.authorities = s.authorities := by
  simp only [accountRecoveryProcessing] at h
  refine (authorities_foldlM (fun s₁ entry s₂ hround ↦ ?_) h).trans rfl
  simp only [applyRecoveryChange, bind_eq_ok, pure_eq_ok] at hround
  obtain ⟨_, _, rfl⟩ := hround
  rfl

end Database

theorem onPublicNet_authorities {step : Database → Exec Database} (h : onPublicNet s step = .ok s')
    (hstep : step s = .ok s' → Commerce s s') : s'.authorities = s.authorities := by
  unfold onPublicNet at h
  split at h
  · exact pure_eq_ok.1 h ▸ rfl
  · exact (hstep h).authorities

/-- Apart from operations, no stage writes authorities. -/
theorem Stage.authorities_eq {stage : Stage} (h : stage.run ctx s = .ok s')
    (hstage : ∀ trx op, stage ≠ .operation trx op) : s'.authorities = s.authorities := by
  cases stage with
  | openBlock b => exact Database.openBlock_authorities h
  | openTransaction trx => exact Database.openTransaction_authorities h
  | operation trx op => exact absurd rfl (hstage trx op)
  | closeTransaction trx => exact (Database.closeTransaction_commerce h).authorities
  | updateGlobalDynamicData b => exact Database.updateGlobalDynamicData_authorities h
  | updateSigningWitness b =>
    simp only [run, Database.updateSigningWitness, bind_eq_ok, pure_eq_ok] at h
    obtain ⟨_, _, rfl⟩ := h
    rfl
  | updateLastIrreversibleBlock =>
    simp only [run, Database.updateLastIrreversibleBlock, bind_eq_ok, pure_eq_ok] at h
    obtain ⟨_, _, rfl⟩ := h
    rfl
  | createBlockSummary b | clearExpiredTransactions =>
    cases h
    rfl
  | updateWitnessSchedule => exact Database.updateWitnessSchedule_authorities h
  | processInterests => exact onPublicNet_authorities h Database.processInterests_commerce
  | updateMedianFeeds => exact onPublicNet_authorities h Database.updateMedianFeeds_commerce
  | clearNullAccountBalance =>
    exact onPublicNet_authorities h Database.clearNullAccountBalance_commerce
  | processFunds b =>
    simp only [run] at h
    exact onPublicNet_authorities h Database.processFunds_commerce
  | processVestingWithdrawals =>
    exact onPublicNet_authorities h Database.processVestingWithdrawals_commerce
  | accountRecoveryProcessing => exact Database.accountRecoveryProcessing_authorities h
  | expireEscrowRatification =>
    exact (Database.expireEscrowRatification_commerce h).authorities
  | processHardforks => exact Database.processHardforks_authorities h
  | recordBlock b =>
    simp only [run] at h
    refine onPublicNet_authorities h fun hrecord ↦ ?_
    obtain ⟨_, _, rfl⟩ := Database.recordBlock_eq_ok hrecord
    exact .tables rfl

end SophiaTX.Chain
