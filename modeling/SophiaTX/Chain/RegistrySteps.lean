import SophiaTX.Chain.Registry

/-!
# Stages and the registry

Of the stages of a block, the opening of transactions and the removal of expired ones, the move of
the head and the processing of recoveries write to the registry. All others leave it to the
operations.
-/

namespace SophiaTX.Chain

open SophiaTX.Protocol SophiaTX.Lib

variable {ctx : Context} {g : GenesisState} {s s' : Database}

namespace Database

/-! ## Stages that leave it alone -/

theorem applyHardfork_registry {hardfork : ℕ} (h : s.applyHardfork g hardfork = .ok s') :
    s'.registry = s.registry := by
  simp only [applyHardfork, bind_eq_ok, pure_eq_ok] at h
  obtain ⟨s₁, hvotes, _, _, _, _, rfl⟩ := h
  have hs₁ : s₁.registry = s.registry := by
    split at hvotes
    · refine (registry_foldlM (fun s₂ name s₃ hround ↦ ?_) hvotes).trans rfl
      simp only [bind_eq_ok] at hround
      obtain ⟨_, _, _, _, hadjust⟩ := hround
      exact (adjustProxiedWitnessVotes_frame hadjust).commerce.registry
    · exact pure_eq_ok.1 hvotes ▸ rfl
  exact hs₁

theorem setHardfork_registry {hardfork : ℕ} (h : s.setHardfork g hardfork = .ok s') :
    s'.registry = s.registry := by
  refine registry_foldlM (fun s₁ i s₂ hround ↦ ?_) h
  have hs₂ := applyHardfork_registry hround
  exact hs₂

theorem processHardforks_registry (h : s.processHardforks g = .ok s') :
    s'.registry = s.registry := by
  unfold processHardforks at h
  generalize numHardforks + 1 = rounds at h
  induction rounds generalizing s with
  | zero => exact pure_eq_ok.1 h ▸ rfl
  | succ rounds ih =>
    unfold processHardforksLoop at h
    split at h
    · split at h
      · simp only [bind_eq_ok] at h
        obtain ⟨s₁, hfork, h⟩ := h
        exact (ih h).trans (applyHardfork_registry hfork)
      · cases h
    · exact pure_eq_ok.1 h ▸ rfl

theorem applyGenesisHardforks_registry {b : SignedBlock}
    (h : s.applyGenesisHardforks g b = .ok s') : s'.registry = s.registry := by
  simp only [applyGenesisHardforks] at h
  split at h
  · simp only [bind_eq_ok, pure_eq_ok] at h
    obtain ⟨s₁, hfork, _, _, rfl⟩ := h
    have hs₁ := setHardfork_registry hfork
    exact hs₁
  · exact pure_eq_ok.1 h ▸ rfl

theorem openBlock_registry {b : SignedBlock} (h : s.openBlock ctx b = .ok s') :
    s.registry.time < b.timestamp ∧ s'.registry = s.registry := by
  simp only [openBlock, validateBlockHeader, bind_eq_ok, fcAssert_eq_ok, pure_eq_ok] at h
  obtain ⟨s₁, hforks, _, _, _, ⟨_, _, _, htime, _⟩, _, _, s₂, hextensions, _, _, _, _, rfl⟩ := h
  have hs₁ := applyGenesisHardforks_registry hforks
  have hs₂ : s₂.registry = s₁.registry := by
    refine (registry_foldlM (fun s₃ extension s₄ hround ↦ ?_) hextensions).trans rfl
    cases extension with
    | void => exact pure_eq_ok.1 hround ▸ rfl
    | version _ | hardforkVersionVote _ _ =>
      simp only [processHeaderExtension, bind_eq_ok, pure_eq_ok] at hround
      obtain ⟨_, _, rfl⟩ := hround
      rfl
  refine ⟨?_, hs₂.trans hs₁⟩
  rw [← hs₁]
  exact htime

theorem updateWitnessSchedule_registry (h : s.updateWitnessSchedule g = .ok s') :
    s'.registry = s.registry := by
  unfold updateWitnessSchedule at h
  split at h
  · cases h
  · split at h
    · simp only [updateWitnessSchedule4, bind_eq_ok, Prod.exists] at h
      obtain ⟨_, _, _, _, _, _, _, _, _, _, hprops⟩ := h
      simp only [updateMedianWitnessProps, bind_eq_ok] at hprops
      obtain ⟨_, _, hprops⟩ := hprops
      split at hprops
      · cases hprops
        rfl
      · cases hprops
    · exact pure_eq_ok.1 h ▸ rfl

/-! ## Stages that write to it -/

theorem openTransaction_registry {trx : Transaction} (h : s.openTransaction ctx trx = .ok s') :
    s.registry.Step ctx (.openTransaction trx) s'.registry := by
  simp only [openTransaction, checkTransactionTime, bind_eq_ok, fcAssert_eq_ok] at h
  obtain ⟨_, _, _, hdupe, _, _, _, htime, h⟩ := h
  have hexpiration : s.registry.head = 0 ∨ s.registry.time < trx.expiration := by
    split at htime
    · exact .inl ‹_›
    · simp only [bind_eq_ok, throwIf_eq_ok, not_le] at htime
      obtain ⟨_, _, _, _, hlater⟩ := htime
      exact .inr hlater
  refine ⟨hexpiration, ?_⟩
  split at h
  · rename_i hskip
    simp only [bind_eq_ok, createRow_eq_ok, pure_eq_ok] at h
    obtain ⟨transactions, hcreate, rfl⟩ := h
    rw [if_neg (by simp [hskip])]
    refine ⟨(Table.emplace?_eq_some hcreate).1, ?_⟩
    simp only [registry, Registry.mk.injEq, true_and, and_true]
    funext id
    rw [Table.find?_emplace? hcreate, Function.update_apply]
  · rename_i hskip
    rw [if_pos (by simpa using hskip)]
    exact congrArg registry (pure_eq_ok.1 h).symm

theorem updateGlobalDynamicData_registry {b : SignedBlock}
    (h : s.updateGlobalDynamicData ctx b = .ok s') :
    s'.registry = { s.registry with head := b.blockNum, time := b.timestamp } := by
  simp only [updateGlobalDynamicData, bind_eq_ok, pure_eq_ok] at h
  obtain ⟨_, _, s₁, hmissed, _, _, rfl⟩ := h
  have hs₁ : s₁.registry = s.registry := by
    refine registry_foldlM (fun s₂ slot s₃ hround ↦ ?_) hmissed
    simp only [missSlot, bind_eq_ok] at hround
    obtain ⟨_, _, _, _, hround⟩ := hround
    split at hround
    · cases hround
      rfl
    · exact pure_eq_ok.1 hround ▸ rfl
  rw [← hs₁, shiftSlots_eq]
  rfl

theorem clearExpiredTransactions_registry (s : Database) :
    s.clearExpiredTransactions.registry = { s.registry with
      transactions := fun id ↦ (s.registry.transactions id).filter fun expiration ↦
        decide (s.registry.time ≤ expiration) } := by
  simp only [clearExpiredTransactions, registry, Registry.mk.injEq, true_and, and_true]
  funext id
  exact Table.find?_filterRows _ _ _

theorem applyRecoveryChange_registry {entry : AccountName × ChangeRecoveryAccountRequest}
    (h : s.applyRecoveryChange entry = .ok s') : s'.registry = s.registry.withRecovery
      (Function.update s.registry.guardians entry.1
        ((s.registry.guardians entry.1).map fun guardians ↦ (entry.2.recoveryAccount, guardians.2)))
      (Function.update s.registry.changes entry.1 none) := by
  simp only [applyRecoveryChange, bind_eq_ok, pure_eq_ok] at h
  obtain ⟨_, _, rfl⟩ := h
  simp only [registry, Registry.withRecovery, modifyAccount, Registry.mk.injEq, true_and, and_true]
  constructor
  · funext name
    rw [Table.find?_modify, Function.update_apply]
    split
    · rename_i hname
      rw [hname, Option.map_map, Option.map_map]
      rfl
    · rfl
  · funext name
    rw [Table.find?_erase, Function.update_apply]

/-- The loop over the changes that are due, whatever their order. -/
theorem applyRecoveryChanges_registry {l : List (AccountName × ChangeRecoveryAccountRequest)}
    (hnodup : (l.map Prod.fst).Nodup) (h : l.foldlM applyRecoveryChange s = .ok s') :
    s'.registry = s.registry.withRecovery s'.registry.guardians s'.registry.changes ∧
    (∀ name ∉ l.map Prod.fst, s'.registry.guardians name = s.registry.guardians name ∧
      s'.registry.changes name = s.registry.changes name) ∧
    ∀ entry ∈ l, s'.registry.guardians entry.1 = ((s.registry.guardians entry.1).map
      fun guardians ↦ (entry.2.recoveryAccount, guardians.2)) ∧
        s'.registry.changes entry.1 = none := by
  induction l generalizing s with
  | nil =>
    rw [List.foldlM_nil, pure_eq_ok] at h
    rw [← h]
    exact ⟨rfl, fun _ _ ↦ ⟨rfl, rfl⟩, fun _ hentry ↦ absurd hentry List.not_mem_nil⟩
  | cons first rest ih =>
    rw [List.foldlM_cons, bind_eq_ok] at h
    obtain ⟨s₁, hfirst, h⟩ := h
    rw [List.map_cons, List.nodup_cons] at hnodup
    obtain ⟨hrest, hothers, hentries⟩ := ih hnodup.2 h
    rw [applyRecoveryChange_registry hfirst] at hrest hothers hentries
    simp only [Registry.withRecovery] at hothers hentries
    refine ⟨hrest, fun name hname ↦ ?_, fun entry hentry ↦ ?_⟩
    · rw [List.map_cons, List.mem_cons, not_or] at hname
      obtain ⟨hguardians, hchanges⟩ := hothers name hname.2
      exact ⟨hguardians.trans (Function.update_of_ne hname.1 _ _),
        hchanges.trans (Function.update_of_ne hname.1 _ _)⟩
    · rcases List.mem_cons.1 hentry with rfl | hentry
      · obtain ⟨hguardians, hchanges⟩ := hothers entry.1 hnodup.1
        exact ⟨hguardians.trans (Function.update_self _ _ _),
          hchanges.trans (Function.update_self _ _ _)⟩
      · have hne : entry.1 ≠ first.1 := fun heq ↦
          hnodup.1 (heq ▸ List.mem_map_of_mem hentry)
        obtain ⟨hguardians, hchanges⟩ := hentries entry hentry
        rw [Function.update_of_ne hne] at hguardians
        exact ⟨hguardians, hchanges⟩

/-- Requests to change a recovery account that are due. -/
def dueChanges (s : Database) : List (AccountName × ChangeRecoveryAccountRequest) :=
  s.changeRecoveryRequests.entries.filter fun entry ↦ decide (entry.2.effectiveOn ≤ s.dgp.time)

theorem mem_dueChanges {entry : AccountName × ChangeRecoveryAccountRequest} :
    entry ∈ s.dueChanges ↔
      s.registry.changes entry.1 = some entry.2 ∧ entry.2.effectiveOn ≤ s.registry.time := by
  rw [dueChanges, List.mem_filter, decide_eq_true_eq]
  exact and_congr (Table.find?_eq_some_iff _ _ _).symm Iff.rfl

theorem accountRecoveryProcessing_registry (h : s.accountRecoveryProcessing = .ok s') :
    s'.registry = s.registry.settle := by
  simp only [accountRecoveryProcessing] at h
  have hperm := List.perm_insertionSort
    (fun a b : AccountName × ChangeRecoveryAccountRequest ↦ a.2.effectiveOn < b.2.effectiveOn ∨
      (a.2.effectiveOn = b.2.effectiveOn ∧ a.1 ≤ b.1)) s.dueChanges
  have hnodup : (s.dueChanges.map Prod.fst).Nodup :=
    s.changeRecoveryRequests.nodup.sublist (List.filter_sublist.map Prod.fst)
  obtain ⟨hrest, hothers, hentries⟩ :=
    applyRecoveryChanges_registry ((hperm.map Prod.fst).nodup_iff.2 hnodup) h
  have hentries' : ∀ name change, s.registry.changes name = some change →
      change.effectiveOn ≤ s.registry.time →
      s'.registry.guardians name = ((s.registry.guardians name).map fun guardians ↦
        (change.recoveryAccount, guardians.2)) ∧ s'.registry.changes name = none := by
    intro name change hchange hdue
    exact hentries (name, change) (hperm.mem_iff.2 (mem_dueChanges.2 ⟨hchange, hdue⟩))
  have hothers' : ∀ name, (∀ change, s.registry.changes name = some change →
      s.registry.time < change.effectiveOn) →
      s'.registry.guardians name = s.registry.guardians name ∧
        s'.registry.changes name = s.registry.changes name := by
    intro name hlater
    refine hothers name fun hmem ↦ ?_
    obtain ⟨entry, hentry, rfl⟩ := List.mem_map.1 hmem
    obtain ⟨hchange, hdue⟩ := mem_dueChanges.1 (hperm.mem_iff.1 hentry)
    exact absurd (hlater _ hchange) (not_lt.2 hdue)
  have hguardians : s'.registry.guardians = s.registry.settle.guardians := by
    funext name
    simp only [Registry.settle, Registry.due]
    cases hchange : s.registry.changes name with
    | none => exact (hothers' name (by simp [hchange])).1
    | some change =>
      by_cases hdue : change.effectiveOn ≤ s.registry.time
      · simpa only [if_pos hdue] using (hentries' name change hchange hdue).1
      · simpa only [if_neg hdue] using (hothers' name (by simpa [hchange] using hdue)).1
  have hchanges : s'.registry.changes = s.registry.settle.changes := by
    funext name
    simp only [Registry.settle]
    cases hchange : s.registry.changes name with
    | none => exact ((hothers' name (by simp [hchange])).2.trans hchange).trans rfl
    | some change =>
      by_cases hdue : change.effectiveOn ≤ s.registry.time
      · rw [(hentries' name change hchange hdue).2, Option.filter_some,
          if_neg (by simpa using hdue)]
      · rw [(hothers' name (by simpa [hchange] using hdue)).2, hchange, Option.filter_some,
          if_pos (by simpa using hdue)]
  refine hrest.trans ?_
  rw [hguardians, hchanges]
  simp only [registry, Registry.withRecovery, Registry.settle, Registry.mk.injEq, true_and]
  exact ⟨funext fun name ↦ Table.find?_filterRows _ _ _, rfl⟩

end Database

/-! ## All stages -/

theorem onPublicNet_registry {step : Database → Exec Database} (h : onPublicNet s step = .ok s')
    (hstep : step s = .ok s' → Commerce s s') : s'.registry = s.registry := by
  unfold onPublicNet at h
  split at h
  · exact pure_eq_ok.1 h ▸ rfl
  · exact (hstep h).registry

/-- Every stage that succeeds does to the registry what is said above. -/
theorem Stage.registry_step {stage : Stage} (h : stage.run ctx s = .ok s') :
    s.registry.Step ctx stage s'.registry := by
  cases stage with
  | openBlock b => exact Database.openBlock_registry h
  | openTransaction trx => exact Database.openTransaction_registry h
  | operation trx op =>
    simp only [run, Database.applyOperation, bind_eq_ok] at h
    obtain ⟨s₁, hfee, heval⟩ := h
    have hstep := Database.evaluate_registry heval
    rw [(Database.processOperationFee_commerce hfee).registry] at hstep
    exact hstep
  | closeTransaction trx => exact (Database.closeTransaction_commerce h).registry
  | updateGlobalDynamicData b => exact Database.updateGlobalDynamicData_registry h
  | updateSigningWitness b =>
    simp only [run, Database.updateSigningWitness, bind_eq_ok, pure_eq_ok] at h
    obtain ⟨_, _, rfl⟩ := h
    rfl
  | updateLastIrreversibleBlock =>
    simp only [run, Database.updateLastIrreversibleBlock, bind_eq_ok, pure_eq_ok] at h
    obtain ⟨_, _, rfl⟩ := h
    rfl
  | createBlockSummary b =>
    cases h
    rfl
  | clearExpiredTransactions =>
    rw [← pure_eq_ok.1 h]
    exact Database.clearExpiredTransactions_registry s
  | updateWitnessSchedule => exact Database.updateWitnessSchedule_registry h
  | processInterests => exact onPublicNet_registry h Database.processInterests_commerce
  | updateMedianFeeds => exact onPublicNet_registry h Database.updateMedianFeeds_commerce
  | clearNullAccountBalance =>
    exact onPublicNet_registry h Database.clearNullAccountBalance_commerce
  | processFunds b =>
    simp only [run] at h
    exact onPublicNet_registry h Database.processFunds_commerce
  | processVestingWithdrawals =>
    exact onPublicNet_registry h Database.processVestingWithdrawals_commerce
  | accountRecoveryProcessing => exact Database.accountRecoveryProcessing_registry h
  | expireEscrowRatification =>
    exact (Database.expireEscrowRatification_commerce h).registry
  | processHardforks => exact Database.processHardforks_registry h
  | recordBlock b =>
    simp only [run] at h
    refine onPublicNet_registry h fun hrecord ↦ ?_
    obtain ⟨_, _, rfl⟩ := Database.recordBlock_eq_ok hrecord
    exact .tables rfl

/-! ## Clock and transactions -/

/-- Operations leave the clock and the table of transactions alone. -/
theorem Registry.OperationStep.clock_eq {env : Env} {r r' : Registry} {op : Operation}
    (h : r.OperationStep env op r') :
    r'.head = r.head ∧ r'.time = r.time ∧ r'.transactions = r.transactions := by
  cases op with
  | accountCreate _ _ _ _ _ _ =>
    obtain ⟨_, _, rfl⟩ := h
    exact ⟨rfl, rfl, rfl⟩
  | accountUpdate _ owner _ _ _ =>
    cases owner with
    | none =>
      obtain rfl : r' = r := h
      exact ⟨rfl, rfl, rfl⟩
    | some _ =>
      obtain ⟨_, _, _, _, rfl⟩ := h
      exact ⟨rfl, rfl, rfl⟩
  | accountDelete _ =>
    obtain ⟨_, _, _, _, rfl⟩ := h
    exact ⟨rfl, rfl, rfl⟩
  | resetAccount _ _ _ =>
    obtain ⟨_, _, _, _, _, rfl⟩ := h
    exact ⟨rfl, rfl, rfl⟩
  | setResetAccount _ _ _ =>
    obtain ⟨_, _, _, rfl⟩ := h
    exact ⟨rfl, rfl, rfl⟩
  | recoverAccount _ _ _ =>
    obtain ⟨_, _, _, _, _, _, _, rfl⟩ := h
    exact ⟨rfl, rfl, rfl⟩
  | requestAccountRecovery _ _ _ | changeRecoveryAccount _ _ =>
    rcases h with rfl | rfl <;> exact ⟨rfl, rfl, rfl⟩
  | _ =>
    obtain rfl : r' = r := h
    exact ⟨rfl, rfl, rfl⟩

/-- Only the move of the head changes the clock. -/
theorem Registry.Step.clock_eq {r r' : Registry} {stage : Stage} (h : r.Step ctx stage r')
    (hstage : ∀ b, stage ≠ .updateGlobalDynamicData b) : r'.head = r.head ∧ r'.time = r.time := by
  cases stage with
  | openBlock _ =>
    obtain ⟨_, rfl⟩ := h
    exact ⟨rfl, rfl⟩
  | operation _ _ =>
    obtain ⟨hhead, htime, _⟩ := OperationStep.clock_eq h
    exact ⟨hhead, htime⟩
  | openTransaction trx =>
    obtain ⟨_, h⟩ := h
    split_ifs at h
    · subst h
      exact ⟨rfl, rfl⟩
    · obtain ⟨_, rfl⟩ := h
      exact ⟨rfl, rfl⟩
  | updateGlobalDynamicData b => exact absurd rfl (hstage b)
  | clearExpiredTransactions =>
    obtain rfl : r' = _ := h
    exact ⟨rfl, rfl⟩
  | accountRecoveryProcessing =>
    obtain rfl : r' = r.settle := h
    exact ⟨rfl, rfl⟩
  | _ =>
    obtain rfl : r' = r := h
    exact ⟨rfl, rfl⟩

theorem Registry.Step.time_eq {r r' : Registry} {stage : Stage} (h : r.Step ctx stage r')
    (hstage : ∀ b, stage ≠ .updateGlobalDynamicData b) : r'.time = r.time :=
  (h.clock_eq hstage).2

/-- Only the opening of transactions and the removal of expired ones change the table. -/
theorem Registry.Step.transactions_eq {r r' : Registry} {stage : Stage} (h : r.Step ctx stage r')
    (hopen : ∀ trx, stage ≠ .openTransaction trx) (hclear : stage ≠ .clearExpiredTransactions) :
    r'.transactions = r.transactions := by
  cases stage with
  | openBlock _ =>
    obtain ⟨_, rfl⟩ := h
    rfl
  | operation _ _ => exact (OperationStep.clock_eq h).2.2
  | openTransaction trx => exact absurd rfl (hopen trx)
  | clearExpiredTransactions => exact absurd rfl hclear
  | updateGlobalDynamicData b =>
    obtain rfl : r' = _ := h
    rfl
  | accountRecoveryProcessing =>
    obtain rfl : r' = r.settle := h
    rfl
  | _ =>
    obtain rfl : r' = r := h
    rfl

end SophiaTX.Chain
