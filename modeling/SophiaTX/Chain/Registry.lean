import SophiaTX.Chain.Commerce

/-!
# The registry of accounts and transactions

Besides money and votes the chain keeps a registry: the clock, the transactions that have not
expired, the owner authorities with their history, and who may recover or reset an account. Few
operations and stages write to it, and what they write is said here once.
-/

namespace SophiaTX.Chain

open SophiaTX.Protocol SophiaTX.Lib

/-- Owner authorities come with the time of their last change. -/
structure Registry where
  head : ℕ
  time : Time
  transactions : ℕ → Option Time
  owner : AccountName → Option (Authority × Time)
  guardians : AccountName → Option (AccountName × AccountName)
  requests : AccountName → Option AccountRecoveryRequest
  changes : AccountName → Option ChangeRecoveryAccountRequest
  histories : List OwnerAuthorityHistory

def Database.registry (s : Database) : Registry where
  head := s.dgp.headBlockNumber
  time := s.dgp.time
  transactions := s.transactions.find?
  owner name := (s.authorities.find? name).map fun auth ↦ (auth.owner, auth.lastOwnerUpdate)
  guardians name := (s.accounts.find? name).map Account.guardians
  requests := s.recoveryRequests.find?
  changes := s.changeRecoveryRequests.find?
  histories := s.ownerHistories

namespace Registry

/-! ## What may be written -/

/-- The owner authority of an account is replaced, and goes into the history. -/
def replaceOwner (r : Registry) (name : AccountName) (old new : Authority) : Registry :=
  { r with
    owner := Function.update r.owner name (some (new, r.time))
    histories := r.histories ++ [⟨name, old, r.time⟩] }

/-- What operations do to the registry. -/
def OperationStep (env : Env) (r : Registry) (op : Operation) (r' : Registry) : Prop :=
  match op with
  | .accountCreate creator nameSeed owner _ _ _ =>
    let name := env.makeRandomFixedString nameSeed
    r.owner name = none ∧ r.guardians name = none ∧ r' = { r with
      owner := Function.update r.owner name (some (owner, 0))
      guardians := Function.update r.guardians name (some (creator, nullAccount)) }
  | .accountUpdate account owner _ _ _ =>
    match owner with
    | some new => ∃ old last, r.owner account = some (old, last) ∧
      last + ownerUpdateLimit < r.time ∧ r' = r.replaceOwner account old new
    | none => r' = r
  | .accountDelete account => ∃ old last, r.owner account = some (old, last) ∧
    last + ownerUpdateLimit < r.time ∧ r' = r.replaceOwner account old ⟨1, [], [(nullKey, 1)]⟩
  | .resetAccount resetter account new => ∃ old last recoverer,
    r.owner account = some (old, last) ∧ r.guardians account = some (recoverer, resetter) ∧
      r' = r.replaceOwner account old new
  | .setResetAccount account current resetter => ∃ recoverer,
    r.guardians account = some (recoverer, current) ∧ (r.guardians resetter).isSome ∧
      r' = { r with
        guardians := Function.update r.guardians account (some (recoverer, resetter)) }
  | .requestAccountRecovery _ account new =>
    r' = { r with requests := Function.update r.requests account none } ∨
      r' = { r with
        requests := Function.update r.requests account
          (some ⟨new, timeAdd r.time accountRecoveryRequestExpirationPeriod⟩) }
  | .recoverAccount account new recent => ∃ old last request,
    r.owner account = some (old, last) ∧ r.requests account = some request ∧
      request.newOwnerAuthority = new ∧
      (∃ hist ∈ r.histories, hist.account = account ∧ hist.previousOwnerAuthority = recent) ∧
      r' = { r.replaceOwner account old new with
        requests := Function.update r.requests account none }
  | .changeRecoveryAccount account recoverer =>
    r' = { r with changes := Function.update r.changes account none } ∨
      r' = { r with
        changes := Function.update r.changes account
          (some ⟨recoverer, timeAdd r.time ownerAuthRecoveryPeriod⟩) }
  | _ => r' = r

/-- Other recovery accounts, and other requests to change them. -/
def withRecovery (r : Registry) (guardians : AccountName → Option (AccountName × AccountName))
    (changes : AccountName → Option ChangeRecoveryAccountRequest) : Registry :=
  { r with guardians := guardians, changes := changes }

/-- Whom `account_recovery_processing` makes the recovery account of an account, if anybody. -/
def due (r : Registry) (name : AccountName) : Option AccountName :=
  match r.changes name with
  | some change => if change.effectiveOn ≤ r.time then some change.recoveryAccount else none
  | none => none

/-- What `account_recovery_processing` leaves of requests and history. -/
def settle (r : Registry) : Registry :=
  { r with
    guardians := fun name ↦
      match r.due name with
      | some recoverer => (r.guardians name).map fun guardians ↦ (recoverer, guardians.2)
      | none => r.guardians name
    requests := fun name ↦ (r.requests name).filter fun request ↦ decide (r.time < request.expires)
    changes := fun name ↦ (r.changes name).filter fun change ↦ decide (r.time < change.effectiveOn)
    histories := r.histories.dropWhile fun hist ↦
      decide (timeAdd hist.lastValidTime ownerAuthRecoveryPeriod < r.time) }

/-- What stages do to the registry. -/
def Step (ctx : Context) (r : Registry) (stage : Stage) (r' : Registry) : Prop :=
  match stage with
  | .openBlock b => r.time < b.timestamp ∧ r' = r
  | .operation _ op => r.OperationStep ctx.env op.op r'
  | .openTransaction trx => (r.head = 0 ∨ r.time < trx.expiration) ∧
    if ctx.skip.transactionDupeCheck = true then r' = r
    else r.transactions (ctx.env.trxId trx) = none ∧ r' = { r with
      transactions :=
        Function.update r.transactions (ctx.env.trxId trx) (some trx.expiration) }
  | .updateGlobalDynamicData b => r' = { r with head := b.blockNum, time := b.timestamp }
  | .clearExpiredTransactions => r' = { r with
      transactions := fun id ↦
        (r.transactions id).filter fun expiration ↦ decide (r.time ≤ expiration) }
  | .accountRecoveryProcessing => r' = r.settle
  | _ => r' = r

end Registry

/-! ## What is left alone -/

variable {ctx : Context} {g : GenesisState} {s s' : Database}

/-- Only accounts change, and of these neither keeps another guardian. -/
theorem registry_of_accounts (h : { s'.registry with guardians := s.registry.guardians } =
      s.registry) (haccounts : s.accounts.AgreeOn Account.guardians s'.accounts) :
    s'.registry = s.registry := by
  have hguardians : s'.registry.guardians = s.registry.guardians := funext haccounts.2
  rw [← h, ← hguardians]

theorem registry_modifyAccount (s : Database) (name : AccountName) {f : Account → Account}
    (hf : ∀ a, s.accounts.find? name = some a → (f a).guardians = a.guardians) :
    (s.modifyAccount name f).registry = s.registry :=
  registry_of_accounts rfl (Table.AgreeOn.modify _ _ hf)

/-- Commerce leaves the registry alone. -/
theorem Commerce.registry (h : Commerce s s') : s'.registry = s.registry := by
  refine registry_of_accounts ?_ h.accounts
  rw [h.rest]
  rfl

theorem registry_foldlM {α : Type} {f : Database → α → Exec Database} {l : List α}
    (hf : ∀ s a s', f s a = .ok s' → s'.registry = s.registry) (h : l.foldlM f s = .ok s') :
    s'.registry = s.registry :=
  foldlM_invariant (I := fun t ↦ t.registry = s.registry)
    (fun _ _ _ _ hround hs ↦ (hf _ _ _ hround).trans hs) h rfl

namespace Database

/-! ## Evaluators that leave it alone -/

theorem createWitness_registry {owner : AccountName} {url : Bytes} {key : PublicKey}
    {props : ChainProperties} (h : s.createWitness g owner url key props = .ok s') :
    s'.registry = s.registry := by
  simp only [createWitness, bind_eq_ok, pure_eq_ok] at h
  obtain ⟨_, _, rfl⟩ := h
  rfl

theorem witnessUpdateEvaluator_registry {owner : AccountName} {url : Bytes}
    {blockSigningKey : PublicKey} {props : ChainProperties}
    (h : s.witnessUpdateEvaluator ctx owner url blockSigningKey props = .ok s') :
    s'.registry = s.registry := by
  simp only [witnessUpdateEvaluator] at h
  split at h
  · simp only [bind_eq_ok, pure_eq_ok] at h
    obtain ⟨_, _, rfl⟩ := h
    rfl
  · simp only [bind_eq_ok] at h
    obtain ⟨_, _, _, _, _, _, h⟩ := h
    split at h
    · cases h
      rfl
    · exact createWitness_registry h

theorem adminWitnessUpdateEvaluator_registry {owner : AccountName} {url : Bytes}
    {blockSigningKey : PublicKey} {props : ChainProperties}
    (h : s.adminWitnessUpdateEvaluator g owner url blockSigningKey props = .ok s') :
    s'.registry = s.registry := by
  simp only [adminWitnessUpdateEvaluator, bind_eq_ok] at h
  obtain ⟨_, _, h⟩ := h
  split at h
  · exact createWitness_registry h
  · cases h
    rfl

/-! ## Evaluators that write to it -/

theorem updateOwnerAuthority_registry {account : AccountName} {owner : Authority}
    (h : s.updateOwnerAuthority account owner = .ok s') : ∃ old last,
      s.registry.owner account = some (old, last) ∧
      s'.registry = s.registry.replaceOwner account old owner ∧ s'.accounts = s.accounts := by
  simp only [updateOwnerAuthority, getAuthority, bind_eq_ok, orUnknownKey_eq_ok, pure_eq_ok] at h
  obtain ⟨auth, hauth, rfl⟩ := h
  refine ⟨auth.owner, auth.lastOwnerUpdate, by simp [registry, hauth], ?_, rfl⟩
  simp only [registry, Registry.replaceOwner, Registry.mk.injEq, true_and, and_true]
  funext name
  rw [Table.find?_modify]
  by_cases hname : name = account
  · subst hname
    simp [hauth]
  · simp [hname]

/-- Active authorities are not part of the registry. -/
theorem modifyActive_registry (s : Database) (account : AccountName) (active : Authority) :
    { s with authorities := s.authorities.modify account fun auth ↦
      { auth with active := active } }.registry = s.registry := by
  simp only [registry, Registry.mk.injEq, true_and, and_true]
  funext name
  rw [Table.find?_modify]
  split
  · cases s.authorities.find? name <;> rfl
  · rfl

theorem accountUpdateEvaluator_registry {account : AccountName} {owner active : Option Authority}
    {memoKey : PublicKey} {jsonMetadata : Bytes} (env : Env)
    (h : s.accountUpdateEvaluator account owner active memoKey jsonMetadata = .ok s') :
    s.registry.OperationStep env (.accountUpdate account owner active memoKey jsonMetadata)
      s'.registry := by
  simp only [accountUpdateEvaluator, getAuthority, bind_eq_ok, orUnknownKey_eq_ok,
    pure_eq_ok] at h
  obtain ⟨_, _, _, _, auth, hauth, s₁, howner, _, _, rfl⟩ := h
  have hrest : ((s₁.modifyAccount account fun a ↦ { a with
      memoKey := if memoKey ≠ nullKey then memoKey else a.memoKey
      lastAccountUpdate := s₁.dgp.time
      jsonMetadata := if jsonMetadata.length > 0 then jsonMetadata else a.jsonMetadata
      }).updateActive account active).registry = s₁.registry := by
    have hmodify := registry_modifyAccount s₁ account (f := fun a ↦ { a with
      memoKey := if memoKey ≠ nullKey then memoKey else a.memoKey
      lastAccountUpdate := s₁.dgp.time
      jsonMetadata := if jsonMetadata.length > 0 then jsonMetadata else a.jsonMetadata
      }) fun _ _ ↦ rfl
    cases active with
    | none => exact hmodify
    | some active => exact (modifyActive_registry _ account active).trans hmodify
  rw [hrest]
  cases owner with
  | none => exact congrArg registry (pure_eq_ok.1 howner).symm
  | some owner =>
    simp only [updateOwner, assertOwnerUpdateLimit, bind_eq_ok, fcAssert_eq_ok] at howner
    obtain ⟨_, hlimit, _, _, howner⟩ := howner
    obtain ⟨old, last, hold, hs₁, _⟩ := updateOwnerAuthority_registry howner
    have hlast : auth.lastOwnerUpdate = last := by
      simp only [registry, hauth, Option.map_some, Option.some.injEq, Prod.mk.injEq] at hold
      exact hold.2
    exact ⟨old, last, hold, hlast ▸ hlimit, hs₁⟩

theorem accountDeleteEvaluator_registry {account : AccountName} (env : Env)
    (h : s.accountDeleteEvaluator account = .ok s') :
    s.registry.OperationStep env (.accountDelete account) s'.registry := by
  simp only [accountDeleteEvaluator, assertOwnerUpdateLimit, getAuthority, bind_eq_ok,
    orUnknownKey_eq_ok, fcAssert_eq_ok, pure_eq_ok] at h
  obtain ⟨_, _, _, _, auth, hauth, _, hlimit, s₁, howner, rfl⟩ := h
  obtain ⟨old, last, hold, hs₁, _⟩ := updateOwnerAuthority_registry howner
  have hlast : auth.lastOwnerUpdate = last := by
    simp only [registry, hauth, Option.map_some, Option.some.injEq, Prod.mk.injEq] at hold
    exact hold.2
  have hmodify := registry_modifyAccount s₁ account (f := fun a ↦ { a with
    memoKey := nullKey
    lastAccountUpdate := s₁.dgp.time
    jsonMetadata := deletedAccountMetadata }) fun _ _ ↦ rfl
  exact ⟨old, last, hold, hlast ▸ hlimit,
    ((modifyActive_registry _ account _).trans hmodify).trans hs₁⟩

theorem resetAccountEvaluator_registry {resetter accountToReset : AccountName}
    {newOwnerAuthority : Authority} (env : Env)
    (h : s.resetAccountEvaluator resetter accountToReset newOwnerAuthority = .ok s') :
    s.registry.OperationStep env (.resetAccount resetter accountToReset newOwnerAuthority)
      s'.registry := by
  simp only [resetAccountEvaluator, getAccount, bind_eq_ok, orUnknownKey_eq_ok,
    fcAssert_eq_ok] at h
  obtain ⟨a, ha, _, rfl, howner⟩ := h
  obtain ⟨old, last, hold, hs₁, _⟩ := updateOwnerAuthority_registry howner
  exact ⟨old, last, a.recoveryAccount, hold, by simp [registry, ha, Account.guardians], hs₁⟩

theorem setResetAccountEvaluator_registry {account currentResetter resetter : AccountName}
    (env : Env) (h : s.setResetAccountEvaluator account currentResetter resetter = .ok s') :
    s.registry.OperationStep env (.setResetAccount account currentResetter resetter)
      s'.registry := by
  simp only [setResetAccountEvaluator, getAccount, bind_eq_ok, orUnknownKey_eq_ok,
    fcAssert_eq_ok, pure_eq_ok] at h
  obtain ⟨a, ha, b, hb, _, rfl, _, _, rfl⟩ := h
  refine ⟨a.recoveryAccount, by simp [registry, ha, Account.guardians], by simp [registry, hb], ?_⟩
  simp only [registry, modifyAccount, Registry.mk.injEq, true_and, and_true]
  funext name
  rw [Table.find?_modify]
  by_cases hname : name = account
  · subst hname
    simp [ha, Account.guardians]
  · simp [hname]

theorem requestAccountRecoveryEvaluator_registry {recoveryAccount accountToRecover : AccountName}
    {newOwnerAuthority : Authority} (env : Env)
    (h : s.requestAccountRecoveryEvaluator recoveryAccount accountToRecover newOwnerAuthority =
      .ok s') : s.registry.OperationStep env
        (.requestAccountRecovery recoveryAccount accountToRecover newOwnerAuthority)
        s'.registry := by
  simp only [requestAccountRecoveryEvaluator, bind_eq_ok] at h
  obtain ⟨_, _, _, _, h⟩ := h
  split at h
  · simp only [bind_eq_ok, createRow_eq_ok, pure_eq_ok] at h
    obtain ⟨_, _, _, _, _, _, requests, hrequests, rfl⟩ := h
    refine .inr ?_
    simp only [registry, Registry.mk.injEq, true_and, and_true]
    funext name
    rw [Table.find?_emplace? hrequests, Function.update_apply]
  · rename_i request hrequest
    split at h
    · cases h
      refine .inl ?_
      simp only [registry, Registry.mk.injEq, true_and, and_true]
      funext name
      rw [Table.find?_erase, Function.update_apply]
    · simp only [bind_eq_ok, pure_eq_ok] at h
      obtain ⟨_, _, _, _, rfl⟩ := h
      refine .inr ?_
      simp only [registry, Registry.mk.injEq, true_and, and_true]
      funext name
      rw [Table.find?_modify, Function.update_apply]
      split
      · rename_i hname
        rw [hname, hrequest, Option.map_some]
      · rfl

theorem recoverAccountEvaluator_registry {accountToRecover : AccountName}
    {newOwnerAuthority recentOwnerAuthority : Authority} (env : Env)
    (h : s.recoverAccountEvaluator accountToRecover newOwnerAuthority recentOwnerAuthority =
      .ok s') : s.registry.OperationStep env
        (.recoverAccount accountToRecover newOwnerAuthority recentOwnerAuthority)
        s'.registry := by
  simp only [recoverAccountEvaluator, bind_eq_ok] at h
  obtain ⟨_, _, _, _, h⟩ := h
  split at h
  · cases h
  · rename_i request hrequest
    simp only [bind_eq_ok, fcAssert_eq_ok, pure_eq_ok] at h
    obtain ⟨_, hnew, _, hhist, s₁, howner, rfl⟩ := h
    obtain ⟨old, last, hold, hs₁, _⟩ := updateOwnerAuthority_registry howner
    refine ⟨old, last, request, hold, hrequest, hnew, hhist, ?_⟩
    have hmodify := registry_modifyAccount s₁ accountToRecover (f := fun a ↦
      { a with lastAccountRecovery := s₁.dgp.time }) fun _ _ ↦ rfl
    rw [hmodify, hs₁]
    simp only [registry, Registry.replaceOwner, Registry.mk.injEq, true_and, and_true]
    funext name
    rw [Table.find?_erase, Function.update_apply]

theorem changeRecoveryAccountEvaluator_registry
    {accountToRecover newRecoveryAccount : AccountName} (env : Env)
    (h : s.changeRecoveryAccountEvaluator accountToRecover newRecoveryAccount = .ok s') :
    s.registry.OperationStep env (.changeRecoveryAccount accountToRecover newRecoveryAccount)
      s'.registry := by
  simp only [changeRecoveryAccountEvaluator, bind_eq_ok] at h
  obtain ⟨_, _, _, _, h⟩ := h
  split at h
  · simp only [bind_eq_ok, createRow_eq_ok, pure_eq_ok] at h
    obtain ⟨changes, hchanges, rfl⟩ := h
    refine .inr ?_
    simp only [registry, Registry.mk.injEq, true_and, and_true]
    funext name
    rw [Table.find?_emplace? hchanges, Function.update_apply]
  · rename_i change hchange
    split at h
    · cases h
      refine .inr ?_
      simp only [registry, Registry.mk.injEq, true_and, and_true]
      funext name
      rw [Table.find?_modify, Function.update_apply]
      split
      · rename_i hname
        rw [hname, hchange, Option.map_some]
      · rfl
    · cases h
      refine .inl ?_
      simp only [registry, Registry.mk.injEq, true_and, and_true]
      funext name
      rw [Table.find?_erase, Function.update_apply]

theorem accountCreateEvaluator_registry {fee : Asset} {creator : AccountName} {nameSeed : Bytes}
    {owner active : Authority} {memoKey : PublicKey} {jsonMetadata : Bytes}
    (h : s.accountCreateEvaluator ctx fee creator nameSeed owner active memoKey jsonMetadata =
      .ok s') : s.registry.OperationStep ctx.env
        (.accountCreate creator nameSeed owner active memoKey jsonMetadata) s'.registry := by
  simp only [accountCreateEvaluator, bind_eq_ok, createRow_eq_ok] at h
  obtain ⟨_, _, _, _, _, _, _, _, _, _, _, _, excess, _, _, _, _, _, accounts, haccounts,
    authorities, hauthorities, s₁, hfee, h⟩ := h
  have hcreate : { s with accounts := accounts, authorities := authorities }.registry =
      { s.registry with
        owner := Function.update s.registry.owner (ctx.env.makeRandomFixedString nameSeed)
          (some (owner, 0))
        guardians := Function.update s.registry.guardians
          (ctx.env.makeRandomFixedString nameSeed) (some (creator, nullAccount)) } := by
    simp only [registry, Registry.mk.injEq, true_and, and_true]
    constructor
    · funext name
      rw [Table.find?_emplace? hauthorities, Function.update_apply]
      split <;> rfl
    · funext name
      rw [Table.find?_emplace? haccounts, Function.update_apply]
      split <;> rfl
  have hs₁ : s₁.registry =
      { s with accounts := accounts, authorities := authorities }.registry := by
    split at hfee
    · exact (payFee_commerce hfee).registry
    · exact pure_eq_ok.1 hfee ▸ rfl
  have hs' : s'.registry = s₁.registry := by
    split at h
    · simp only [bind_eq_ok] at h
      obtain ⟨s₂, hnew, _, _, hpay⟩ := h
      exact ((adjustBalance_commerce hnew).trans (adjustBalance_commerce hpay)).registry
    · exact pure_eq_ok.1 h ▸ rfl
  refine ⟨?_, ?_, (hs'.trans hs₁).trans hcreate⟩
  · simp [registry, (Table.emplace?_eq_some hauthorities).1]
  · simp [registry, (Table.emplace?_eq_some haccounts).1]

theorem evaluate_registry {fee : Asset} {op : Operation} (h : s.evaluate ctx fee op = .ok s') :
    s.registry.OperationStep ctx.env op s'.registry := by
  cases op with
  | accountCreate _ _ _ _ _ _ => exact accountCreateEvaluator_registry h
  | accountUpdate _ _ _ _ _ => exact accountUpdateEvaluator_registry _ h
  | accountDelete _ => exact accountDeleteEvaluator_registry _ h
  | resetAccount _ _ _ => exact resetAccountEvaluator_registry _ h
  | setResetAccount _ _ _ => exact setResetAccountEvaluator_registry _ h
  | requestAccountRecovery _ _ _ => exact requestAccountRecoveryEvaluator_registry _ h
  | recoverAccount _ _ _ => exact recoverAccountEvaluator_registry _ h
  | changeRecoveryAccount _ _ => exact changeRecoveryAccountEvaluator_registry _ h
  | witnessUpdate _ _ _ _ => exact witnessUpdateEvaluator_registry h
  | adminWitnessUpdate _ _ _ _ => exact adminWitnessUpdateEvaluator_registry h
  | feedPublish _ _ =>
    simp only [evaluate, feedPublishEvaluator, bind_eq_ok, pure_eq_ok] at h
    obtain ⟨_, _, _, _, rfl⟩ := h
    rfl
  | witnessStop _ =>
    simp only [evaluate, witnessStopEvaluator, bind_eq_ok, pure_eq_ok] at h
    obtain ⟨_, _, rfl⟩ := h
    rfl
  | witnessSetProperties _ _ =>
    simp only [evaluate, witnessSetPropertiesEvaluator, bind_eq_ok, pure_eq_ok] at h
    obtain ⟨_, _, _, _, _, _, rfl⟩ := h
    rfl
  | _ => exact (evaluate_commerce h trivial).registry

end Database

end SophiaTX.Chain
