import SophiaTX.Chain.Commerce

/-!
# Quiet steps

Slots, the virtual time of the witnesses and the records of votes are written in a few places
only. Everything else is quiet: votes that are moved around put a witness on time, and all other
rows keep their virtual times.
-/

namespace SophiaTX.Chain

open SophiaTX.Protocol SophiaTX.Lib

/-- Last updated up to the present and scheduled from it on. -/
structure Witness.OnTime (now : ℕ) (w : Witness) : Prop where
  lastUpdate : w.virtualLastUpdate ≤ now
  scheduled : now ≤ w.virtualScheduledTime
  bound : w.virtualScheduledTime ≤ uint128Max

/-- When a witness was last updated and when it is due. -/
def Witness.virtualTimes (w : Witness) : ℕ × ℕ := (w.virtualLastUpdate, w.virtualScheduledTime)

/-- The count of votes an account keeps. -/
def Database.votedFor (s : Database) (name : AccountName) : ℕ :=
  (s.accounts.find? name).elim 0 fun a ↦ a.witnessesVotedFor

/-- Witnesses are put on time or keep their virtual times. -/
structure Paced (s s' : Database) : Prop where
  virtualTime : s'.wso.currentVirtualTime = s.wso.currentVirtualTime
  witnesses : s.wso.currentVirtualTime ≤ uint128Max →
    ∀ name w', s'.witnesses.find? name = some w' → w'.OnTime s.wso.currentVirtualTime ∨
      ∃ w, s.witnesses.find? name = some w ∧ w'.virtualTimes = w.virtualTimes

/-- The records of votes stay as they are. -/
structure SameRecords (s s' : Database) : Prop where
  witnessVotes : s'.witnessVotes = s.witnessVotes
  votedFor : s'.votedFor = s.votedFor

structure Quiet (s s' : Database) : Prop where
  aslot : s'.dgp.currentAslot = s.dgp.currentAslot
  paced : Paced s s'
  records : SameRecords s s'

theorem Witness.OnTime.congr {now : ℕ} {w w' : Witness} (h : w.OnTime now)
    (htimes : w'.virtualTimes = w.virtualTimes) : w'.OnTime now := by
  obtain ⟨hlast, hscheduled⟩ := Prod.mk.inj htimes
  exact ⟨hlast ▸ h.lastUpdate, hscheduled ▸ h.scheduled, hscheduled ▸ h.bound⟩

variable {ctx : Context} {g : GenesisState} {s s₁ s₂ s' : Database}

namespace Paced

theorem of_witnesses (htime : s'.wso.currentVirtualTime = s.wso.currentVirtualTime)
    (h : s.witnesses.AgreeOn Witness.virtualTimes s'.witnesses) : Paced s s' := by
  refine ⟨htime, fun _ name w' hw' ↦ .inr ?_⟩
  exact h.exists_left hw'

theorem trans (h : Paced s s₁) (h' : Paced s₁ s₂) : Paced s s₂ := by
  refine ⟨h'.virtualTime.trans h.virtualTime, fun hmax name w₂ hw₂ ↦ ?_⟩
  have hnow := h.virtualTime
  rcases h'.witnesses (by rw [hnow]; exact hmax) name w₂ hw₂ with honTime | ⟨w₁, hw₁, htimes₁⟩
  · left
    rwa [hnow] at honTime
  · rcases h.witnesses hmax name w₁ hw₁ with honTime | ⟨w, hw, htimes⟩
    · exact .inl (honTime.congr htimes₁)
    · exact .inr ⟨w, hw, htimes₁.trans htimes⟩

end Paced

namespace SameRecords

theorem trans (h : SameRecords s s₁) (h' : SameRecords s₁ s₂) : SameRecords s s₂ :=
  ⟨h'.witnessVotes.trans h.witnessVotes, h'.votedFor.trans h.votedFor⟩

theorem of_accounts (hvotes : s'.witnessVotes = s.witnessVotes)
    (h : s.accounts.AgreeOn (fun a ↦ a.witnessesVotedFor) s'.accounts) : SameRecords s s' := by
  refine ⟨hvotes, funext fun name ↦ ?_⟩
  exact h.elim_eq name 0 id fun _ ↦ rfl

end SameRecords

namespace Quiet

/-- Neither accounts nor witnesses change. -/
theorem of_tables (haslot : s'.dgp.currentAslot = s.dgp.currentAslot)
    (htime : s'.wso.currentVirtualTime = s.wso.currentVirtualTime)
    (haccounts : s'.accounts = s.accounts) (hwitnesses : s'.witnesses = s.witnesses)
    (hvotes : s'.witnessVotes = s.witnessVotes) : Quiet s s' := by
  refine ⟨haslot, .of_witnesses htime ?_, .of_accounts hvotes ?_⟩
  · rw [hwitnesses]
    exact .refl _
  · rw [haccounts]
    exact .refl _

theorem refl (s : Database) : Quiet s s := of_tables rfl rfl rfl rfl rfl

theorem trans (h : Quiet s s₁) (h' : Quiet s₁ s₂) : Quiet s s₂ :=
  ⟨h'.aslot.trans h.aslot, h.paced.trans h'.paced, h.records.trans h'.records⟩

theorem modifyAccount (s : Database) (name : AccountName) {f : Account → Account}
    (hf : ∀ a, s.accounts.find? name = some a → (f a).witnessesVotedFor = a.witnessesVotedFor) :
    Quiet s (s.modifyAccount name f) :=
  ⟨rfl, .of_witnesses rfl (.refl _), .of_accounts rfl (Table.AgreeOn.modify _ _ hf)⟩

theorem modifyWitness (s : Database) (name : AccountName) {f : Witness → Witness}
    (hf : ∀ w, (f w).virtualTimes = w.virtualTimes) : Quiet s (s.modifyWitness name f) :=
  ⟨rfl, .of_witnesses rfl (Table.AgreeOn.modify _ _ fun w _ ↦ hf w), .of_accounts rfl (.refl _)⟩

theorem mapWitnesses (s : Database) {f : AccountName → Witness → Witness}
    (hf : ∀ name w, (f name w).virtualTimes = w.virtualTimes) :
    Quiet s { s with witnesses := s.witnesses.mapRows f } :=
  ⟨rfl, .of_witnesses rfl (Table.AgreeOn.mapRows _ hf), .of_accounts rfl (.refl _)⟩

theorem foldlM {α : Type} {f : Database → α → Exec Database} {l : List α}
    (hf : ∀ s a s', f s a = .ok s' → Quiet s s') (h : l.foldlM f s = .ok s') : Quiet s s' :=
  foldlM_invariant (I := Quiet s) (fun _ _ _ _ hround hs ↦ hs.trans (hf _ _ _ hround)) h
    (.refl s)

end Quiet

/-! ## Votes -/

/-- Changing the votes of a witness puts it on time: a scheduled time that wraps around is put
at the very end. -/
theorem Witness.adjustVote_onTime {now : ℕ} {delta : ShareType} {w w' : Witness}
    (h : w.adjustVote now delta = .ok w') (hmax : now ≤ uint128Max) : w'.OnTime now := by
  simp only [adjustVote, bind_eq_ok, pure_eq_ok] at h
  obtain ⟨votes, _, lap, _, rfl⟩ := h
  have hbound : uint128Add now lap ≤ uint128Max := by
    have hlt : (now + lap) % uint128Size < uint128Size := Nat.mod_lt _ (by decide)
    have hsize : uint128Size = uint128Max + 1 := rfl
    rw [uint128Add]
    omega
  constructor
  · exact le_rfl
  · dsimp only
    split
    · exact hmax
    · rename_i hkept
      exact not_lt.1 hkept
  · dsimp only
    split
    · exact le_rfl
    · exact hbound

namespace Database

theorem adjustWitnessVote_quiet {witness : AccountName} {delta : ShareType}
    (h : s.adjustWitnessVote witness delta = .ok s') : Quiet s s' := by
  simp only [adjustWitnessVote, bind_eq_ok, pure_eq_ok] at h
  obtain ⟨w, _, w', hvote, rfl⟩ := h
  refine ⟨rfl, ⟨rfl, fun hmax name row hrow ↦ ?_⟩, .of_accounts rfl (.refl _)⟩
  rw [modifyWitness, Table.find?_modify] at hrow
  split at hrow
  · obtain ⟨_, _, rfl⟩ := Option.map_eq_some_iff.1 hrow
    exact .inl (Witness.adjustVote_onTime hvote hmax)
  · exact .inr ⟨row, hrow, rfl⟩

theorem adjustWitnessVotes_quiet {account : AccountName} {delta : ShareType}
    (h : s.adjustWitnessVotes account delta = .ok s') : Quiet s s' :=
  .foldlM (fun _ _ _ ↦ adjustWitnessVote_quiet) h

theorem setProxiedVotes_quiet {name : AccountName} {a : Account}
    (ha : s.accounts.find? name = some a) (votes : Fin maxProxyRecursionDepth → ShareType) :
    Quiet s (s.modifyAccount name fun _ ↦ { a with proxiedVsfVotes := votes }) := by
  apply Quiet.modifyAccount
  intro row hrow
  rw [ha] at hrow
  cases hrow
  rfl

theorem adjustProxiedWitnessVotesAt_quiet {delta : ShareType} {remaining : ℕ}
    {account : AccountName} (h : adjustProxiedWitnessVotesAt delta remaining account s = .ok s') :
    Quiet s s' := by
  induction remaining generalizing account s with
  | zero =>
    simp only [adjustProxiedWitnessVotesAt, bind_eq_ok] at h
    obtain ⟨a, _, h⟩ := h
    split at h
    · exact pure_eq_ok.1 h ▸ .refl s
    · exact adjustWitnessVotes_quiet h
  | succ remaining ih =>
    simp only [adjustProxiedWitnessVotesAt, getAccount, bind_eq_ok, orUnknownKey_eq_ok] at h
    obtain ⟨a, _, h⟩ := h
    split at h
    · simp only [bind_eq_ok, orUnknownKey_eq_ok] at h
      obtain ⟨proxy, hproxy, vote, _, h⟩ := h
      exact (setProxiedVotes_quiet hproxy _).trans (ih h)
    · exact adjustWitnessVotes_quiet h

theorem adjustProxiedWitnessVotes_quiet {account : AccountName} {delta : ShareType}
    (h : s.adjustProxiedWitnessVotes account delta = .ok s') : Quiet s s' :=
  adjustProxiedWitnessVotesAt_quiet h

theorem adjustProxiedWitnessVotesArray_quiet {delta : VoteDeltas} {remaining : ℕ}
    {account : AccountName}
    (h : adjustProxiedWitnessVotesArray delta remaining account s = .ok s') : Quiet s s' := by
  induction remaining generalizing account s with
  | zero =>
    simp only [adjustProxiedWitnessVotesArray, bind_eq_ok] at h
    obtain ⟨a, _, h⟩ := h
    split at h
    · exact pure_eq_ok.1 h ▸ .refl s
    · simp only [bind_eq_ok] at h
      obtain ⟨total, _, h⟩ := h
      exact adjustWitnessVotes_quiet h
  | succ remaining ih =>
    simp only [adjustProxiedWitnessVotesArray, getAccount, bind_eq_ok, orUnknownKey_eq_ok] at h
    obtain ⟨a, _, h⟩ := h
    split at h
    · simp only [bind_eq_ok, orUnknownKey_eq_ok] at h
      obtain ⟨proxy, hproxy, votes, _, h⟩ := h
      exact (setProxiedVotes_quiet hproxy _).trans (ih h)
    · simp only [bind_eq_ok] at h
      obtain ⟨total, _, h⟩ := h
      exact adjustWitnessVotes_quiet h

/-! ## Payments -/

theorem adjustBalance_quiet {account : AccountName} {delta : Asset}
    (h : s.adjustBalance g account delta = .ok s') : Quiet s s' := by
  obtain ⟨_, a, ha, _, hvotes⟩ := adjustBalance_eq_ok h
  refine .trans (.modifyAccount s account fun row hrow ↦ ?_)
    (adjustProxiedWitnessVotes_quiet hvotes)
  rw [ha] at hrow
  cases hrow
  rfl

theorem createVesting_quiet {account : AccountName} {delta : Asset}
    (h : s.createVesting account delta = .ok s') : Quiet s s' := by
  obtain ⟨_, _, a, ha, hvotes⟩ := createVesting_eq_ok h
  refine .trans (.modifyAccount s account fun row hrow ↦ ?_)
    (adjustProxiedWitnessVotes_quiet hvotes)
  rw [ha] at hrow
  cases hrow
  rfl

theorem adjustSupply_quiet {delta : Asset} (h : s.adjustSupply g delta = .ok s') :
    Quiet s s' := by
  obtain ⟨_, _, rfl⟩ := adjustSupply_eq_ok h
  exact .of_tables rfl rfl rfl rfl rfl

theorem vest_quiet {account : AccountName} {delta : ShareType}
    (h : s.vest account delta = .ok s') : Quiet s s' := by
  obtain ⟨a, ha, _, rfl⟩ := vest_eq_ok h
  have hshares : Quiet s { s with dgp := { s.dgp with
    totalVestingShares := s.dgp.totalVestingShares + delta } } := .of_tables rfl rfl rfl rfl rfl
  refine hshares.trans (.modifyAccount _ account fun row hrow ↦ ?_)
  rw [ha] at hrow
  cases hrow
  rfl

theorem payFee_quiet {account : AccountName} {fee : Asset}
    (h : s.payFee g account fee = .ok s') : Quiet s s' := by
  simp only [payFee, bind_eq_ok] at h
  obtain ⟨_, _, h⟩ := h
  split at h
  · exact pure_eq_ok.1 h ▸ .refl _
  · simp only [bind_eq_ok, pure_eq_ok] at h
    obtain ⟨_, _, _, _, _, _, _, _, s₁, hbalance, s₂, hsupply, _, _, rfl⟩ := h
    have hs₂ := (adjustBalance_quiet hbalance).trans (adjustSupply_quiet hsupply)
    exact hs₂.trans (.of_tables rfl rfl rfl rfl rfl)

theorem processOperationFee_quiet {op : FeeOperation}
    (h : s.processOperationFee g op = .ok s') : Quiet s s' := by
  unfold processOperationFee at h
  split at h
  · exact pure_eq_ok.1 h ▸ .refl _
  · simp only [bind_eq_ok] at h
    obtain ⟨_, _, _, _, _, _, _, _, _, _, _, _, hpay⟩ := h
    exact payFee_quiet hpay

/-! ## Evaluators -/

theorem refundEscrow_quiet {key : AccountName × ℕ} {e : Escrow}
    (h : s.refundEscrow g key e = .ok s') : Quiet s s' := by
  simp only [refundEscrow, bind_eq_ok, pure_eq_ok] at h
  obtain ⟨s₁, hamount, s₂, hfee, rfl⟩ := h
  have hs₂ := (adjustBalance_quiet hamount).trans (adjustBalance_quiet hfee)
  exact hs₂.trans (.of_tables rfl rfl rfl rfl rfl)

theorem createWitness_quiet {owner : AccountName} {url : Bytes} {key : PublicKey}
    {props : ChainProperties} (h : s.createWitness g owner url key props = .ok s') :
    Quiet s s' := by
  simp only [createWitness, bind_eq_ok, createRow_eq_ok, pure_eq_ok] at h
  obtain ⟨witnesses, hcreate, rfl⟩ := h
  refine ⟨rfl, ⟨rfl, fun hmax name w hw ↦ ?_⟩, .of_accounts rfl (.refl _)⟩
  rw [Table.find?_emplace? hcreate] at hw
  split at hw
  · cases hw
    exact .inl ⟨Nat.zero_le _, hmax, le_rfl⟩
  · exact .inr ⟨w, hw, rfl⟩

theorem updateOwnerAuthority_quiet {account : AccountName} {owner : Authority}
    (h : s.updateOwnerAuthority account owner = .ok s') : Quiet s s' := by
  simp only [updateOwnerAuthority, bind_eq_ok, pure_eq_ok] at h
  obtain ⟨_, _, rfl⟩ := h
  exact .of_tables rfl rfl rfl rfl rfl

theorem createAccount_quiet {name : AccountName} {a : Account}
    {accounts : Table AccountName Account}
    {authorities : Table AccountName AccountAuthority} (ha : a.witnessesVotedFor = 0)
    (hcreate : s.accounts.emplace? name a = some accounts) :
    Quiet s { s with accounts := accounts, authorities := authorities } := by
  refine ⟨rfl, .of_witnesses rfl (.refl _), rfl, funext fun other ↦ ?_⟩
  obtain ⟨hfresh, _⟩ := Table.emplace?_eq_some hcreate
  unfold votedFor
  dsimp only
  rw [Table.find?_emplace? hcreate]
  split
  · rename_i hother
    rw [hother, hfresh]
    exact ha
  · rfl

theorem accountCreateEvaluator_quiet {fee : Asset} {creator : AccountName} {nameSeed : Bytes}
    {owner active : Authority} {memoKey : PublicKey} {jsonMetadata : Bytes}
    (h : s.accountCreateEvaluator ctx fee creator nameSeed owner active memoKey jsonMetadata =
      .ok s') : Quiet s s' := by
  simp only [accountCreateEvaluator, bind_eq_ok, createRow_eq_ok] at h
  obtain ⟨_, _, _, _, _, _, _, _, _, _, _, _, excess, _, _, _, _, _, accounts, haccounts,
    authorities, _, s₁, hfee, h⟩ := h
  have hcreate : Quiet s { s with accounts := accounts, authorities := authorities } :=
    createAccount_quiet rfl haccounts
  have hs₁ : Quiet s s₁ := by
    split at hfee
    · exact hcreate.trans (payFee_quiet hfee)
    · exact pure_eq_ok.1 hfee ▸ hcreate
  split at h
  · simp only [bind_eq_ok] at h
    obtain ⟨s₂, hnew, _, _, hpay⟩ := h
    exact hs₁.trans ((adjustBalance_quiet hnew).trans (adjustBalance_quiet hpay))
  · exact pure_eq_ok.1 h ▸ hs₁

theorem accountUpdateEvaluator_quiet {account : AccountName} {owner active : Option Authority}
    {memoKey : PublicKey} {jsonMetadata : Bytes}
    (h : s.accountUpdateEvaluator account owner active memoKey jsonMetadata = .ok s') :
    Quiet s s' := by
  simp only [accountUpdateEvaluator, bind_eq_ok, pure_eq_ok] at h
  obtain ⟨_, _, _, _, auth, _, s₁, howner, _, _, rfl⟩ := h
  have hs₁ : Quiet s s₁ := by
    cases owner with
    | none => exact pure_eq_ok.1 howner ▸ .refl s
    | some owner =>
      simp only [updateOwner, bind_eq_ok] at howner
      obtain ⟨_, _, _, _, howner⟩ := howner
      exact updateOwnerAuthority_quiet howner
  have haccount : Quiet s₁ (s₁.modifyAccount account fun a ↦ { a with
      memoKey := if memoKey ≠ nullKey then memoKey else a.memoKey
      lastAccountUpdate := s₁.dgp.time
      jsonMetadata := if jsonMetadata.length > 0 then jsonMetadata else a.jsonMetadata }) :=
    .modifyAccount _ _ fun _ _ ↦ rfl
  refine hs₁.trans (haccount.trans ?_)
  cases active <;> exact .of_tables rfl rfl rfl rfl rfl

theorem witnessUpdateEvaluator_quiet {owner : AccountName} {url : Bytes}
    {blockSigningKey : PublicKey} {props : ChainProperties}
    (h : s.witnessUpdateEvaluator ctx owner url blockSigningKey props = .ok s') :
    Quiet s s' := by
  simp only [witnessUpdateEvaluator] at h
  split at h
  · simp only [bind_eq_ok, pure_eq_ok] at h
    obtain ⟨_, _, rfl⟩ := h
    exact .modifyWitness _ _ fun _ ↦ rfl
  · simp only [bind_eq_ok] at h
    obtain ⟨_, _, _, _, _, _, h⟩ := h
    split at h
    · cases h
      exact .modifyWitness _ _ fun _ ↦ rfl
    · exact createWitness_quiet h

theorem evaluate_quiet {fee : Asset} {op : Operation} (h : s.evaluate ctx fee op = .ok s')
    (hvote : ∀ account witness approve, op ≠ .accountWitnessVote account witness approve)
    (hproxy : ∀ account proxy, op ≠ .accountWitnessProxy account proxy) : Quiet s s' := by
  cases op with
  | accountWitnessVote account witness approve => exact absurd rfl (hvote account witness approve)
  | accountWitnessProxy account proxy => exact absurd rfl (hproxy account proxy)
  | transfer _ _ _ _ =>
    simp only [evaluate, transferEvaluator, bind_eq_ok] at h
    obtain ⟨_, _, _, _, _, _, _, _, _, _, s₁, hpay, hreceive⟩ := h
    exact (adjustBalance_quiet hpay).trans (adjustBalance_quiet hreceive)
  | transferToVesting _ _ _ =>
    simp only [evaluate, transferToVestingEvaluator, bind_eq_ok] at h
    obtain ⟨_, _, _, _, _, _, _, _, _, _, h⟩ := h
    split at h
    · exact vest_quiet h
    · simp only [bind_eq_ok] at h
      obtain ⟨_, _, s₁, hpay, s₂, hreceive, hvest⟩ := h
      exact ((adjustBalance_quiet hpay).trans (adjustBalance_quiet hreceive)).trans
        (vest_quiet hvest)
  | withdrawVesting _ _ =>
    obtain ⟨_, a, rate, next, _, _, _, _, rfl⟩ := withdrawVestingEvaluator_eq_ok h
    exact .modifyAccount _ _ fun _ _ ↦ rfl
  | escrowTransfer _ _ _ _ _ _ _ _ _ =>
    simp only [evaluate, escrowTransferEvaluator, bind_eq_ok, pure_eq_ok] at h
    obtain ⟨_, _, _, _, _, _, _, _, _, _, _, _, _, _, _, _, _, _, _, _, s₁, hpay, _, _, rfl⟩ := h
    exact (adjustBalance_quiet hpay).trans (.of_tables rfl rfl rfl rfl rfl)
  | escrowApprove _ _ _ _ _ _ =>
    simp only [evaluate, escrowApproveEvaluator, bind_eq_ok] at h
    obtain ⟨_, _, _, _, _, _, _, _, _, _, _, _, _, _, h⟩ := h
    split at h
    · exact refundEscrow_quiet h
    · split at h
      · simp only [bind_eq_ok, pure_eq_ok] at h
        obtain ⟨s₁, hpay, rfl⟩ := h
        exact (adjustBalance_quiet hpay).trans (.of_tables rfl rfl rfl rfl rfl)
      · cases h
        exact .of_tables rfl rfl rfl rfl rfl
  | escrowDispute _ _ _ _ _ =>
    simp only [evaluate, escrowDisputeEvaluator, bind_eq_ok, pure_eq_ok] at h
    obtain ⟨_, _, _, _, _, _, _, _, _, _, _, _, _, _, _, _, rfl⟩ := h
    exact .of_tables rfl rfl rfl rfl rfl
  | escrowRelease _ _ _ _ _ _ _ =>
    simp only [evaluate, escrowReleaseEvaluator, bind_eq_ok] at h
    obtain ⟨_, _, _, _, _, _, _, _, _, _, _, _, _, _, _, _, _, _, _, _, s₁, hpay, _, _, h⟩ := h
    refine (adjustBalance_quiet hpay).trans ?_
    split at h <;> cases h <;> exact .of_tables rfl rfl rfl rfl rfl
  | transferFromPromotionPool _ _ =>
    simp only [evaluate, transferFromPromotionPoolEvaluator, bind_eq_ok, Prod.exists] at h
    obtain ⟨_, _, _, _, _, _, economics, _, _, s₁, hpay, hsupply⟩ := h
    have hpools : Quiet s { s with economics := economics } := .of_tables rfl rfl rfl rfl rfl
    exact (hpools.trans (adjustBalance_quiet hpay)).trans (adjustSupply_quiet hsupply)
  | sponsorFees _ _ _ =>
    simp only [evaluate, sponsorFeesEvaluator, bind_eq_ok] at h
    obtain ⟨_, _, h⟩ := h
    split at h
    · simp only [bind_eq_ok, pure_eq_ok] at h
      obtain ⟨_, _, rfl⟩ := h
      exact .of_tables rfl rfl rfl rfl rfl
    · simp only [bind_eq_ok] at h
      obtain ⟨_, _, _, _, h⟩ := h
      split at h
      · simp only [bind_eq_ok, pure_eq_ok] at h
        obtain ⟨_, _, _, _, rfl⟩ := h
        exact .of_tables rfl rfl rfl rfl rfl
      · simp only [bind_eq_ok, pure_eq_ok] at h
        obtain ⟨_, _, rfl⟩ := h
        exact .of_tables rfl rfl rfl rfl rfl
  | accountCreate _ _ _ _ _ _ => exact accountCreateEvaluator_quiet h
  | accountUpdate _ _ _ _ _ => exact accountUpdateEvaluator_quiet h
  | accountDelete account =>
    simp only [evaluate, accountDeleteEvaluator, bind_eq_ok, pure_eq_ok] at h
    obtain ⟨_, _, _, _, _, _, _, _, s₁, howner, rfl⟩ := h
    have haccount : Quiet s₁ (s₁.modifyAccount account fun a ↦ { a with
        memoKey := nullKey
        lastAccountUpdate := s₁.dgp.time
        jsonMetadata := deletedAccountMetadata }) := .modifyAccount _ _ fun _ _ ↦ rfl
    exact ((updateOwnerAuthority_quiet howner).trans haccount).trans
      (.of_tables rfl rfl rfl rfl rfl)
  | resetAccount _ _ _ =>
    simp only [evaluate, resetAccountEvaluator, bind_eq_ok] at h
    obtain ⟨_, _, _, _, howner⟩ := h
    exact updateOwnerAuthority_quiet howner
  | setResetAccount _ _ _ =>
    simp only [evaluate, setResetAccountEvaluator, bind_eq_ok, pure_eq_ok] at h
    obtain ⟨_, _, _, _, _, _, _, _, rfl⟩ := h
    exact .modifyAccount _ _ fun _ _ ↦ rfl
  | recoverAccount accountToRecover _ _ =>
    simp only [evaluate, recoverAccountEvaluator, bind_eq_ok] at h
    obtain ⟨_, _, _, _, h⟩ := h
    split at h
    · cases h
    · simp only [bind_eq_ok, pure_eq_ok] at h
      obtain ⟨_, _, _, _, s₁, howner, rfl⟩ := h
      have hrequest : Quiet s { s with
        recoveryRequests := s.recoveryRequests.erase accountToRecover } :=
          .of_tables rfl rfl rfl rfl rfl
      exact (hrequest.trans (updateOwnerAuthority_quiet howner)).trans
        (.modifyAccount _ _ fun _ _ ↦ rfl)
  | requestAccountRecovery _ _ _ =>
    simp only [evaluate, requestAccountRecoveryEvaluator, bind_eq_ok] at h
    obtain ⟨_, _, _, _, h⟩ := h
    split at h
    · simp only [bind_eq_ok, pure_eq_ok] at h
      obtain ⟨_, _, _, _, _, _, _, _, rfl⟩ := h
      exact .of_tables rfl rfl rfl rfl rfl
    · split at h
      · cases h
        exact .of_tables rfl rfl rfl rfl rfl
      · simp only [bind_eq_ok, pure_eq_ok] at h
        obtain ⟨_, _, _, _, rfl⟩ := h
        exact .of_tables rfl rfl rfl rfl rfl
  | changeRecoveryAccount _ _ =>
    simp only [evaluate, changeRecoveryAccountEvaluator, bind_eq_ok] at h
    obtain ⟨_, _, _, _, h⟩ := h
    split at h
    · simp only [bind_eq_ok, pure_eq_ok] at h
      obtain ⟨_, _, rfl⟩ := h
      exact .of_tables rfl rfl rfl rfl rfl
    · split at h <;> cases h <;> exact .of_tables rfl rfl rfl rfl rfl
  | witnessUpdate _ _ _ _ => exact witnessUpdateEvaluator_quiet h
  | adminWitnessUpdate _ _ _ _ =>
    simp only [evaluate, adminWitnessUpdateEvaluator, bind_eq_ok] at h
    obtain ⟨_, _, h⟩ := h
    split at h
    · exact createWitness_quiet h
    · cases h
      exact .modifyWitness _ _ fun _ ↦ rfl
  | witnessStop _ =>
    simp only [evaluate, witnessStopEvaluator, bind_eq_ok, pure_eq_ok] at h
    obtain ⟨_, _, rfl⟩ := h
    exact .modifyWitness _ _ fun _ ↦ rfl
  | witnessSetProperties _ _ =>
    simp only [evaluate, witnessSetPropertiesEvaluator, bind_eq_ok, pure_eq_ok] at h
    obtain ⟨_, _, _, _, _, _, rfl⟩ := h
    exact .modifyWitness _ _ fun _ ↦ rfl
  | feedPublish _ _ =>
    simp only [evaluate, feedPublishEvaluator, bind_eq_ok, pure_eq_ok] at h
    obtain ⟨_, _, _, _, rfl⟩ := h
    exact .modifyWitness _ _ fun _ ↦ rfl
  | custom _ _ _ _ => exact pure_eq_ok.1 h ▸ .refl _
  | customJson _ _ _ _ | customBinary _ _ _ _ =>
    cases h
    exact .of_tables rfl rfl rfl rfl rfl
  | applicationCreate _ _ _ _ _ =>
    simp only [evaluate, applicationCreateEvaluator, bind_eq_ok, pure_eq_ok] at h
    obtain ⟨_, _, _, _, rfl⟩ := h
    exact .of_tables rfl rfl rfl rfl rfl
  | applicationUpdate _ _ _ _ _ _ =>
    simp only [evaluate, applicationUpdateEvaluator, bind_eq_ok, pure_eq_ok] at h
    obtain ⟨_, _, _, _, _, _, rfl⟩ := h
    exact .of_tables rfl rfl rfl rfl rfl
  | applicationDelete _ _ =>
    simp only [evaluate, applicationDeleteEvaluator, bind_eq_ok, pure_eq_ok] at h
    obtain ⟨_, _, _, _, rfl⟩ := h
    exact .of_tables rfl rfl rfl rfl rfl
  | buyApplication _ _ =>
    simp only [evaluate, buyApplicationEvaluator, bind_eq_ok, pure_eq_ok] at h
    obtain ⟨_, _, _, _, _, _, _, _, rfl⟩ := h
    exact .of_tables rfl rfl rfl rfl rfl
  | cancelApplicationBuying _ _ _ =>
    simp only [evaluate, cancelApplicationBuyingEvaluator, bind_eq_ok, pure_eq_ok] at h
    obtain ⟨_, _, _, _, _, _, _, _, rfl⟩ := h
    exact .of_tables rfl rfl rfl rfl rfl
  | virtual => cases h

/-! ## Ballots -/

theorem accountWitnessVoteEvaluator_paced {account witness : AccountName} {approve : Bool}
    (h : s.accountWitnessVoteEvaluator g account witness approve = .ok s') : Paced s s' := by
  simp only [accountWitnessVoteEvaluator, bind_eq_ok] at h
  obtain ⟨_, _, voter, _, _, _, _, _, h⟩ := h
  split at h
  · simp only [bind_eq_ok, pure_eq_ok] at h
    obtain ⟨_, _, _, _, votes, _, weight, _, s₁, hvote, rfl⟩ := h
    have hs₁ := (adjustWitnessVote_quiet hvote).paced
    exact ⟨hs₁.virtualTime, hs₁.witnesses⟩
  · simp only [bind_eq_ok, pure_eq_ok] at h
    obtain ⟨_, _, weight, _, _, _, s₁, hvote, rfl⟩ := h
    have hs₁ := (adjustWitnessVote_quiet hvote).paced
    exact ⟨hs₁.virtualTime, hs₁.witnesses⟩

theorem accountWitnessProxyEvaluator_paced {account proxy : AccountName}
    (h : s.accountWitnessProxyEvaluator account proxy = .ok s') : Paced s s' := by
  simp only [accountWitnessProxyEvaluator, bind_eq_ok] at h
  obtain ⟨_, _, a, _, _, _, delta, _, s₁, hremove, h⟩ := h
  have hs₁ := (adjustProxiedWitnessVotesArray_quiet hremove).paced
  split at h
  · simp only [bind_eq_ok] at h
    obtain ⟨_, _, _, _, _, _, hadd⟩ := h
    have hadded := (adjustProxiedWitnessVotesArray_quiet hadd).paced
    exact hs₁.trans ⟨hadded.virtualTime, hadded.witnesses⟩
  · cases h
    exact ⟨hs₁.virtualTime, hs₁.witnesses⟩

/-- Whatever an operation does, slots stay where they are and witnesses on time. -/
theorem applyOperation_paced {op : FeeOperation} (h : s.applyOperation ctx op = .ok s') :
    s'.dgp.currentAslot = s.dgp.currentAslot ∧ Paced s s' := by
  simp only [applyOperation, bind_eq_ok] at h
  obtain ⟨s₁, hfee, heval⟩ := h
  have hs₁ := processOperationFee_quiet hfee
  have heffect : s'.dgp.currentAslot = s₁.dgp.currentAslot ∧ Paced s₁ s' := by
    cases hop : op.op with
    | accountWitnessVote account witness approve =>
      rw [hop] at heval
      have hrest := (accountWitnessVoteEvaluator_commerce heval).rest
      exact ⟨congrArg (fun t ↦ t.dgp.currentAslot) hrest, accountWitnessVoteEvaluator_paced heval⟩
    | accountWitnessProxy account proxy =>
      rw [hop] at heval
      have hrest := (accountWitnessProxyEvaluator_commerce heval).rest
      exact ⟨congrArg (fun t ↦ t.dgp.currentAslot) hrest, accountWitnessProxyEvaluator_paced heval⟩
    | _ =>
      have hquiet := evaluate_quiet heval (by simp [hop]) (by simp [hop])
      exact ⟨hquiet.aslot, hquiet.paced⟩
  exact ⟨heffect.1.trans hs₁.aslot, hs₁.paced.trans heffect.2⟩

/-! ## Hardforks and the block header -/

theorem applyHardfork_quiet {hardfork : ℕ} (h : s.applyHardfork g hardfork = .ok s') :
    Quiet s s' := by
  simp only [applyHardfork, bind_eq_ok, pure_eq_ok] at h
  obtain ⟨s₁, hvotes, _, _, _, _, rfl⟩ := h
  have hs₁ : Quiet s s₁ := by
    split at hvotes
    · have hclear : Quiet s s.clearVotes := .mapWitnesses s fun _ _ ↦ rfl
      refine hclear.trans (.foldlM (fun s₂ name s₃ hround ↦ ?_) hvotes)
      simp only [bind_eq_ok] at hround
      obtain ⟨_, _, _, _, hadjust⟩ := hround
      exact adjustProxiedWitnessVotes_quiet hadjust
    · exact pure_eq_ok.1 hvotes ▸ .refl s
  exact hs₁.trans (.of_tables rfl rfl rfl rfl rfl)

theorem setHardfork_quiet {hardfork : ℕ} (h : s.setHardfork g hardfork = .ok s') :
    Quiet s s' := by
  refine .foldlM (fun s₁ i s₂ hround ↦ ?_) h
  have hnext : Quiet s₁ { s₁ with hardforks := { s₁.hardforks with
      nextHardfork := hardforkVersions i
      nextHardforkTime := s₁.dgp.time } } := .of_tables rfl rfl rfl rfl rfl
  exact hnext.trans (applyHardfork_quiet hround)

theorem processHardforksLoop_quiet {rounds : ℕ} (h : processHardforksLoop g rounds s = .ok s') :
    Quiet s s' := by
  induction rounds generalizing s with
  | zero => exact pure_eq_ok.1 h ▸ .refl s
  | succ rounds ih =>
    unfold processHardforksLoop at h
    split at h
    · split at h
      · simp only [bind_eq_ok] at h
        obtain ⟨s₁, hfork, h⟩ := h
        exact (applyHardfork_quiet hfork).trans (ih h)
      · cases h
    · exact pure_eq_ok.1 h ▸ .refl s

theorem openBlock_quiet {b : SignedBlock} (h : s.openBlock ctx b = .ok s') : Quiet s s' := by
  simp only [openBlock, bind_eq_ok, pure_eq_ok] at h
  obtain ⟨s₁, hforks, _, _, _, _, _, _, s₂, hextensions, _, _, _, _, rfl⟩ := h
  have hs₁ : Quiet s s₁ := by
    simp only [applyGenesisHardforks] at hforks
    split at hforks
    · simp only [bind_eq_ok, pure_eq_ok] at hforks
      obtain ⟨s₃, hfork, _, _, rfl⟩ := hforks
      exact (setHardfork_quiet hfork).trans (.mapWitnesses _ fun _ _ ↦ rfl)
    · exact pure_eq_ok.1 hforks ▸ .refl s
  have hwitness : Quiet s₁ { s₁ with dgp := { s₁.dgp with currentWitness := b.witness } } :=
    .of_tables rfl rfl rfl rfl rfl
  refine (hs₁.trans hwitness).trans (.foldlM (fun s₃ extension s₄ hround ↦ ?_) hextensions)
  cases extension with
  | void => exact pure_eq_ok.1 hround ▸ .refl _
  | version _ | hardforkVersionVote _ _ =>
    simp only [processHeaderExtension, bind_eq_ok, pure_eq_ok] at hround
    obtain ⟨_, _, rfl⟩ := hround
    exact .modifyWitness _ _ fun _ ↦ rfl

/-! ## After the transactions -/

theorem missSlot_quiet {producer : AccountName} {slot : ℕ}
    (h : missSlot g producer s slot = .ok s') : Quiet s s' := by
  simp only [missSlot, bind_eq_ok] at h
  obtain ⟨_, _, _, _, h⟩ := h
  split at h
  · cases h
    exact .modifyWitness _ _ fun _ ↦ rfl
  · exact pure_eq_ok.1 h ▸ .refl s

theorem closeTransaction_quiet {trx : Transaction} (h : s.closeTransaction ctx trx = .ok s') :
    Quiet s s' := by
  simp only [closeTransaction] at h
  split at h
  · refine .foldlM (fun s₁ account s₂ hround ↦ ?_) h
    simp only [updateAccountBandwidth, bind_eq_ok, pure_eq_ok] at hround
    obtain ⟨_, _, _, _, _, _, rfl⟩ := hround
    exact .of_tables rfl rfl rfl rfl rfl
  · exact pure_eq_ok.1 h ▸ .refl s

theorem updateMedianFeeds_quiet (h : s.updateMedianFeeds g = .ok s') : Quiet s s' := by
  unfold updateMedianFeeds at h
  split at h
  · cases h
  · split at h
    · exact pure_eq_ok.1 h ▸ .refl s
    · simp only [bind_eq_ok] at h
      obtain ⟨feeds, _, h⟩ := h
      refine .foldlM (fun s₁ symbol s₂ hround ↦ ?_) h
      simp only [updateMedianFeed] at hround
      split at hround
      · simp only [bind_eq_ok, pure_eq_ok] at hround
        obtain ⟨_, _, _, _, rfl⟩ := hround
        exact .of_tables rfl rfl rfl rfl rfl
      · exact pure_eq_ok.1 hround ▸ .refl _

theorem payInterests_quiet {rounds id : ℕ} {supplyIncrease total : ShareType}
    (h : payInterests g rounds id s supplyIncrease = .ok (s', total)) : Quiet s s' := by
  induction rounds generalizing id s supplyIncrease with
  | zero =>
    cases h
    exact .refl _
  | succ rounds ih =>
    unfold payInterests at h
    split at h
    · cases h
      exact .refl _
    · simp only [bind_eq_ok, Prod.exists] at h
      obtain ⟨s₁, interest, hpay, _, _, h⟩ := h
      refine Quiet.trans ?_ (ih h)
      obtain ⟨economics, s₂, a₂, _, hvotes, _, rfl⟩ := payInterest_eq_ok hpay
      have hpools : Quiet s { s with economics := economics } := .of_tables rfl rfl rfl rfl rfl
      have hs₂ : Quiet s s₂ := by
        split at hvotes
        · exact hpools.trans (adjustProxiedWitnessVotes_quiet hvotes)
        · exact pure_eq_ok.1 hvotes ▸ hpools
      exact hs₂.trans (.modifyAccount _ _ fun _ _ ↦ rfl)

theorem clearNullAccountBalance_quiet (h : s.clearNullAccountBalance g = .ok s') :
    Quiet s s' := by
  simp only [clearNullAccountBalance, bind_eq_ok, Prod.exists] at h
  obtain ⟨a, _, s₁, liquid, hliquid, s₂, total, hvesting, h⟩ := h
  have hs₁ : Quiet s s₁ := by
    unfold clearNullLiquid at hliquid
    split at hliquid
    · simp only [bind_eq_ok, pure_eq_ok, Prod.mk.injEq] at hliquid
      obtain ⟨_, _, s₃, hbalance, rfl, _⟩ := hliquid
      exact adjustBalance_quiet hbalance
    · cases hliquid
      exact .refl s
  have hs₂ : Quiet s₁ s₂ := by
    unfold clearNullVesting at hvesting
    split at hvesting
    · simp only [bind_eq_ok, pure_eq_ok, Prod.mk.injEq] at hvesting
      obtain ⟨shares, _, _, _, rfl, _⟩ := hvesting
      have hshares : Quiet s₁ { s₁ with
        dgp := { s₁.dgp with totalVestingShares := shares } } := .of_tables rfl rfl rfl rfl rfl
      exact hshares.trans (.modifyAccount _ _ fun _ _ ↦ rfl)
    · cases hvesting
      exact .refl s₁
  have hs' : Quiet s₂ s' := by
    split at h
    · simp only [bind_eq_ok] at h
      obtain ⟨_, _, hsupply⟩ := h
      exact adjustSupply_quiet hsupply
    · exact pure_eq_ok.1 h ▸ .refl _
  exact (hs₁.trans hs₂).trans hs'

theorem processFunds_quiet {blockNum : ℕ} (h : s.processFunds g blockNum = .ok s') :
    Quiet s s' := by
  simp only [processFunds, bind_eq_ok, Prod.exists, pure_eq_ok] at h
  obtain ⟨w, _, economics, reward, _, s₁, hvesting, _, _, _, _, rfl⟩ := h
  have hpools : Quiet s { s with economics := economics } := .of_tables rfl rfl rfl rfl rfl
  exact (hpools.trans (createVesting_quiet hvesting)).trans (.of_tables rfl rfl rfl rfl rfl)

theorem processVestingWithdrawal_quiet {name : AccountName} {a : Account}
    (ha : s.accounts.find? name = some a) (h : s.processVestingWithdrawal name a = .ok s') :
    Quiet s s' := by
  obtain ⟨toWithdraw, _, _, _, _, rfl⟩ := processVestingWithdrawal_eq_ok h
  have hshares : Quiet s { s with dgp := { s.dgp with
    totalVestingShares := s.dgp.totalVestingShares - toWithdraw } } :=
      .of_tables rfl rfl rfl rfl rfl
  refine hshares.trans (.modifyAccount _ _ fun row hrow ↦ ?_)
  rw [show s.accounts.find? name = some row from hrow, Option.some.injEq] at ha
  rw [ha]

theorem accountRecoveryProcessing_quiet (h : s.accountRecoveryProcessing = .ok s') :
    Quiet s s' := by
  simp only [accountRecoveryProcessing] at h
  refine foldlM_invariant (I := Quiet s) (fun s₁ entry s₂ _ hround hs₁ ↦ ?_) h
    (.of_tables rfl rfl rfl rfl rfl)
  simp only [applyRecoveryChange, bind_eq_ok, pure_eq_ok] at hround
  obtain ⟨_, _, rfl⟩ := hround
  have haccount : Quiet s₁ (s₁.modifyAccount entry.1 fun a ↦
    { a with recoveryAccount := entry.2.recoveryAccount }) := .modifyAccount _ _ fun _ _ ↦ rfl
  exact hs₁.trans (haccount.trans (.of_tables rfl rfl rfl rfl rfl))

end Database

/-! ## All stages -/

theorem onPublicNet_quiet {step : Database → Exec Database} (h : onPublicNet s step = .ok s')
    (hstep : step s = .ok s' → Quiet s s') : Quiet s s' := by
  unfold onPublicNet at h
  split at h
  · exact pure_eq_ok.1 h ▸ .refl s
  · exact hstep h

/-- Stages that may write to slots, virtual time or the records of votes. -/
def Stage.WritesRecords : Stage → Prop
  | .operation _ op => (∃ account witness approve,
      op.op = .accountWitnessVote account witness approve) ∨
    ∃ account proxy, op.op = .accountWitnessProxy account proxy
  | .updateGlobalDynamicData _ | .updateWitnessSchedule => True
  | _ => False

theorem Stage.quiet {stage : Stage} (h : stage.run ctx s = .ok s')
    (hstage : ¬ stage.WritesRecords) :
    Quiet s s' := by
  cases stage with
  | openBlock b => exact Database.openBlock_quiet h
  | openTransaction trx =>
    simp only [run, Database.openTransaction, bind_eq_ok] at h
    obtain ⟨_, _, _, _, _, _, _, _, h⟩ := h
    split at h
    · simp only [bind_eq_ok, pure_eq_ok] at h
      obtain ⟨_, _, rfl⟩ := h
      exact .of_tables rfl rfl rfl rfl rfl
    · exact pure_eq_ok.1 h ▸ .refl s
  | operation trx op =>
    simp only [run, Database.applyOperation, bind_eq_ok] at h
    obtain ⟨s₁, hfee, heval⟩ := h
    refine (Database.processOperationFee_quiet hfee).trans (Database.evaluate_quiet heval ?_ ?_)
    · intro account witness approve hop
      exact hstage (.inl ⟨account, witness, approve, hop⟩)
    · intro account proxy hop
      exact hstage (.inr ⟨account, proxy, hop⟩)
  | closeTransaction trx => exact Database.closeTransaction_quiet h
  | updateGlobalDynamicData b => exact absurd trivial hstage
  | updateSigningWitness b =>
    simp only [run, Database.updateSigningWitness, bind_eq_ok, pure_eq_ok] at h
    obtain ⟨_, _, rfl⟩ := h
    exact .modifyWitness _ _ fun _ ↦ rfl
  | updateLastIrreversibleBlock =>
    simp only [run, Database.updateLastIrreversibleBlock, bind_eq_ok, pure_eq_ok] at h
    obtain ⟨_, _, rfl⟩ := h
    exact .of_tables rfl rfl rfl rfl rfl
  | createBlockSummary b | clearExpiredTransactions =>
    cases h
    exact .of_tables rfl rfl rfl rfl rfl
  | updateWitnessSchedule => exact absurd trivial hstage
  | processInterests =>
    refine onPublicNet_quiet h fun h ↦ ?_
    simp only [Database.processInterests, bind_eq_ok, Prod.exists] at h
    obtain ⟨s₁, total, hpay, hsupply⟩ := h
    exact (Database.payInterests_quiet hpay).trans (Database.adjustSupply_quiet hsupply)
  | updateMedianFeeds => exact onPublicNet_quiet h Database.updateMedianFeeds_quiet
  | clearNullAccountBalance => exact onPublicNet_quiet h Database.clearNullAccountBalance_quiet
  | processFunds b =>
    simp only [run] at h
    exact onPublicNet_quiet h Database.processFunds_quiet
  | processVestingWithdrawals =>
    refine onPublicNet_quiet h fun h ↦ ?_
    exact Database.processVestingWithdrawals_invariant (I := Quiet s)
      (fun _ _ _ _ ha _ hpay hs₁ ↦
        hs₁.trans (Database.processVestingWithdrawal_quiet ha hpay)) h (.refl s)
  | accountRecoveryProcessing => exact Database.accountRecoveryProcessing_quiet h
  | expireEscrowRatification =>
    exact Quiet.foldlM (fun _ _ _ hround ↦ Database.refundEscrow_quiet hround) h
  | processHardforks => exact Database.processHardforksLoop_quiet h
  | recordBlock b =>
    simp only [run] at h
    refine onPublicNet_quiet h fun hrecord ↦ ?_
    obtain ⟨_, _, rfl⟩ := Database.recordBlock_eq_ok hrecord
    exact .of_tables rfl rfl rfl rfl rfl

/-- `update_global_dynamic_data` moves the slot by one and the missed ones, and is quiet
otherwise. -/
theorem Database.updateGlobalDynamicData_slots {b : SignedBlock}
    (h : s.updateGlobalDynamicData ctx b = .ok s') :
    (s.dgp.time ≠ 0 → s.slotAtTime ctx.genesis b.timestamp ≠ 0) ∧
      s'.dgp.currentAslot = s.dgp.currentAslot +
        (if s.dgp.time ≠ 0 then s.slotAtTime ctx.genesis b.timestamp - 1 else 0) + 1 ∧
      Paced s s' ∧ SameRecords s s' := by
  simp only [updateGlobalDynamicData, throwIf_eq_ok, bind_eq_ok, pure_eq_ok] at h
  obtain ⟨_, hslot, s₁, hmissed, _, _, rfl⟩ := h
  have hs₁ : Quiet s s₁ := .foldlM (fun _ _ _ ↦ missSlot_quiet) hmissed
  refine ⟨fun htime hzero ↦ hslot ⟨htime, hzero⟩, ?_, ?_, ?_⟩
  · rw [← hs₁.aslot, shiftSlots_eq]
  · exact ⟨hs₁.paced.virtualTime, hs₁.paced.witnesses⟩
  · exact ⟨hs₁.records.witnessVotes, hs₁.records.votedFor⟩

end SophiaTX.Chain
