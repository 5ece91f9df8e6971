import SophiaTX.Chain.ApplyBlock

/-!
# What a step leaves alone

Two frames. Propagating votes touches only the proxied votes of accounts and the votes and
virtual times of witnesses. Bookkeeping touches neither money nor votes.
-/

namespace SophiaTX.Chain

open SophiaTX.Protocol SophiaTX.Lib

/-- An account without the votes proxied to it. -/
def Account.withoutProxied (a : Account) : Account :=
  { a with proxiedVsfVotes := fun _ ↦ 0 }

/-- A witness without its votes and its place in virtual time. -/
def Witness.withoutVotes (w : Witness) : Witness :=
  { w with votes := 0, virtualLastUpdate := 0, virtualPosition := 0, virtualScheduledTime := 0 }

/-! ## Vote propagation -/

structure VoteFrame (s s' : Database) : Prop where
  rest : s' = { s with accounts := s'.accounts, witnesses := s'.witnesses }
  accounts : s.accounts.AgreeOn Account.withoutProxied s'.accounts
  witnesses : s.witnesses.AgreeOn Witness.withoutVotes s'.witnesses

namespace VoteFrame

theorem refl (s : Database) : VoteFrame s s := ⟨rfl, .refl _, .refl _⟩

theorem trans {s s₁ s₂ : Database} (h : VoteFrame s s₁) (h' : VoteFrame s₁ s₂) :
    VoteFrame s s₂ := by
  refine ⟨?_, h.accounts.trans h'.accounts, h.witnesses.trans h'.witnesses⟩
  conv_lhs => rw [h'.rest, h.rest]

theorem modifyAccount {s : Database} {name : AccountName} {f : Account → Account}
    (hf : ∀ a, s.accounts.find? name = some a → (f a).withoutProxied = a.withoutProxied) :
    VoteFrame s (s.modifyAccount name f) :=
  ⟨rfl, Table.AgreeOn.modify _ _ hf, .refl _⟩

theorem modifyWitness {s : Database} {name : AccountName} {f : Witness → Witness}
    (hf : ∀ w, s.witnesses.find? name = some w → (f w).withoutVotes = w.withoutVotes) :
    VoteFrame s (s.modifyWitness name f) :=
  ⟨rfl, .refl _, Table.AgreeOn.modify _ _ hf⟩

end VoteFrame

/-- What changing the votes of a witness does to it. -/
theorem Witness.adjustVote_eq_ok {now : ℕ} {delta : ShareType} {w w' : Witness}
    (h : w.adjustVote now delta = .ok w') :
    w'.votes = w.votes + delta ∧ w'.withoutVotes = w.withoutVotes := by
  simp only [adjustVote, safeAdd, bind_eq_ok, checked_eq_ok, pure_eq_ok] at h
  obtain ⟨votes, ⟨_, rfl⟩, lap, _, rfl⟩ := h
  exact ⟨rfl, rfl⟩

namespace Database

theorem adjustWitnessVote_eq_ok {s s' : Database} {witness : AccountName} {delta : ShareType}
    (h : s.adjustWitnessVote witness delta = .ok s') :
    ∃ w w', s.witnesses.find? witness = some w ∧ w'.votes = w.votes + delta ∧
      w'.withoutVotes = w.withoutVotes ∧ s' = s.modifyWitness witness fun _ ↦ w' := by
  simp only [adjustWitnessVote, getWitness, bind_eq_ok, orUnknownKey_eq_ok, pure_eq_ok] at h
  obtain ⟨w, hw, w', hvote, rfl⟩ := h
  obtain ⟨hvotes, hrest⟩ := Witness.adjustVote_eq_ok hvote
  exact ⟨w, w', hw, hvotes, hrest, rfl⟩

theorem adjustWitnessVote_frame {s s' : Database} {witness : AccountName} {delta : ShareType}
    (h : s.adjustWitnessVote witness delta = .ok s') : VoteFrame s s' := by
  obtain ⟨w, w', hw, _, hrest, rfl⟩ := adjustWitnessVote_eq_ok h
  apply VoteFrame.modifyWitness
  intro row hrow
  rw [hw] at hrow
  cases hrow
  exact hrest

theorem adjustWitnessVotes_frame {s s' : Database} {account : AccountName} {delta : ShareType}
    (h : s.adjustWitnessVotes account delta = .ok s') : VoteFrame s s' := by
  refine foldlM_invariant (I := VoteFrame s) ?_ h (.refl s)
  intro s₁ witness s₂ _ hround hs₁
  exact hs₁.trans (adjustWitnessVote_frame hround)

theorem setProxiedVotes_frame {s : Database} {name : AccountName} {a : Account}
    (ha : s.accounts.find? name = some a) (votes : Fin maxProxyRecursionDepth → ShareType) :
    VoteFrame s (s.modifyAccount name fun _ ↦ { a with proxiedVsfVotes := votes }) := by
  apply VoteFrame.modifyAccount
  intro row hrow
  rw [ha] at hrow
  cases hrow
  rfl

theorem adjustProxiedWitnessVotesAt_frame {delta : ShareType} {remaining : ℕ}
    {account : AccountName} {s s' : Database}
    (h : adjustProxiedWitnessVotesAt delta remaining account s = .ok s') : VoteFrame s s' := by
  induction remaining generalizing account s with
  | zero =>
    simp only [adjustProxiedWitnessVotesAt, getAccount, bind_eq_ok, orUnknownKey_eq_ok] at h
    obtain ⟨a, _, h⟩ := h
    split at h
    · exact pure_eq_ok.1 h ▸ .refl s
    · exact adjustWitnessVotes_frame h
  | succ remaining ih =>
    simp only [adjustProxiedWitnessVotesAt, getAccount, bind_eq_ok, orUnknownKey_eq_ok] at h
    obtain ⟨a, _, h⟩ := h
    split at h
    · simp only [bind_eq_ok, orUnknownKey_eq_ok] at h
      obtain ⟨proxy, hproxy, vote, _, h⟩ := h
      exact (setProxiedVotes_frame hproxy _).trans (ih h)
    · exact adjustWitnessVotes_frame h

theorem adjustProxiedWitnessVotes_frame {s s' : Database} {account : AccountName}
    {delta : ShareType} (h : s.adjustProxiedWitnessVotes account delta = .ok s') :
    VoteFrame s s' :=
  adjustProxiedWitnessVotesAt_frame h

theorem adjustProxiedWitnessVotesArray_frame {delta : VoteDeltas} {remaining : ℕ}
    {account : AccountName} {s s' : Database}
    (h : adjustProxiedWitnessVotesArray delta remaining account s = .ok s') :
    VoteFrame s s' := by
  induction remaining generalizing account s with
  | zero =>
    simp only [adjustProxiedWitnessVotesArray, getAccount, bind_eq_ok, orUnknownKey_eq_ok] at h
    obtain ⟨a, _, h⟩ := h
    split at h
    · exact pure_eq_ok.1 h ▸ .refl s
    · simp only [bind_eq_ok] at h
      obtain ⟨total, _, h⟩ := h
      exact adjustWitnessVotes_frame h
  | succ remaining ih =>
    simp only [adjustProxiedWitnessVotesArray, getAccount, bind_eq_ok, orUnknownKey_eq_ok] at h
    obtain ⟨a, _, h⟩ := h
    split at h
    · simp only [bind_eq_ok, orUnknownKey_eq_ok] at h
      obtain ⟨proxy, hproxy, votes, _, h⟩ := h
      exact (setProxiedVotes_frame hproxy _).trans (ih h)
    · simp only [bind_eq_ok] at h
      obtain ⟨total, _, h⟩ := h
      exact adjustWitnessVotes_frame h

end Database

/-! ## Bookkeeping -/

/-- The part of a witness that votes and blocks are counted on. -/
def Witness.record (w : Witness) : ShareType × ℕ := (w.votes, w.lastConfirmedBlockNum)

/-- The global properties that money and the chain itself depend on. -/
def DynamicGlobalProperties.core (dgp : DynamicGlobalProperties) :
    ShareType × ShareType × ℕ × BlockId × ℕ × Bool :=
  (dgp.currentSupply, dgp.totalVestingShares, dgp.headBlockNumber, dgp.headBlockId,
    dgp.lastIrreversibleBlockNum, dgp.privateNet)

/-- Neither money nor votes change, nor who produced which block. -/
structure Frame (s s' : Database) : Prop where
  accounts : s.accounts.AgreeOn Account.toAccountHoldings s'.accounts
  witnesses : s.witnesses.AgreeOn Witness.record s'.witnesses
  witnessVotes : s'.witnessVotes = s.witnessVotes
  escrows : s'.escrows = s.escrows
  economics : s'.economics = s.economics
  processedHardforks : s'.hardforks.processedHardforks = s.hardforks.processedHardforks
  dgp : s'.dgp.core = s.dgp.core

namespace Frame

theorem refl (s : Database) : Frame s s :=
  ⟨.refl _, .refl _, rfl, rfl, rfl, rfl, rfl⟩

theorem trans {s s₁ s₂ : Database} (h : Frame s s₁) (h' : Frame s₁ s₂) : Frame s s₂ where
  accounts := h.accounts.trans h'.accounts
  witnesses := h.witnesses.trans h'.witnesses
  witnessVotes := h'.witnessVotes.trans h.witnessVotes
  escrows := h'.escrows.trans h.escrows
  economics := h'.economics.trans h.economics
  processedHardforks := h'.processedHardforks.trans h.processedHardforks
  dgp := h'.dgp.trans h.dgp

/-- Only tables without money and votes change. -/
theorem rest {s s' : Database} (h : s' = { s with
      authorities := s'.authorities
      transactions := s'.transactions
      blockSummaries := s'.blockSummaries
      wso := s'.wso
      feedHistories := s'.feedHistories
      ownerHistories := s'.ownerHistories
      recoveryRequests := s'.recoveryRequests
      changeRecoveryRequests := s'.changeRecoveryRequests
      applications := s'.applications
      nextApplicationId := s'.nextApplicationId
      applicationBuyings := s'.applicationBuyings
      customContents := s'.customContents
      sponsors := s'.sponsors
      bandwidths := s'.bandwidths }) : Frame s s' := by
  rw [h]
  exact ⟨.refl _, .refl _, rfl, rfl, rfl, rfl, rfl⟩

theorem modifyAccount (s : Database) (name : AccountName) {f : Account → Account}
    (hf : ∀ a, (f a).toAccountHoldings = a.toAccountHoldings) :
    Frame s (s.modifyAccount name f) where
  accounts := Table.AgreeOn.modify _ _ fun a _ ↦ hf a
  witnesses := .refl _
  witnessVotes := rfl
  escrows := rfl
  economics := rfl
  processedHardforks := rfl
  dgp := rfl

theorem ofWitnesses {s : Database} {witnesses : Table AccountName Witness}
    (h : s.witnesses.AgreeOn Witness.record witnesses) :
    Frame s { s with witnesses := witnesses } where
  accounts := .refl _
  witnesses := h
  witnessVotes := rfl
  escrows := rfl
  economics := rfl
  processedHardforks := rfl
  dgp := rfl

theorem modifyWitness (s : Database) (name : AccountName) {f : Witness → Witness}
    (hf : ∀ w, (f w).record = w.record) : Frame s (s.modifyWitness name f) :=
  ofWitnesses (Table.AgreeOn.modify _ _ fun w _ ↦ hf w)

/-- A loop whose rounds are bookkeeping is bookkeeping. -/
theorem foldlM {α : Type} {f : Database → α → Exec Database} {l : List α} {s s' : Database}
    (hf : ∀ s a s', f s a = .ok s' → Frame s s') (h : l.foldlM f s = .ok s') : Frame s s' := by
  refine foldlM_invariant (I := Frame s) ?_ h (.refl s)
  intro s₁ a s₂ _ hround hs₁
  exact hs₁.trans (hf _ _ _ hround)

end Frame

/-! ## Money -/

/-- The part of an account that carries money: all but its votes. -/
def AccountHoldings.money (a : AccountHoldings) : AccountHoldings :=
  { a with proxy := proxyToSelfAccount, proxiedVsfVotes := fun _ ↦ 0 }

/-- No money moves, no withdrawal is scheduled and the head stays where it is. -/
structure SameMoney (s s' : Database) : Prop where
  accounts : s.accounts.AgreeOn (fun a ↦ a.toAccountHoldings.money) s'.accounts
  escrows : s'.escrows = s.escrows
  economics : s'.economics = s.economics
  dgp : s'.dgp.core = s.dgp.core

namespace SameMoney

theorem refl (s : Database) : SameMoney s s := ⟨.refl _, rfl, rfl, rfl⟩

theorem trans {s s₁ s₂ : Database} (h : SameMoney s s₁) (h' : SameMoney s₁ s₂) :
    SameMoney s s₂ where
  accounts := h.accounts.trans h'.accounts
  escrows := h'.escrows.trans h.escrows
  economics := h'.economics.trans h.economics
  dgp := h'.dgp.trans h.dgp

theorem modifyAccount (s : Database) (name : AccountName) {f : Account → Account}
    (hf : ∀ a, (f a).toAccountHoldings.money = a.toAccountHoldings.money) :
    SameMoney s (s.modifyAccount name f) :=
  ⟨Table.AgreeOn.modify _ _ fun a _ ↦ hf a, rfl, rfl, rfl⟩

/-- The same account modified in both states. -/
theorem modifyAccount_both {s s' : Database} (h : SameMoney s s') (name : AccountName)
    {f f' : Account → Account}
    (hf : ∀ a a', s.accounts.find? name = some a → s'.accounts.find? name = some a' →
      a'.toAccountHoldings.money = a.toAccountHoldings.money →
      (f' a').toAccountHoldings.money = (f a).toAccountHoldings.money) :
    SameMoney (s.modifyAccount name f) (s'.modifyAccount name f') :=
  ⟨h.accounts.modify_both name hf, h.escrows, h.economics, h.dgp⟩

variable {s s' : Database}

theorem currentSupply (h : SameMoney s s') : s'.dgp.currentSupply = s.dgp.currentSupply :=
  congrArg Prod.fst h.dgp

theorem totalVestingShares (h : SameMoney s s') :
    s'.dgp.totalVestingShares = s.dgp.totalVestingShares :=
  congrArg (fun core ↦ core.2.1) h.dgp

theorem headBlockNumber (h : SameMoney s s') :
    s'.dgp.headBlockNumber = s.dgp.headBlockNumber :=
  congrArg (fun core ↦ core.2.2.1) h.dgp

theorem headBlockId (h : SameMoney s s') : s'.dgp.headBlockId = s.dgp.headBlockId :=
  congrArg (fun core ↦ core.2.2.2.1) h.dgp

theorem lastIrreversibleBlockNum (h : SameMoney s s') :
    s'.dgp.lastIrreversibleBlockNum = s.dgp.lastIrreversibleBlockNum :=
  congrArg (fun core ↦ core.2.2.2.2.1) h.dgp

theorem privateNet (h : SameMoney s s') : s'.dgp.privateNet = s.dgp.privateNet :=
  congrArg (fun core ↦ core.2.2.2.2.2) h.dgp

end SameMoney

theorem VoteFrame.sameMoney {s s' : Database} (h : VoteFrame s s') : SameMoney s s' := by
  have haccounts := h.accounts.map fun a ↦ a.toAccountHoldings.money
  rw [h.rest]
  exact ⟨haccounts, rfl, rfl, rfl⟩

theorem Frame.sameMoney {s s' : Database} (h : Frame s s') : SameMoney s s' :=
  ⟨h.accounts.map AccountHoldings.money, h.escrows, h.economics, h.dgp⟩

namespace Database

variable {g : GenesisState} {s s' : Database}

theorem clearWitnessVotes_sameMoney (s : Database) (account : AccountName) :
    SameMoney s (s.clearWitnessVotes account) :=
  ⟨Table.AgreeOn.modify _ _ fun _ _ ↦ rfl, rfl, rfl, rfl⟩

theorem accountWitnessProxyEvaluator_sameMoney {account proxy : AccountName}
    (h : s.accountWitnessProxyEvaluator account proxy = .ok s') : SameMoney s s' := by
  simp only [accountWitnessProxyEvaluator, bind_eq_ok, fcAssert_eq_ok] at h
  obtain ⟨_, _, a, _, _, _, delta, _, s₁, hremove, h⟩ := h
  have hs₁ : SameMoney s s₁ := (adjustProxiedWitnessVotesArray_frame hremove).sameMoney
  split at h
  · simp only [bind_eq_ok] at h
    obtain ⟨_, _, _, _, _, _, hadd⟩ := h
    have hproxy := SameMoney.modifyAccount (s₁.clearWitnessVotes account) account
      (f := fun a ↦ { a with proxy := proxy }) fun _ ↦ rfl
    exact ((hs₁.trans (clearWitnessVotes_sameMoney s₁ account)).trans hproxy).trans
      (adjustProxiedWitnessVotesArray_frame hadd).sameMoney
  · rw [pure_eq_ok] at h
    exact h ▸ hs₁.trans (.modifyAccount _ _ fun _ ↦ rfl)

theorem accountWitnessVoteEvaluator_sameMoney {account witness : AccountName} {approve : Bool}
    (h : s.accountWitnessVoteEvaluator g account witness approve = .ok s') : SameMoney s s' := by
  simp only [accountWitnessVoteEvaluator, bind_eq_ok, fcAssert_eq_ok] at h
  obtain ⟨_, _, voter, _, _, _, _, _, h⟩ := h
  split at h
  · simp only [bind_eq_ok, pure_eq_ok] at h
    obtain ⟨_, _, _, _, votes, _, weight, _, s₁, hvote, rfl⟩ := h
    have hcreate : SameMoney s { s with witnessVotes := votes } :=
      ⟨.refl _, rfl, rfl, rfl⟩
    exact (hcreate.trans (adjustWitnessVote_frame hvote).sameMoney).trans
      (.modifyAccount _ _ fun _ ↦ rfl)
  · simp only [bind_eq_ok, pure_eq_ok] at h
    obtain ⟨_, _, weight, _, _, _, s₁, hvote, rfl⟩ := h
    have hcount := SameMoney.modifyAccount s₁ account
      (f := fun a ↦ { a with witnessesVotedFor := (a.witnessesVotedFor + 65535) % 65536 })
      fun _ ↦ rfl
    exact ((adjustWitnessVote_frame hvote).sameMoney.trans hcount).trans
      ⟨.refl _, rfl, rfl, rfl⟩

theorem recalculateAllVotes_sameMoney (h : s.recalculateAllVotes = .ok s') : SameMoney s s' := by
  refine foldlM_invariant (I := SameMoney s) ?_ h ⟨.refl _, rfl, rfl, rfl⟩
  intro s₁ name s₂ _ hround hs₁
  simp only [bind_eq_ok] at hround
  obtain ⟨a, _, total, _, hvotes⟩ := hround
  exact hs₁.trans (adjustProxiedWitnessVotes_frame hvotes).sameMoney

theorem applyHardfork_sameMoney {hardfork : ℕ} (h : s.applyHardfork g hardfork = .ok s') :
    SameMoney s s' := by
  simp only [applyHardfork, bind_eq_ok, pure_eq_ok] at h
  obtain ⟨s₁, hvotes, _, _, _, _, rfl⟩ := h
  have hs₁ : SameMoney s s₁ := by
    split at hvotes
    · exact recalculateAllVotes_sameMoney hvotes
    · exact pure_eq_ok.1 hvotes ▸ .refl s
  exact hs₁.trans ⟨.refl _, rfl, rfl, rfl⟩

end Database

end SophiaTX.Chain
