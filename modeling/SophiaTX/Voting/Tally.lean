import SophiaTX.Voting.Evaluators

/-!
# Vote tallies of a run

Every move of the chain keeps the tallies: payments push the change of a stake along its chain,
proxies and votes move whole weights, and nothing else touches a stake, but for the vesting shares
of the null account, which votes for nobody.
-/

open scoped BigOperators

namespace SophiaTX.Chain

open SophiaTX.Protocol SophiaTX.Lib

/-- Proxies and votes fit together, and the null account takes no part in them. -/
structure VotesInOrder (s : Database) : Prop where
  ledger : s.voteLedger.WellFormed
  witnesses : ∀ a w, (a, w) ∈ s.voteLedger.votes → w ∈ s.witnesses.keys
  nullProxy : s.voteLedger.proxyOf nullAccount = none
  nullVotes : ∀ w, (nullAccount, w) ∉ s.voteLedger.votes

/-- Accounts, proxies and votes stay. -/
structure SameShape (s s' : Database) : Prop where
  accounts : s'.voteLedger.accounts = s.voteLedger.accounts
  proxyOf : s'.voteLedger.proxyOf = s.voteLedger.proxyOf
  votes : s'.voteLedger.votes = s.voteLedger.votes
  witnesses : s'.witnesses.keys = s.witnesses.keys

namespace SameShape

variable {s s₁ s₂ : Database}

theorem trans (h : SameShape s s₁) (h' : SameShape s₁ s₂) : SameShape s s₂ :=
  ⟨h'.accounts.trans h.accounts, h'.proxyOf.trans h.proxyOf, h'.votes.trans h.votes,
    h'.witnesses.trans h.witnesses⟩

theorem votesInOrder (h : SameShape s s₁) (hs : VotesInOrder s) : VotesInOrder s₁ where
  ledger := by
    refine ⟨?_, ?_, ?_⟩
    · rw [h.accounts, h.proxyOf]
      exact hs.ledger.proxies
    · rw [h.proxyOf]
      exact hs.ledger.acyclic
    · rw [h.accounts, h.proxyOf, h.votes]
      exact hs.ledger.voters
  witnesses := by
    rw [h.votes, h.witnesses]
    exact hs.witnesses
  nullProxy := by rw [h.proxyOf, hs.nullProxy]
  nullVotes := by
    rw [h.votes]
    exact hs.nullVotes

end SameShape

theorem VoteFrame.sameShape {s s' : Database} (h : VoteFrame s s') : SameShape s s' := by
  refine ⟨?_, ?_, ?_, h.witnesses.1⟩
  all_goals rw [h.voteLedger_eq]

theorem SameVotes.sameShape {s s' : Database} (h : SameVotes s s') : SameShape s s' := by
  refine ⟨?_, ?_, ?_, h.witnesses.1⟩
  all_goals rw [h.voteLedger_eq]

theorem Database.setStake_sameShape {s : Database} {account : AccountName} {a : Account}
    {f : Account → Account} (ha : s.accounts.find? account = some a)
    (hproxy : (f a).proxy = a.proxy) (hproxied : (f a).proxiedVsfVotes = a.proxiedVsfVotes) :
    SameShape s (s.modifyAccount account f) := by
  refine ⟨?_, ?_, ?_, rfl⟩
  all_goals rw [setStake_voteLedger ha hproxy hproxied]; rfl

/-! ## Moves -/

/-- What a move has to keep. -/
structure VotesKept (s s' : Database) : Prop where
  inOrder : VotesInOrder s → VotesInOrder s'
  hardfork : s.hasHardfork 1 → s'.hasHardfork 1
  tallied : VotesInOrder s → s.hasHardfork 1 → s.voteLedger.Tallied → s'.voteLedger.Tallied

namespace VotesKept

variable {s s' : Database}

/-- The ledger stays, and witnesses are only added. -/
theorem of_ledger (h : s'.voteLedger = s.voteLedger)
    (hwitnesses : ∀ w ∈ s.witnesses.keys, w ∈ s'.witnesses.keys)
    (hhardforks : s'.hardforks.processedHardforks = s.hardforks.processedHardforks) :
    VotesKept s s' where
  inOrder hs := by
    refine ⟨h ▸ hs.ledger, fun a w hvote ↦ ?_, h ▸ hs.nullProxy, h ▸ hs.nullVotes⟩
    rw [h] at hvote
    exact hwitnesses w (hs.witnesses a w hvote)
  hardfork hfork := by
    rw [Database.hasHardfork, hhardforks]
    exact hfork
  tallied _ _ htallied := h ▸ htallied

theorem of_sameVotes (h : SameVotes s s')
    (hhardforks : s'.hardforks.processedHardforks = s.hardforks.processedHardforks) :
    VotesKept s s' :=
  of_ledger h.voteLedger_eq (fun w hw ↦ by rwa [h.witnesses.1]) hhardforks

/-- A stake changes by an amount that is pushed along its chain. -/
theorem of_credit {account : AccountName} {x : ShareType} (h : SameShape s s')
    (haccount : account ∈ s.voteLedger.accounts)
    (hhardforks : s'.hardforks.processedHardforks = s.hardforks.processedHardforks)
    (hledger : s.hasHardfork 1 → s'.voteLedger =
      (s.voteLedger.setStake account (s.voteLedger.stake account + x)).push (Pi.single 0 x)
        account) : VotesKept s s' where
  inOrder := h.votesInOrder
  hardfork hfork := by
    rw [Database.hasHardfork, hhardforks]
    exact hfork
  tallied hs hfork htallied := by
    rw [hledger hfork]
    exact htallied.credit hs.ledger haccount x

end VotesKept

namespace Database

variable {g : GenesisState} {s s' : Database} {account : AccountName}

/-- A credit of an account and the push that follows it. -/
theorem credit_votesKept {a : Account} {balance vesting : ShareType} {blockNo : ℕ}
    (ha : s.accounts.find? account = some a)
    (h : (s.modifyAccount account fun _ ↦
      a.credit balance vesting blockNo).adjustProxiedWitnessVotes account (balance + vesting) =
        .ok s') : VotesKept s s' := by
  have hframe := adjustProxiedWitnessVotes_frame h
  have hstake : (s.modifyAccount account fun _ ↦ a.credit balance vesting blockNo).voteLedger =
      s.voteLedger.setStake account (s.voteLedger.stake account + (balance + vesting)) := by
    rw [setStake_voteLedger ha rfl rfl, stake_eq ha]
    congr 1
    simp only [Account.credit, AccountHoldings.total]
    ring
  refine .of_credit (x := balance + vesting)
    ((setStake_sameShape ha rfl rfl).trans hframe.sameShape) (mem_voteLedger_accounts.2 ⟨a, ha⟩) ?_
    fun _ ↦ ?_
  · rw [hframe.rest]
    rfl
  · rw [adjustProxiedWitnessVotes_ledger h, hstake]

theorem payInterest_votesKept {a : Account} {interest : ShareType}
    (ha : s.accounts.find? account = some a) (hmax : s.economics.accumulatedSupply ≤ int64Max)
    (h : s.payInterest g account a = .ok (s', interest)) : VotesKept s s' := by
  obtain ⟨hinterest, _⟩ := payInterest_money ha hmax h
  obtain ⟨economics, s₁, a₁, _, hvotes, ha₁, rfl⟩ := payInterest_eq_ok h
  have heconomics : SameVotes s { s with economics := economics } := .of_tables rfl rfl rfl
  have hfork : ({ s with economics := economics } : Database).hasHardfork 1 ↔ s.hasHardfork 1 :=
    Iff.rfl
  have hframe : VoteFrame { s with economics := economics } s₁ := by
    split at hvotes
    · exact adjustProxiedWitnessVotes_frame hvotes
    · exact pure_eq_ok.1 hvotes ▸ .refl _
  obtain ⟨b, hb, hrow⟩ := hframe.accounts.exists_left ha₁
  rw [show ({ s with economics := economics } : Database).accounts = s.accounts from rfl, ha] at hb
  cases hb
  have htotal : a₁.total = a.total := congrArg (fun a ↦ a.total) hrow
  refine .of_credit (x := interest) ((heconomics.sameShape.trans hframe.sameShape).trans
    (setStake_sameShape ha₁ rfl rfl)) (mem_voteLedger_accounts.2 ⟨a, ha⟩) ?_ fun hfork ↦ ?_
  · rw [modifyAccount, hframe.rest]
  · -- Votes follow a positive interest; without one there is nothing to follow.
    have hpushed : s₁.voteLedger = s.voteLedger.push (Pi.single 0 interest) account := by
      rw [← heconomics.voteLedger_eq]
      split at hvotes
      · exact adjustProxiedWitnessVotes_ledger hvotes
      · rename_i hnone
        have hzero : interest = 0 :=
          le_antisymm (not_lt.1 fun hpos ↦ hnone ⟨hpos, hfork⟩) hinterest
        rw [pure_eq_ok] at hvotes
        rw [← hvotes, hzero, VoteLedger.push_zero]
    rw [setStake_voteLedger ha₁ rfl rfl, hpushed, stake_eq ha]
    simp only [VoteLedger.setStake, VoteLedger.push, AccountHoldings.total] at htotal ⊢
    congr 2
    rw [← htotal]
    ring

/-- The stake of the null account counts nowhere. -/
theorem burn_votesKept {a : Account} (h : SameVotes s s') (hhardforks : s'.hardforks = s.hardforks)
    (ha : s'.accounts.find? nullAccount = some a) :
    VotesKept s (s'.modifyAccount nullAccount fun a ↦ { a with vestingShares := 0 }) := by
  refine ⟨(h.sameShape.trans (setStake_sameShape ha rfl rfl)).votesInOrder, fun hfork ↦ ?_,
    fun hs _ htallied ↦ ?_⟩
  · rw [hasHardfork, modifyAccount, hhardforks]
    exact hfork
  · have haccount := mem_voteLedger_accounts.2 ⟨a, ha⟩
    rw [setStake_voteLedger ha rfl rfl, h.voteLedger_eq]
    rw [h.voteLedger_eq] at haccount
    exact htallied.setStake hs.ledger haccount hs.nullProxy hs.nullVotes _

end Database

theorem createAccount_voteLedger {s s' : Database} {name : AccountName} {a : Account}
    (ha : a.toAccountHoldings = (Account.fresh s.accounts.size).toAccountHoldings)
    (haccounts : s.accounts.emplace? name a = some s'.accounts)
    (hs' : s' = { s with accounts := s'.accounts, authorities := s'.authorities }) :
    s'.voteLedger = { s.voteLedger with accounts := insert name s.voteLedger.accounts } := by
  have hnone := (Table.emplace?_eq_some haccounts).1
  have hwitnesses : s'.witnesses = s.witnesses := by rw [hs']
  have hvotes : s'.witnessVotes = s.witnessVotes := by rw [hs']
  ext1
  · simp only [Database.voteLedger, Table.keys_emplace? haccounts]
    ext other
    simp
  · funext other
    simp only [Database.voteLedger, Table.find?_emplace? haccounts]
    split
    · rename_i hother
      simp [hother, hnone, ha, AccountHoldings.proxyAccount, Account.fresh]
    · rfl
  · funext other
    simp only [Database.voteLedger, Table.find?_emplace? haccounts]
    split
    · rename_i hother
      simp [hother, hnone, ha, AccountHoldings.total, Account.fresh]
    · rfl
  · simp only [Database.voteLedger, hvotes]
  · funext other
    simp only [Database.voteLedger, Table.find?_emplace? haccounts]
    split
    · rename_i hother
      simp only [hother, hnone, ha, Option.elim_some, Option.elim_none]
      rfl
    · rfl
  · simp only [Database.voteLedger, hwitnesses]

theorem createWitness_voteLedger {s s' : Database} {name : AccountName} {w : Witness}
    (hw : w.record = (0, 0)) (hwitnesses : s.witnesses.emplace? name w = some s'.witnesses)
    (hs' : s' = { s with witnesses := s'.witnesses }) : s'.voteLedger = s.voteLedger := by
  have hvotes : w.votes = 0 := congrArg Prod.fst hw
  rw [hs']
  ext1
  · rfl
  · rfl
  · rfl
  · rfl
  · rfl
  · funext other
    simp only [Database.voteLedger, Table.find?_emplace? hwitnesses]
    split
    · rename_i hother
      simp [hother, (Table.emplace?_eq_some hwitnesses).1, hvotes]
    · rfl

/-- A new account brings nothing with it. -/
theorem createAccount_votesKept {s s' : Database} {name : AccountName} {a : Account}
    (ha : a.toAccountHoldings = (Account.fresh s.accounts.size).toAccountHoldings)
    (haccounts : s.accounts.emplace? name a = some s'.accounts)
    (hs' : s' = { s with accounts := s'.accounts, authorities := s'.authorities }) :
    VotesKept s s' := by
  have hnone := (Table.emplace?_eq_some haccounts).1
  have hwitnesses : s'.witnesses = s.witnesses := by rw [hs']
  have hledger := createAccount_voteLedger ha haccounts hs'
  refine ⟨fun hs ↦ ?_, fun hfork ↦ ?_, fun hs _ htallied ↦ ?_⟩
  · have hwf := hs.ledger.insertAccount name
    refine ⟨hledger ▸ hwf, ?_, ?_, ?_⟩
    · rw [hledger, hwitnesses]
      exact hs.witnesses
    · rw [hledger]
      exact hs.nullProxy
    · rw [hledger]
      exact hs.nullVotes
  · rw [hs']
    exact hfork
  · rw [hledger]
    refine htallied.insertAccount hs.ledger ?_ ?_
    · rw [Database.mem_voteLedger_accounts, hnone]
      simp
    · simp [Database.voteLedger, hnone]

/-- Moves that vote for the null account, or set a proxy that validation refuses, are left out. -/
def Move.FitsVotes : Move → Prop
  | .changeProxy account proxy => account ≠ nullAccount ∧ proxy ≠ account
  | .changeVote account _ _ => account ≠ nullAccount
  | _ => True

theorem Database.applyHardfork_votesKept {g : GenesisState} {s s' : Database} {hardfork : ℕ}
    (h : s.applyHardfork g hardfork = .ok s') : VotesKept s s' := by
  simp only [Database.applyHardfork, bind_eq_ok, fcAssert_eq_ok, pure_eq_ok] at h
  obtain ⟨s₁, hvotes, _, _, _, hlength, rfl⟩ := h
  have hshape : SameShape s s₁ ∧ s₁.hardforks = s.hardforks := by
    split at hvotes
    · refine foldlM_invariant (I := fun t ↦ SameShape s t ∧ t.hardforks = s.hardforks) ?_ hvotes ?_
      · rintro t name t' - hround ⟨ht, hhardforks⟩
        simp only [bind_eq_ok] at hround
        obtain ⟨a, _, total, _, hpush⟩ := hround
        have hframe := Database.adjustProxiedWitnessVotes_frame hpush
        refine ⟨ht.trans hframe.sameShape, ?_⟩
        rw [hframe.rest]
        exact hhardforks
      · exact ⟨⟨rfl, rfl, rfl, Table.keys_mapRows _ _⟩, rfl⟩
    · exact pure_eq_ok.1 hvotes ▸ ⟨⟨rfl, rfl, rfl, rfl⟩, rfl⟩
  have hrecorded : SameVotes s₁ { s₁ with hardforks := { s₁.hardforks with
      processedHardforks := s₁.hardforks.processedHardforks ++ [hardforkTimes g hardfork]
      lastHardfork := hardfork
      currentHardforkVersion := hardforkVersions hardfork } } := .of_tables rfl rfl rfl
  refine ⟨(hshape.1.trans hrecorded.sameShape).votesInOrder, fun hfork ↦ ?_, ?_⟩
  · simp only [Database.hasHardfork, List.length_append, hshape.2] at hfork ⊢
    omega
  · -- The hardfork that counts the votes anew is applied once.
    intro _ hfork htallied
    rw [hrecorded.voteLedger_eq]
    split at hvotes
    · rename_i hone
      rw [Database.hasHardfork, ← hshape.2, hlength, hone] at hfork
      exact absurd hfork (lt_irrefl 1)
    · exact pure_eq_ok.1 hvotes ▸ htallied

theorem Move.Step.votesKept {g : GenesisState} {s s' : Database} {m : Move} (h : m.Step g s s')
    (hm : m.FitsVotes) (hmax : s.economics.accumulatedSupply ≤ int64Max) : VotesKept s s' := by
  cases m with
  | bookkeeping => exact .of_sameVotes h.sameVotes h.processedHardforks
  | adjustBalance account amount =>
    obtain ⟨_, a, ha, _, hvotes⟩ := Database.adjustBalance_eq_ok h
    exact Database.credit_votesKept ha (by rwa [add_zero])
  | createVesting account amount =>
    obtain ⟨_, _, a, ha, hvotes⟩ := Database.createVesting_eq_ok h
    exact Database.credit_votesKept ha (by rwa [zero_add])
  | vest account amount =>
    obtain ⟨a, ha, _, rfl⟩ := Database.vest_eq_ok h.2
    refine .of_sameVotes (.of_accounts (Table.AgreeOn.modify _ _ fun row hrow ↦ ?_) rfl rfl) rfl
    rw [ha] at hrow
    cases hrow
    simp only [AccountHoldings.ballot, AccountHoldings.total]
    ring_nf
  | adjustSupply amount =>
    obtain ⟨_, _, rfl⟩ := Database.adjustSupply_eq_ok h
    exact .of_sameVotes (.of_tables rfl rfl rfl) rfl
  | mintVesting amount =>
    obtain ⟨_, rfl⟩ := h
    exact .of_sameVotes (.of_tables rfl rfl rfl) rfl
  | changePools amount =>
    rw [h.1]
    exact .of_sameVotes (.of_tables rfl rfl rfl) rfl
  | createEscrow key e =>
    rw [h.2.2.2]
    exact .of_sameVotes (.of_tables rfl rfl rfl) rfl
  | changeEscrow key e e' =>
    rw [h.2.2.2]
    exact .of_sameVotes (.of_tables rfl rfl rfl) rfl
  | removeEscrow key e =>
    rw [h.2]
    exact .of_sameVotes (.of_tables rfl rfl rfl) rfl
  | createAccount name =>
    obtain ⟨a, ha, haccounts, hs'⟩ := h
    exact createAccount_votesKept ha haccounts hs'
  | createWitness name =>
    obtain ⟨w, hw, hwitnesses, hs'⟩ := h
    refine .of_ledger (createWitness_voteLedger hw hwitnesses hs') (fun other hother ↦ ?_)
      (by rw [hs'])
    rw [Table.keys_emplace? hwitnesses]
    exact List.mem_append_left _ hother
  | setWithdrawal account amount =>
    obtain ⟨_, a, rate, next, ha, _, _, _, rfl⟩ := Database.withdrawVestingEvaluator_eq_ok h
    exact .of_sameVotes (.modifyAccount _ _ fun _ _ ↦ rfl) rfl
  | changeProxy account proxy =>
    obtain ⟨hkeys, hhardforks⟩ := Database.accountWitnessProxyEvaluator_rest h
    refine ⟨fun hs ↦ ?_, fun hfork ↦ ?_, fun hs _ ↦ ?_⟩
    · obtain ⟨hwf, _, _, hvotes, hproxies⟩ :=
        Database.accountWitnessProxyEvaluator_ledger hm.2 hs.ledger h
      refine ⟨hwf, fun a w hvote ↦ ?_, ?_, fun w hvote ↦ hs.nullVotes w (hvotes hvote)⟩
      · rw [hkeys]
        exact hs.witnesses a w (hvotes hvote)
      · rw [hproxies nullAccount hm.1.symm, hs.nullProxy]
    · rw [Database.hasHardfork, hhardforks]
      exact hfork
    · exact (Database.accountWitnessProxyEvaluator_ledger hm.2 hs.ledger h).2.1
  | changeVote account witness approve =>
    obtain ⟨hkeys, hhardforks⟩ := Database.accountWitnessVoteEvaluator_rest h
    refine ⟨fun hs ↦ ?_, fun hfork ↦ ?_, fun hs _ ↦ ?_⟩
    · obtain ⟨hwf, _, hproxies, hvotes⟩ :=
        Database.accountWitnessVoteEvaluator_ledger hs.ledger h
      refine ⟨hwf, fun a w hvote ↦ ?_, hproxies ▸ hs.nullProxy, fun w hvote ↦ ?_⟩
      · rw [hkeys]
        rcases hvotes a w hvote with hold | ⟨_, hnew⟩
        · exact hs.witnesses a w hold
        · exact hnew
      · rcases hvotes nullAccount w hvote with hold | ⟨hnull, _⟩
        · exact hs.nullVotes w hold
        · exact hm hnull.symm
    · rw [Database.hasHardfork, hhardforks]
      exact hfork
    · exact (Database.accountWitnessVoteEvaluator_ledger hs.ledger h).2.1
  | advanceHead num =>
    obtain ⟨_, _, _, _, hframe⟩ := h
    exact .of_sameVotes ⟨hframe.sameVotes.accounts, hframe.sameVotes.witnesses,
      hframe.witnessVotes⟩ hframe.processedHardforks
  | confirmBlock witness num =>
    obtain ⟨aslot, rfl⟩ := h
    exact .of_sameVotes ⟨.refl _, Table.AgreeOn.modify _ _ fun _ _ ↦ rfl, rfl⟩ rfl
  | setIrreversible num =>
    obtain rfl := h
    exact .of_sameVotes (.of_tables rfl rfl rfl) rfl
  | payInterest account amount =>
    obtain ⟨a, ha, _, hpay⟩ := h
    exact Database.payInterest_votesKept ha hmax hpay
  | burnVesting amount =>
    obtain ⟨a, ha, _, rfl⟩ := h
    exact Database.burn_votesKept (.of_tables rfl rfl rfl) rfl ha
  | payWithdrawal account =>
    obtain ⟨a, ha, hpay⟩ := h
    obtain ⟨toWithdraw, rate, next, _, _, rfl⟩ := Database.processVestingWithdrawal_eq_ok hpay
    refine .of_sameVotes (.of_accounts (Table.AgreeOn.modify _ _ fun row hrow ↦ ?_) rfl rfl) rfl
    rw [ha] at hrow
    cases hrow
    simp only [AccountHoldings.ballot, AccountHoldings.total]
    ring_nf
  | applyHardfork hardfork => exact Database.applyHardfork_votesKept h
  | recordBlock num =>
    obtain ⟨_, _, rfl⟩ := Database.recordBlock_eq_ok h
    exact .of_sameVotes (.of_tables rfl rfl rfl) rfl

/-! ## Runs -/

/-- The null account neither votes nor sets a proxy. -/
def NullPassive (_ : Database) (stage : Stage) : Prop :=
  ∀ trx op, stage = .operation trx op → (∀ proxy, op.op ≠ .accountWitnessProxy nullAccount proxy) ∧
    ∀ witness approve, op.op ≠ .accountWitnessVote nullAccount witness approve

theorem NullPassive.fitsVotes {ctx : Context} {s : Database} {stage : Stage} {m : Move}
    (h : NullPassive s stage) (hvalid : stage.Valid ctx) (hm : stage.Allows m) : m.FitsVotes := by
  cases m with
  | changeProxy account proxy =>
    obtain ⟨trx, op, rfl, hop⟩ := hm
    refine ⟨?_, ?_⟩
    · rintro rfl
      exact (h trx op rfl).1 proxy hop
    · simp only [Stage.Valid, hop, Operation.validate, bind_eq_ok, fcAssert_eq_ok] at hvalid
      obtain ⟨_, _, _, _, hself⟩ := hvalid
      exact hself
  | changeVote account witness approve =>
    obtain ⟨trx, op, rfl, hop⟩ := hm
    rintro rfl
    exact (h trx op rfl).2 witness approve hop
  | _ => trivial

theorem VotesKept.trans {s s₁ s₂ : Database} (h : VotesKept s s₁) (h' : VotesKept s₁ s₂) :
    VotesKept s s₂ :=
  ⟨fun hs ↦ h'.inOrder (h.inOrder hs), fun hfork ↦ h'.hardfork (h.hardfork hfork),
    fun hs hfork htallied ↦
      h'.tallied (h.inOrder hs) (h.hardfork hfork) (h.tallied hs hfork htallied)⟩

theorem VotesKept.refl (s : Database) : VotesKept s s := ⟨id, id, fun _ _ h ↦ h⟩

theorem Explained.votesKept {ctx : Context} {stage : Stage} {s s' : Database}
    {effect : ShareType × ShareType × ShareType} (h : Explained ctx.genesis stage effect s s')
    (hs : Sound s) (hpassive : NullPassive s stage) (hvalid : stage.Valid ctx) :
    VotesKept s s' := by
  obtain ⟨ms, hms, hallowed, _⟩ := h
  refine (hms.invariant (I := fun t ↦ Sound t ∧ VotesKept s t) ?_ ⟨hs, .refl s⟩).2
  rintro s₁ m s₂ hm hstep ⟨hs₁, hkept⟩
  exact ⟨Move.Step.sound hstep hs₁, hkept.trans
    (Move.Step.votesKept hstep (hpassive.fitsVotes hvalid (hallowed m hm)) hs₁.accumulated)⟩

theorem RunsFrom.votesKept {ctx : Context} (hskip : ctx.skip.validate = false)
    {s₀ s : Database} {pending : Option (List Stage)} (hs₀ : Sound s₀)
    (h : RunsFrom ctx NullPassive s₀ pending s) : Sound s ∧ VotesKept s₀ s := by
  refine h.invariant (I := fun t ↦ Sound t ∧ VotesKept s₀ t) hskip ?_ ⟨hs₀, .refl s₀⟩
  rintro s stage s' hpassive hvalid hrun ⟨hs, hkept⟩
  exact ⟨Stage.sound hs hvalid hrun,
    hkept.trans ((Stage.explained hs hvalid hrun).votesKept hs hpassive hvalid)⟩

theorem GenesisBooks.votesInOrder {g : GenesisState} {s : Database} (h : GenesisBooks g s) :
    VotesInOrder s := by
  have hproxyOf : ∀ name, s.voteLedger.proxyOf name = none := by
    intro name
    cases ha : s.accounts.find? name with
    | none => simp [Database.voteLedger, ha]
    | some a =>
      obtain ⟨_, _, hholdings⟩ := h.rows name a ha
      rw [Database.proxyOf_eq ha, hholdings]
      rfl
  have hvotes : s.voteLedger.votes = ∅ := by
    simp [Database.voteLedger, h.witnessVotes, Table.keys, Table.empty]
  refine ⟨⟨?_, ?_, ?_⟩, ?_, hproxyOf nullAccount, ?_⟩
  · intro a p hp
    rw [hproxyOf] at hp
    cases hp
  · intro v n hclimb
    rw [climb_succ_of_root (hproxyOf v)] at hclimb
    cases hclimb
  all_goals
    rw [hvotes]
    simp

/-! ## The tally -/

/-- The account that a number of proxies lead to. -/
def Database.proxyChain (s : Database) (steps : ℕ) (name : AccountName) : Option AccountName :=
  climb s.voteLedger.proxyOf steps name

/-- The votes of every witness are those of the accounts that vote for it, and the proxied votes
of every account are the stakes of the accounts that lead to it. -/
structure VoteTally (s : Database) : Prop where
  witnesses : s.witnesses.Forall fun witness w ↦ w.votes = s.accounts.sum fun name a ↦
    if a.proxy = proxyToSelfAccount ∧ (name, witness) ∈ s.witnessVotes.keys then
      a.balance + a.vestingShares + ∑ d, a.proxiedVsfVotes d else 0
  proxied : s.accounts.Forall fun name a ↦ ∀ d, a.proxiedVsfVotes d = s.accounts.sum fun other b ↦
    if s.proxyChain (d + 1) other = some name then b.balance + b.vestingShares else 0

instance (s : Database) : Decidable (VoteTally s) :=
  decidable_of_iff
    ((s.witnesses.Forall fun witness w ↦ w.votes = s.accounts.sum fun name a ↦
      if a.proxy = proxyToSelfAccount ∧ (name, witness) ∈ s.witnessVotes.keys then
        a.balance + a.vestingShares + ∑ d, a.proxiedVsfVotes d else 0) ∧
    s.accounts.Forall fun name a ↦ ∀ d, a.proxiedVsfVotes d = s.accounts.sum fun other b ↦
      if s.proxyChain (d + 1) other = some name then b.balance + b.vestingShares else 0)
    ⟨fun h ↦ ⟨h.1, h.2⟩, fun h ↦ ⟨h.witnesses, h.proxied⟩⟩

theorem Database.level_eq (s : Database) (d : ℕ) (name : AccountName) :
    s.voteLedger.level d name = s.accounts.sum fun other b ↦
      if s.proxyChain d other = some name then b.balance + b.vestingShares else 0 := by
  rw [Table.sum_eq_finset_sum, VoteLedger.level, levelSum]
  apply Finset.sum_congr rfl
  intro other _
  simp only [Database.proxyChain]
  cases hb : s.accounts.find? other with
  | none => simp [Database.voteLedger, hb]
  | some b =>
    rw [Database.stake_eq hb]
    rfl

theorem Database.proxyOf_eq_none_iff {s : Database} {name : AccountName} {a : Account}
    (ha : s.accounts.find? name = some a) :
    s.voteLedger.proxyOf name = none ↔ a.proxy = proxyToSelfAccount := by
  rw [Database.proxyOf_eq ha, AccountHoldings.proxyAccount]
  split_ifs with hself <;> simp [hself]

theorem Database.mem_votes_iff {s : Database} {vote : AccountName × AccountName} :
    vote ∈ s.voteLedger.votes ↔ vote ∈ s.witnessVotes.keys := List.mem_toFinset

theorem Database.support_eq (s : Database) (witness : AccountName)
    (hproxied : s.accounts.Forall fun name a ↦ ∀ d : Fin maxProxyRecursionDepth,
      a.proxiedVsfVotes d = s.voteLedger.level (d + 1) name) :
    s.voteLedger.support witness = s.accounts.sum fun name a ↦
      if a.proxy = proxyToSelfAccount ∧ (name, witness) ∈ s.witnessVotes.keys then
        a.balance + a.vestingShares + ∑ d, a.proxiedVsfVotes d else 0 := by
  rw [Table.sum_eq_finset_sum, VoteLedger.support, rootSum]
  apply Finset.sum_congr rfl
  intro name hname
  obtain ⟨a, ha⟩ := Database.mem_voteLedger_accounts.1 hname
  have hweight : treeSum s.voteLedger.proxyOf s.voteLedger.accounts s.voteLedger.stake
      maxProxyRecursionDepth name = a.balance + a.vestingShares + ∑ d, a.proxiedVsfVotes d := by
    have hsum := VoteLedger.weight_eq hname fun d ↦
      (congrFun (Database.proxied_eq ha) d).trans (hproxied name a ha d)
    rw [Database.stake_eq ha, Database.proxied_eq ha] at hsum
    exact hsum
  rw [ha, hweight]
  simp only [Option.elim_some, Database.proxyOf_eq_none_iff ha, Database.mem_votes_iff]

/-- The sums of a ledger are those of the rows, since only rows have proxies and votes. -/
theorem tallied_iff {s : Database} (hwf : s.voteLedger.WellFormed)
    (hwitnesses : ∀ a w, (a, w) ∈ s.voteLedger.votes → w ∈ s.witnesses.keys) :
    s.voteLedger.Tallied ↔
      (s.accounts.Forall fun name a ↦ ∀ d : Fin maxProxyRecursionDepth,
        a.proxiedVsfVotes d = s.voteLedger.level (d + 1) name) ∧
      s.witnesses.Forall fun witness w ↦ w.votes = s.voteLedger.support witness := by
  constructor
  · intro h
    refine ⟨fun name a ha d ↦ ?_, fun witness w hw ↦ ?_⟩
    · rw [← h.proxied name d, Database.proxied_eq ha]
    · exact (Database.tally_eq hw).symm.trans (h.tally witness)
  · rintro ⟨hproxied, htally⟩
    refine ⟨fun name d ↦ ?_, fun witness ↦ ?_⟩
    · cases ha : s.accounts.find? name with
      | some a => rw [Database.proxied_eq ha, hproxied name a ha d]
      | none =>
        have hzero : s.voteLedger.proxied name d = 0 := by simp [Database.voteLedger, ha]
        rw [hzero, VoteLedger.level, levelSum, Finset.sum_eq_zero]
        intro other hother
        rw [if_neg]
        intro hclimb
        obtain ⟨a, ha'⟩ := Database.mem_voteLedger_accounts.1
          (climb_mem hwf.proxies hother hclimb)
        rw [ha] at ha'
        cases ha'
    · cases hw : s.witnesses.find? witness with
      | some w => rw [Database.tally_eq hw, htally witness w hw]
      | none =>
        have hzero : s.voteLedger.tally witness = 0 := by simp [Database.voteLedger, hw]
        rw [hzero, VoteLedger.support, rootSum, Finset.sum_eq_zero]
        intro name _
        rw [if_neg]
        rintro ⟨_, hvote⟩
        obtain ⟨w, hw'⟩ := (Table.mem_keys_iff _ _).1 (hwitnesses name witness hvote)
        rw [hw] at hw'
        cases hw'

theorem voteTally_iff {s : Database} (hs : VotesInOrder s) :
    VoteTally s ↔ s.voteLedger.Tallied := by
  rw [tallied_iff hs.ledger hs.witnesses]
  constructor
  · intro h
    have hproxied : s.accounts.Forall fun name a ↦ ∀ d : Fin maxProxyRecursionDepth,
        a.proxiedVsfVotes d = s.voteLedger.level (d + 1) name := by
      intro name a ha d
      rw [h.proxied name a ha d, Database.level_eq]
    refine ⟨hproxied, fun witness w hw ↦ ?_⟩
    exact (h.witnesses witness w hw).trans (s.support_eq witness hproxied).symm
  · rintro ⟨hproxied, htally⟩
    refine ⟨fun witness w hw ↦ ?_, fun name a ha d ↦ ?_⟩
    · exact (htally witness w hw).trans (s.support_eq witness hproxied)
    · exact (hproxied name a ha d).trans (s.level_eq (d + 1) name)

/-- Once the votes have been counted by hardfork 1_1 and are right, they stay right. -/
theorem vote_tally_kept {ctx : Context} (hskip : ctx.skip.validate = false)
    {s₀ s s' : Database} {pending : Option (List Stage)}
    (hgenesis : initGenesis ctx.genesis = .ok s₀) (hrun : RunsFrom ctx NullPassive s₀ none s)
    (hfork : s.hasHardfork 1) (htally : VoteTally s) (h : RunsFrom ctx NullPassive s pending s') :
    VoteTally s' := by
  have hs₀ := initGenesis_books hgenesis
  obtain ⟨hs, hkept⟩ := hrun.votesKept hskip hs₀.sound
  have hvotes := hkept.inOrder hs₀.votesInOrder
  obtain ⟨_, hkept'⟩ := h.votesKept hskip hs
  rw [voteTally_iff (hkept'.inOrder hvotes)]
  exact hkept'.tallied hvotes hfork ((voteTally_iff hvotes).1 htally)

/-- The hourly network started after the time of hardfork 1_1, which its first block applies. -/
def lateGenesis : GenesisState := { hourlyGenesis with genesisTime := 1551200400 }

/-- An empty block. -/
def lateFirstBlock : SignedBlock := devBlock .null 1551204000 []

/-- A block in which an account votes for the init miner. -/
def lateVoteBlock : SignedBlock :=
  devBlock (devEnv.blockId lateFirstBlock) 1551207600
    [devTransaction 1551207000 8 (.accountWitnessVote 1000 initMinerName true)]

theorem vote_tally_kept_by_vote :
    ∃ s₀ s s', initGenesis lateGenesis = .ok s₀ ∧
      applyBlock (devContext lateGenesis) s₀ lateFirstBlock = .ok s ∧
      applyBlock (devContext lateGenesis) s lateVoteBlock = .ok s' ∧
      (s'.witnesses.find? initMinerName).map (fun w ↦ w.votes) = some 50 ∧ VoteTally s' := by
  have hok : okAnd (initGenesis lateGenesis) (fun s₀ ↦
      okAnd (applyBlock (devContext lateGenesis) s₀ lateFirstBlock) fun s ↦
        decide (s.hasHardfork 1 ∧ VoteTally s) &&
        okAnd (applyBlock (devContext lateGenesis) s lateVoteBlock) fun s' ↦
          decide ((s'.witnesses.find? initMinerName).map (fun w ↦ w.votes) = some 50)) = true := by
    decide +kernel
  obtain ⟨s₀, hgenesis, hs₀⟩ := exists_of_okAnd hok
  obtain ⟨s, hfirst, hs⟩ := exists_of_okAnd hs₀
  rw [Bool.and_eq_true, decide_eq_true_eq] at hs
  obtain ⟨⟨hfork, htally⟩, hsecond⟩ := hs
  obtain ⟨s', hvote, hvotes⟩ := exists_of_okAnd hsecond
  refine ⟨s₀, s, s', hgenesis, hfirst, hvote, of_decide_eq_true hvotes,
    vote_tally_kept rfl hgenesis (RunsFrom.refl.applyBlock ?_ hfirst) hfork htally
      (RunsFrom.refl.applyBlock ?_ hvote)⟩
  · rintro stage hmem s trx op rfl
    simp [SignedBlock.stages, SignedBlock.stagesBeforeCommit, SignedBlock.stagesAfterCommit,
      lateFirstBlock, devBlock] at hmem
  · rintro stage hmem s trx op rfl
    obtain ⟨_, rfl⟩ : trx = _ ∧ op = _ := by
      simpa [SignedBlock.stages, SignedBlock.stagesBeforeCommit, SignedBlock.stagesAfterCommit,
        lateVoteBlock, devBlock, devTransaction, transactionStages] using hmem
    refine ⟨fun proxy hop ↦ ?_, fun witness approve hop ↦ ?_⟩
    · cases hop
    · exact absurd (Operation.accountWitnessVote.inj hop).1 (by decide)

end SophiaTX.Chain
