import Mathlib.Algebra.Order.BigOperators.Group.Finset
import SophiaTX.Voting.Tally

/-!
# The recount of hardfork 1_1

`recalculate_all_votes` clears the votes of the witnesses and pushes the stake of every account
along its chain. The votes come out right. The proxied votes of the accounts are not cleared
first, and keep what they were before.
-/

open scoped BigOperators

namespace SophiaTX.Chain

open SophiaTX.Protocol SophiaTX.Lib

/-! ## A recount of a ledger -/

namespace VoteLedger

variable (l : VoteLedger)

/-- Only the stakes of some accounts count. -/
def restrict (counted : List AccountName) : VoteLedger :=
  { l with stake := fun v ↦ if v ∈ counted then l.stake v else 0 }

/-- The sums when some accounts have been counted. -/
def recount (counted : List AccountName) : VoteLedger :=
  { l with
    proxied := fun a j ↦ l.proxied a j + (l.restrict counted).level (j + 1) a
    tally := (l.restrict counted).support }

variable {l}

theorem restrict_append_stake {counted : List AccountName} {v : AccountName}
    (hnew : v ∉ counted) : (l.restrict (counted ++ [v])).stake =
      Function.update (l.restrict counted).stake v ((l.restrict counted).stake v + l.stake v) := by
  funext u
  by_cases hu : u = v
  · subst hu
    simp [restrict, hnew]
  · simp [restrict, hu]

/-- One more account is counted. -/
theorem recount_push (hproxies : ∀ a p, l.proxyOf a = some p → p ∈ l.accounts)
    {counted : List AccountName} {v : AccountName} (hv : v ∈ l.accounts) (hnew : v ∉ counted) :
    (l.recount counted).push (Pi.single 0 (l.stake v)) v = l.recount (counted ++ [v]) := by
  have hstake := restrict_append_stake (l := l) hnew
  ext1
  · rfl
  · rfl
  · rfl
  · rfl
  · funext a j
    have hlevel : (l.restrict (counted ++ [v])).level (j + 1) a =
        (l.restrict counted).level (j + 1) a +
          if climb l.proxyOf (j + 1) v = some a then l.stake v else 0 := by
      rw [level, hstake]
      exact levelSum_update hv (l.stake v) (j + 1) a
    simp only [push, recount, hlevel]
    rw [pushLevel_single, add_assoc]
  · funext w
    have hsupport : (l.restrict (counted ++ [v])).support w = (l.restrict counted).support w +
        pushRoot l.proxyOf maxProxyRecursionDepth (fun r ↦ (r, w) ∈ l.votes)
          (Pi.single 0 (l.stake v)) v := by
      rw [support, hstake]
      exact rootSum_update hproxies hv (l.stake v)
    exact hsupport.symm

end VoteLedger

namespace Database

variable {s s' : Database}

/-- The ledger with the votes of the witnesses cleared. -/
theorem clearVotes_voteLedger (s : Database) :
    s.clearVotes.voteLedger = s.voteLedger.recount [] := by
  ext1
  · rfl
  · rfl
  · rfl
  · rfl
  · funext a j
    simp [voteLedger, clearVotes, VoteLedger.recount, VoteLedger.restrict, VoteLedger.level,
      levelSum]
  · funext w
    cases hw : s.witnesses.find? w <;>
      simp [voteLedger, clearVotes, VoteLedger.recount, VoteLedger.restrict, VoteLedger.support,
        rootSum, treeSum, levelSum, Table.find?_mapRows, hw]

/-- The loop of `recalculate_all_votes`. -/
theorem recount_loop {l : VoteLedger}
    (hproxies : ∀ a p, l.proxyOf a = some p → p ∈ l.accounts) {counted names : List AccountName}
    (hnodup : (counted ++ names).Nodup) (hs : s.voteLedger = l.recount counted)
    (h : names.foldlM (fun s name ↦ do
      let a ← s.getAccount name
      let total ← safeAdd a.balance a.vestingShares
      s.adjustProxiedWitnessVotes name total) s = .ok s') :
    s'.voteLedger = l.recount (counted ++ names) := by
  induction names generalizing s counted with
  | nil =>
    rw [List.foldlM_nil, pure_eq_ok] at h
    rw [← h, hs, List.append_nil]
  | cons name rest ih =>
    simp only [List.foldlM_cons, bind_eq_ok, getAccount, orUnknownKey_eq_ok, safeAdd,
      checked_eq_ok] at h
    obtain ⟨s₁, ⟨a, ha, total, ⟨_, rfl⟩, hpush⟩, h⟩ := h
    have hname : name ∈ l.accounts := by
      have hmem := mem_voteLedger_accounts.2 ⟨a, ha⟩
      rwa [hs] at hmem
    have hstake : a.balance + a.vestingShares = l.stake name := by
      have hstake := stake_eq ha
      rw [hs] at hstake
      exact hstake.symm
    have hnew : name ∉ counted := fun hmem ↦
      (List.nodup_append.1 hnodup).2.2 name hmem name List.mem_cons_self rfl
    have hs₁ : s₁.voteLedger = l.recount (counted ++ [name]) := by
      rw [adjustProxiedWitnessVotes_ledger hpush, hs, hstake,
        VoteLedger.recount_push hproxies hname hnew]
    rw [List.append_cons] at hnodup ⊢
    exact ih hnodup hs₁ h

/-- What the recount leaves behind: the votes as they should be, and on top of the proxied votes
as they should be what was there before. -/
theorem recalculateAllVotes_voteLedger
    (hproxies : ∀ a p, s.voteLedger.proxyOf a = some p → p ∈ s.voteLedger.accounts)
    (h : s.recalculateAllVotes = .ok s') :
    s'.voteLedger = { s.voteLedger with
      proxied := fun a j ↦ s.voteLedger.proxied a j + s.voteLedger.level (j + 1) a
      tally := s.voteLedger.support } := by
  have hall : s.voteLedger.restrict (s.accounts.keys.insertionSort (· ≤ ·)) = s.voteLedger := by
    ext1
    · rfl
    · rfl
    · funext v
      simp only [VoteLedger.restrict, List.mem_insertionSort]
      split_ifs with hv
      · rfl
      · rw [Table.mem_keys_iff, not_exists] at hv
        simp [voteLedger, Option.eq_none_iff_forall_ne_some.2 hv]
    · rfl
    · rfl
    · rfl
  have hnodup : ([] ++ s.accounts.keys.insertionSort (· ≤ ·)).Nodup := by
    rw [List.nil_append]
    exact (List.perm_insertionSort _ _).nodup_iff.2 s.accounts.nodup
  have hloop := recount_loop hproxies hnodup s.clearVotes_voteLedger h
  rw [List.nil_append, VoteLedger.recount, hall] at hloop
  exact hloop

theorem recalculateAllVotes_witnesses (h : s.recalculateAllVotes = .ok s') :
    s'.witnesses.keys = s.witnesses.keys := by
  refine foldlM_invariant (I := fun t ↦ t.witnesses.keys = s.witnesses.keys) ?_ h
    (Table.keys_mapRows _ _)
  rintro t name t' - hround ht
  simp only [bind_eq_ok] at hround
  obtain ⟨a, _, total, _, hpush⟩ := hround
  exact (adjustProxiedWitnessVotes_frame hpush).witnesses.1.trans ht

end Database

/-! ## The recount against the votes from scratch -/

/-- The stakes of the accounts that a number of proxies lead to an account. -/
def Database.proxiedStake (s : Database) (steps : ℕ) (name : AccountName) : ShareType :=
  s.accounts.sum fun other b ↦
    if s.proxyChain steps other = some name then b.balance + b.vestingShares else 0

/-- The sums of a state are those computed from its stakes, proxies and votes alone. -/
structure VotesFromScratch (s : Database) : Prop where
  witnesses : s.witnesses.Forall fun witness w ↦ w.votes = s.accounts.sum fun name a ↦
    if a.proxy = proxyToSelfAccount ∧ (name, witness) ∈ s.witnessVotes.keys then
      ∑ d ∈ Finset.range (maxProxyRecursionDepth + 1), s.proxiedStake d name else 0
  proxied : s.accounts.Forall fun name a ↦ ∀ d, a.proxiedVsfVotes d = s.proxiedStake (d + 1) name

theorem Database.support_eq_proxiedStake (s : Database) (witness : AccountName) :
    s.voteLedger.support witness = s.accounts.sum fun name a ↦
      if a.proxy = proxyToSelfAccount ∧ (name, witness) ∈ s.witnessVotes.keys then
        ∑ d ∈ Finset.range (maxProxyRecursionDepth + 1), s.proxiedStake d name else 0 := by
  rw [Table.sum_eq_finset_sum, VoteLedger.support, rootSum]
  apply Finset.sum_congr rfl
  intro name hname
  obtain ⟨a, ha⟩ := Database.mem_voteLedger_accounts.1 hname
  have hsum : treeSum s.voteLedger.proxyOf s.voteLedger.accounts s.voteLedger.stake
      maxProxyRecursionDepth name =
        ∑ d ∈ Finset.range (maxProxyRecursionDepth + 1), s.proxiedStake d name :=
    Finset.sum_congr rfl fun d _ ↦ s.level_eq d name
  rw [ha, hsum]
  simp only [Option.elim_some, Database.proxyOf_eq_none_iff ha, Database.mem_votes_iff]

theorem votesFromScratch_iff {s : Database} (hwf : s.voteLedger.WellFormed)
    (hwitnesses : ∀ a w, (a, w) ∈ s.voteLedger.votes → w ∈ s.witnesses.keys) :
    VotesFromScratch s ↔ s.voteLedger.Tallied := by
  rw [tallied_iff hwf hwitnesses]
  constructor
  · intro h
    refine ⟨fun name a ha d ↦ ?_, fun witness w hw ↦ ?_⟩
    · exact (h.proxied name a ha d).trans (s.level_eq (d + 1) name).symm
    · exact (h.witnesses witness w hw).trans (s.support_eq_proxiedStake witness).symm
  · rintro ⟨hproxied, htally⟩
    refine ⟨fun witness w hw ↦ ?_, fun name a ha d ↦ ?_⟩
    · exact (htally witness w hw).trans (s.support_eq_proxiedStake witness)
    · exact (hproxied name a ha d).trans (s.level_eq (d + 1) name)

/-- Votes from scratch are not negative where stakes are not. -/
theorem VotesFromScratch.votes_nonneg {s : Database} (h : VotesFromScratch s)
    (hstakes : s.accounts.Forall fun _ a ↦ 0 ≤ a.balance + a.vestingShares) :
    s.witnesses.Forall fun _ w ↦ 0 ≤ w.votes := by
  have hproxied : ∀ d name, 0 ≤ s.proxiedStake d name := by
    intro d name
    refine Table.sum_nonneg fun other b hb ↦ ?_
    split_ifs
    · exact hstakes other b hb
    · exact le_rfl
  intro witness w hw
  have hvotes := h.witnesses witness w hw
  simp only at hvotes ⊢
  rw [hvotes]
  refine Table.sum_nonneg fun name a _ ↦ ?_
  split_ifs
  · exact Finset.sum_nonneg fun d _ ↦ hproxied d name
  · exact le_rfl

/-- A vote, the withdrawal of one, or a change of a proxy. -/
def BallotStep (g : GenesisState) (s s' : Database) : Prop :=
  (∃ account witness approve, s.accountWitnessVoteEvaluator g account witness approve = .ok s') ∨
    ∃ account proxy, proxy ≠ account ∧ s.accountWitnessProxyEvaluator account proxy = .ok s'

/-- Ballots keep sums that are right. -/
theorem BallotStep.tallied {g : GenesisState} {s s' : Database} (h : BallotStep g s s')
    (hwf : s.voteLedger.WellFormed)
    (hwitnesses : ∀ a w, (a, w) ∈ s.voteLedger.votes → w ∈ s.witnesses.keys)
    (htallied : s.voteLedger.Tallied) :
    s'.voteLedger.WellFormed ∧
      (∀ a w, (a, w) ∈ s'.voteLedger.votes → w ∈ s'.witnesses.keys) ∧ s'.voteLedger.Tallied := by
  rcases h with ⟨account, witness, approve, h⟩ | ⟨account, proxy, hne, h⟩
  · obtain ⟨hkeys, _⟩ := Database.accountWitnessVoteEvaluator_rest h
    obtain ⟨hwf', htallied', _, hvotes⟩ := Database.accountWitnessVoteEvaluator_ledger hwf h
    refine ⟨hwf', fun a w hvote ↦ ?_, htallied' htallied⟩
    rw [hkeys]
    rcases hvotes a w hvote with hold | ⟨_, hnew⟩
    · exact hwitnesses a w hold
    · exact hnew
  · obtain ⟨hkeys, _⟩ := Database.accountWitnessProxyEvaluator_rest h
    obtain ⟨hwf', htallied', _, hvotes, _⟩ :=
      Database.accountWitnessProxyEvaluator_ledger hne hwf h
    refine ⟨hwf', fun a w hvote ↦ ?_, htallied' htallied⟩
    rw [hkeys]
    exact hwitnesses a w (hvotes hvote)

/-- The hardfork counts the votes right, and ballots keep them right from then on, if and only if
no account had proxied votes before. -/
theorem vote_migration_iff {g : GenesisState} {s s' : Database} (hwf : s.voteLedger.WellFormed)
    (hwitnesses : ∀ a w, (a, w) ∈ s.voteLedger.votes → w ∈ s.witnesses.keys)
    (h : s.applyHardfork g 1 = .ok s') :
    (∀ t, Relation.ReflTransGen (BallotStep g) s' t → VotesFromScratch t ∧
      (t.accounts.Forall (fun _ a ↦ 0 ≤ a.balance + a.vestingShares) →
        t.witnesses.Forall fun _ w ↦ 0 ≤ w.votes)) ↔
      s.accounts.Forall fun _ a ↦ ∀ d, a.proxiedVsfVotes d = 0 := by
  simp only [Database.applyHardfork, bind_eq_ok, fcAssert_eq_ok, pure_eq_ok, if_true] at h
  obtain ⟨s₁, hvotes, _, _, _, _, rfl⟩ := h
  have hledger : s₁.voteLedger = _ := Database.recalculateAllVotes_voteLedger hwf.proxies hvotes
  have hkeys : s₁.witnesses.keys = s.witnesses.keys := Database.recalculateAllVotes_witnesses hvotes
  set s' : Database := { s₁ with hardforks := _ } with hs'
  have hledger' : s'.voteLedger = _ := hledger
  have hwf' : s'.voteLedger.WellFormed := by
    rw [hledger']
    exact ⟨hwf.proxies, hwf.acyclic, hwf.voters⟩
  have hwitnesses' : ∀ a w, (a, w) ∈ s'.voteLedger.votes → w ∈ s'.witnesses.keys := by
    rw [hledger', hs', hkeys]
    exact hwitnesses
  have hright : VotesFromScratch s' ↔ s.accounts.Forall fun _ a ↦ ∀ d, a.proxiedVsfVotes d = 0 := by
    rw [votesFromScratch_iff hwf' hwitnesses', hledger']
    constructor
    · intro htallied name a ha d
      have hproxied := htallied.proxied name d
      rw [← Database.proxied_eq ha]
      simpa [VoteLedger.level] using hproxied
    · intro hnone
      refine ⟨fun name d ↦ ?_, fun w ↦ rfl⟩
      have hproxied : s.voteLedger.proxied name d = 0 := by
        cases ha : s.accounts.find? name with
        | none => simp [Database.voteLedger, ha]
        | some a => rw [Database.proxied_eq ha, hnone name a ha d]
      simp only [hproxied, zero_add]
      rfl
  constructor
  · intro hlater
    exact hright.1 (hlater s' .refl).1
  · intro hnone t hsteps
    have htallied := (votesFromScratch_iff hwf' hwitnesses').1 (hright.2 hnone)
    have hinv : t.voteLedger.WellFormed ∧
        (∀ a w, (a, w) ∈ t.voteLedger.votes → w ∈ t.witnesses.keys) ∧ t.voteLedger.Tallied := by
      induction hsteps with
      | refl => exact ⟨hwf', hwitnesses', htallied⟩
      | tail _ hstep ih => exact hstep.tallied ih.1 ih.2.1 ih.2.2
    have hscratch := (votesFromScratch_iff hinv.1 hinv.2.1).2 hinv.2.2
    exact ⟨hscratch, hscratch.votes_nonneg⟩

/-- The init miner has voted for himself, and nobody has a proxy. -/
theorem vote_migration_iff_with_vote :
    ∃ s₀ s s', initGenesis devGenesis = .ok s₀ ∧
      s₀.accountWitnessVoteEvaluator devGenesis initMinerName initMinerName true = .ok s ∧
      s.applyHardfork devGenesis 1 = .ok s' ∧
      (s'.witnesses.find? initMinerName).map (fun w ↦ w.votes) = some 300 ∧
      ∀ t, Relation.ReflTransGen (BallotStep devGenesis) s' t → VotesFromScratch t ∧
        (t.accounts.Forall (fun _ a ↦ 0 ≤ a.balance + a.vestingShares) →
          t.witnesses.Forall fun _ w ↦ 0 ≤ w.votes) := by
  have hok : okAnd (initGenesis devGenesis) (fun s₀ ↦
      okAnd (s₀.accountWitnessVoteEvaluator devGenesis initMinerName initMinerName true) fun s ↦
        decide (s.accounts.Forall fun _ a ↦ ∀ d, a.proxiedVsfVotes d = 0) &&
        okAnd (s.applyHardfork devGenesis 1) fun s' ↦
          decide ((s'.witnesses.find? initMinerName).map (fun w ↦ w.votes) = some 300)) = true := by
    decide +kernel
  obtain ⟨s₀, hgenesis, hs₀⟩ := exists_of_okAnd hok
  obtain ⟨s, hvote, hs⟩ := exists_of_okAnd hs₀
  rw [Bool.and_eq_true, decide_eq_true_eq] at hs
  obtain ⟨s', hfork, hvotes⟩ := exists_of_okAnd hs.2
  have hinOrder := (initGenesis_books hgenesis).votesInOrder
  obtain ⟨hkeys, _⟩ := Database.accountWitnessVoteEvaluator_rest hvote
  obtain ⟨hledger, _, _, hcast⟩ :=
    Database.accountWitnessVoteEvaluator_ledger hinOrder.ledger hvote
  have hwitnesses : ∀ a w, (a, w) ∈ s.voteLedger.votes → w ∈ s.witnesses.keys := by
    intro a w hcasted
    rw [hkeys]
    rcases hcast a w hcasted with hold | ⟨_, hnew⟩
    · exact hinOrder.witnesses a w hold
    · exact hnew
  exact ⟨s₀, s, s', hgenesis, hvote, hfork, of_decide_eq_true hvotes,
    (vote_migration_iff hledger hwitnesses hfork).2 hs.1⟩

/-- A block in which an account gives its 50 shares to the init miner, who votes for himself. -/
def proxyBlock : SignedBlock :=
  devBlock .null 1531512803 [devTransaction 1531512900 8 (.accountWitnessProxy 1000 initMinerName),
    devTransaction 1531512901 7 (.accountWitnessVote initMinerName initMinerName true)]

/-- After the hardfork the init miner has 100 proxied votes instead of 50, and when he withdraws
his vote, his votes become negative. -/
theorem votes_negative_after_migration :
    ∃ s₀ s s' t, initGenesis devGenesis = .ok s₀ ∧
      applyBlock (devContext devGenesis) s₀ proxyBlock = .ok s ∧ ¬ s.hasHardfork 1 ∧
      s.applyHardfork devGenesis 1 = .ok s' ∧ ¬ VotesFromScratch s' ∧
      s'.accountWitnessVoteEvaluator devGenesis initMinerName initMinerName false = .ok t ∧
      t.accounts.Forall (fun _ a ↦ 0 ≤ a.balance + a.vestingShares) ∧
      (t.witnesses.find? initMinerName).map (fun w ↦ w.votes) = some (-50) := by
  have hok : okAnd (initGenesis devGenesis) (fun s₀ ↦
      okAnd (applyBlock (devContext devGenesis) s₀ proxyBlock) fun s ↦
        decide (¬ s.hasHardfork 1) && okAnd (s.applyHardfork devGenesis 1) fun s' ↦
          decide (¬ s'.accounts.Forall fun name a ↦
            ∀ d, a.proxiedVsfVotes d = s'.proxiedStake (d + 1) name) &&
          okAnd (s'.accountWitnessVoteEvaluator devGenesis initMinerName initMinerName false)
            fun t ↦ decide (t.accounts.Forall (fun _ a ↦ 0 ≤ a.balance + a.vestingShares) ∧
              (t.witnesses.find? initMinerName).map (fun w ↦ w.votes) = some (-50))) = true := by
    decide +kernel
  obtain ⟨s₀, hgenesis, hs₀⟩ := exists_of_okAnd hok
  obtain ⟨s, hblock, hs⟩ := exists_of_okAnd hs₀
  rw [Bool.and_eq_true, decide_eq_true_eq] at hs
  obtain ⟨s', hfork, hs'⟩ := exists_of_okAnd hs.2
  rw [Bool.and_eq_true, decide_eq_true_eq] at hs'
  obtain ⟨t, hvote, ht⟩ := exists_of_okAnd hs'.2
  rw [decide_eq_true_eq] at ht
  exact ⟨s₀, s, s', t, hgenesis, hblock, hs.1, hfork, fun h ↦ hs'.1 h.proxied, hvote, ht⟩

end SophiaTX.Chain
