import SophiaTX.Chain.Genesis
import SophiaTX.Voting.Propagation

/-!
# Proxies and votes on the ledger

What the two voting operations do to the vote ledger: a proxy is changed by taking the account
out of its chain and putting it below the new proxy, a vote by its whole weight.
-/

open scoped BigOperators

namespace SophiaTX.Chain

open SophiaTX.Protocol SophiaTX.Lib

/-! ## Rows that keep the ledger -/

/-- The part of an account row that votes depend on. -/
def AccountHoldings.ballot (a : AccountHoldings) :
    ℕ × AccountName × ShareType × (Fin maxProxyRecursionDepth → ShareType) :=
  (a.id, a.proxy, a.total, a.proxiedVsfVotes)

/-- Stakes, proxies, votes and their sums stay. -/
structure SameVotes (s s' : Database) : Prop where
  accounts : s.accounts.AgreeOn (fun a ↦ a.ballot) s'.accounts
  witnesses : s.witnesses.AgreeOn (fun w ↦ w.votes) s'.witnesses
  witnessVotes : s'.witnessVotes = s.witnessVotes

namespace SameVotes

theorem of_accounts {s s' : Database} (h : s.accounts.AgreeOn (fun a ↦ a.ballot) s'.accounts)
    (hwitnesses : s'.witnesses = s.witnesses) (hvotes : s'.witnessVotes = s.witnessVotes) :
    SameVotes s s' :=
  ⟨h, hwitnesses ▸ .refl _, hvotes⟩

theorem of_tables {s s' : Database} (haccounts : s'.accounts = s.accounts)
    (hwitnesses : s'.witnesses = s.witnesses) (hvotes : s'.witnessVotes = s.witnessVotes) :
    SameVotes s s' :=
  ⟨haccounts ▸ .refl _, hwitnesses ▸ .refl _, hvotes⟩

theorem modifyAccount (s : Database) (name : AccountName) {f : Account → Account}
    (hf : ∀ a, s.accounts.find? name = some a → (f a).ballot = a.ballot) :
    SameVotes s (s.modifyAccount name f) :=
  of_accounts (Table.AgreeOn.modify _ _ hf) rfl rfl

theorem voteLedger_eq {s s' : Database} (h : SameVotes s s') : s'.voteLedger = s.voteLedger := by
  ext1
  · simp only [Database.voteLedger, h.accounts.1]
  · funext name
    exact h.accounts.elim_eq name none
      (fun b ↦ if b.2.1 = proxyToSelfAccount then none else some b.2.1) fun _ ↦ rfl
  · funext name
    exact h.accounts.elim_eq name 0 (fun b ↦ b.2.2.1) fun _ ↦ rfl
  · simp only [Database.voteLedger, h.witnessVotes]
  · funext name
    exact h.accounts.elim_eq name 0 (fun b ↦ b.2.2.2) fun _ ↦ rfl
  · funext name
    exact h.witnesses.elim_eq name 0 id fun _ ↦ rfl

end SameVotes

theorem Frame.sameVotes {s s' : Database} (h : Frame s s') : SameVotes s s' :=
  ⟨h.accounts.map AccountHoldings.ballot, h.witnesses.map Prod.fst, h.witnessVotes⟩

namespace Database

variable {g : GenesisState} {s s' : Database} {account : AccountName} {a : Account}

theorem setStake_voteLedger {f : Account → Account} (ha : s.accounts.find? account = some a)
    (hproxy : (f a).proxy = a.proxy) (hproxied : (f a).proxiedVsfVotes = a.proxiedVsfVotes) :
    (s.modifyAccount account f).voteLedger = s.voteLedger.setStake account (f a).total := by
  ext1
  · simp [voteLedger, modifyAccount, VoteLedger.setStake]
  · funext name
    simp only [voteLedger, modifyAccount, VoteLedger.setStake, Table.find?_modify]
    split
    · rename_i hname
      simp [hname, ha, AccountHoldings.proxyAccount, hproxy]
    · rfl
  · funext name
    simp only [voteLedger, modifyAccount, VoteLedger.setStake, Table.find?_modify,
      Function.update_apply]
    split
    · rename_i hname
      simp [hname, ha]
    · rfl
  · rfl
  · funext name
    simp only [voteLedger, modifyAccount, VoteLedger.setStake, Table.find?_modify]
    split
    · rename_i hname
      simp [hname, ha, hproxied]
    · rfl
  · rfl

theorem setProxy_voteLedger (proxy : AccountName) (ha : s.accounts.find? account = some a) :
    (s.modifyAccount account fun a ↦ { a with proxy := proxy }).voteLedger =
      { s.voteLedger with
        proxyOf := Function.update s.voteLedger.proxyOf account
          (if proxy = proxyToSelfAccount then none else some proxy) } := by
  ext1
  · simp [voteLedger, modifyAccount]
  · funext name
    simp only [voteLedger, modifyAccount, Table.find?_modify, Function.update_apply]
    split
    · rename_i hname
      simp [hname, ha, AccountHoldings.proxyAccount]
    · rfl
  · funext name
    simp only [voteLedger, modifyAccount, Table.find?_modify]
    split
    · rename_i hname
      simp [hname, ha, AccountHoldings.total]
    · rfl
  · rfl
  · funext name
    simp only [voteLedger, modifyAccount, Table.find?_modify]
    split
    · rename_i hname
      simp [hname, ha]
    · rfl
  · rfl

theorem clearWitnessVotes_voteLedger (s : Database) (account : AccountName) :
    (s.clearWitnessVotes account).voteLedger =
      { s.voteLedger with votes := s.voteLedger.votes.filter fun vote ↦ vote.1 ≠ account } := by
  have hcount : SameVotes { s with
      witnessVotes := s.witnessVotes.filterRows fun vote _ ↦ decide (vote.1 ≠ account) }
      (s.clearWitnessVotes account) :=
    .of_accounts (Table.AgreeOn.modify _ _ fun _ _ ↦ rfl) rfl rfl
  rw [hcount.voteLedger_eq]
  ext1
  · rfl
  · rfl
  · rfl
  · simp only [voteLedger]
    rw [Table.keys_filterRows, List.toFinset_filter]
    simp only [decide_eq_true_eq]
  · rfl
  · rfl

/-! ## Proxies -/

/-- The changes that take an account out of its chain. -/
theorem removedVotes_eq_ok {delta : VoteDeltas} (h : removedVotes a = .ok delta)
    (ha : s.accounts.find? account = some a) (htallied : s.voteLedger.Tallied) :
    ∀ i ≤ maxProxyRecursionDepth, delta.extend i = -s.voteLedger.level i account := by
  simp only [removedVotes, safeAdd, bind_eq_ok, checked_eq_ok, VoteDeltas.neg] at h
  obtain ⟨_, ⟨_, rfl⟩, h⟩ := h
  split at h
  · cases h
    intro i hi
    rw [VoteDeltas.extend, dif_pos (Nat.lt_succ_of_le hi)]
    cases i with
    | zero =>
      rw [VoteLedger.level, levelSum_zero (mem_voteLedger_accounts.2 ⟨a, ha⟩), stake_eq ha]
      rfl
    | succ i =>
      rw [← htallied.proxied account ⟨i, hi⟩, proxied_eq ha]
      rfl
  · cases h

theorem VoteDeltas.neg_eq_ok {delta delta' : VoteDeltas} (h : delta.neg = .ok delta') (i : ℕ) :
    delta'.extend i = -delta.extend i := by
  unfold VoteDeltas.neg at h
  split at h
  · cases h
    unfold VoteDeltas.extend
    split_ifs
    · rfl
    · exact neg_zero.symm
  · cases h

/-- A chain that passes the check does not come to an account whose id it starts with. -/
theorem checkProxyChain_avoids {rounds : ℕ} {chain : List ℕ} {name : AccountName} {p : Account}
    (hname : s.accounts.find? name = some p) (ha : s.accounts.find? account = some a)
    (hid : a.id ∈ chain) (hne : name ≠ account)
    (h : s.checkProxyChain rounds chain p = .ok ()) (n : ℕ) :
    climb s.voteLedger.proxyOf n name ≠ some account := by
  induction rounds generalizing chain name p n with
  | zero => cases h
  | succ rounds ih =>
    cases n with
    | zero => exact fun hsame ↦ hne (Option.some.inj hsame)
    | succ n =>
      have hparent := proxyOf_eq hname
      unfold checkProxyChain at h
      split at h
      · rename_i hproxy
        simp only [getAccount, bind_eq_ok, orUnknownKey_eq_ok, fcAssert_eq_ok] at h
        obtain ⟨next, hnext, _, hnew, _, _, h⟩ := h
        rw [AccountHoldings.proxyAccount, if_neg hproxy] at hparent
        rw [climb_succ_of_parent hparent]
        refine ih hnext (List.mem_cons_of_mem _ hid) ?_ h n
        intro hsame
        rw [hsame, ha] at hnext
        cases hnext
        exact hnew hid
      · rename_i hproxy
        rw [AccountHoldings.proxyAccount, if_pos (not_not.1 hproxy)] at hparent
        rw [climb_succ_of_root hparent]
        exact (Option.some_ne_none _).symm

/-- How the evaluator changes a proxy. -/
theorem accountWitnessProxyEvaluator_eq_ok {proxy : AccountName}
    (h : s.accountWitnessProxyEvaluator account proxy = .ok s') :
    ∃ a delta s₁, s.accounts.find? account = some a ∧ a.proxy ≠ proxy ∧
      removedVotes a = .ok delta ∧
      adjustProxiedWitnessVotesArray delta maxProxyRecursionDepth account s = .ok s₁ ∧
      ((proxy = 0 ∧ s' = s₁.modifyAccount account fun a ↦ { a with proxy := proxy }) ∨
        (proxy ≠ 0 ∧ ∃ newProxy delta', s₁.accounts.find? proxy = some newProxy ∧
          s₁.checkProxyChain (maxProxyRecursionDepth + 1) [a.id, newProxy.id].dedup newProxy =
            .ok () ∧ delta.neg = .ok delta' ∧
          adjustProxiedWitnessVotesArray delta' maxProxyRecursionDepth account
            ((s₁.clearWitnessVotes account).modifyAccount account fun a ↦
              { a with proxy := proxy }) = .ok s')) := by
  simp only [accountWitnessProxyEvaluator, bind_eq_ok, fcAssert_eq_ok, getAccount,
    orUnknownKey_eq_ok] at h
  obtain ⟨_, _, a, ha, _, hchange, delta, hdelta, s₁, hremove, h⟩ := h
  refine ⟨a, delta, s₁, ha, hchange, hdelta, hremove, ?_⟩
  split at h
  · rename_i hproxy
    simp only [bind_eq_ok, orUnknownKey_eq_ok] at h
    obtain ⟨newProxy, hnew, _, hchain, delta', hneg, hadd⟩ := h
    exact .inr ⟨hproxy, newProxy, delta', hnew, hchain, hneg, hadd⟩
  · rename_i hproxy
    exact .inl ⟨not_not.1 hproxy, (pure_eq_ok.1 h).symm⟩

theorem accountWitnessProxyEvaluator_rest {proxy : AccountName}
    (h : s.accountWitnessProxyEvaluator account proxy = .ok s') :
    s'.witnesses.keys = s.witnesses.keys ∧ s'.hardforks = s.hardforks := by
  obtain ⟨a, delta, s₁, _, _, _, hremove, hcases⟩ := accountWitnessProxyEvaluator_eq_ok h
  have hs₁ := adjustProxiedWitnessVotesArray_frame hremove
  have hhardforks : s₁.hardforks = s.hardforks := by rw [hs₁.rest]
  rcases hcases with ⟨_, rfl⟩ | ⟨_, _, _, _, _, _, hadd⟩
  · exact ⟨hs₁.witnesses.1, hhardforks⟩
  · have hs' := adjustProxiedWitnessVotesArray_frame hadd
    refine ⟨hs'.witnesses.1.trans hs₁.witnesses.1, ?_⟩
    rw [hs'.rest]
    exact hhardforks

/-- The ledger below a proxy change. -/
theorem accountWitnessProxyEvaluator_ledger {proxy : AccountName} (hne : proxy ≠ account)
    (hwf : s.voteLedger.WellFormed)
    (h : s.accountWitnessProxyEvaluator account proxy = .ok s') :
    s'.voteLedger.WellFormed ∧ (s.voteLedger.Tallied → s'.voteLedger.Tallied) ∧
      s'.voteLedger.accounts = s.voteLedger.accounts ∧
      s'.voteLedger.votes ⊆ s.voteLedger.votes ∧
      ∀ name ≠ account, s'.voteLedger.proxyOf name = s.voteLedger.proxyOf name := by
  obtain ⟨a, delta, s₁, ha, hchange, hdelta, hremove, hcases⟩ :=
    accountWitnessProxyEvaluator_eq_ok h
  have hs₁ := adjustProxiedWitnessVotesArray_ledger hremove
  have hframe := adjustProxiedWitnessVotesArray_frame hremove
  obtain ⟨a₁, ha₁, hrow₁⟩ := hframe.accounts.exists_right ha
  have hid : a₁.id = a.id := congrArg (fun a ↦ a.id) hrow₁
  have haccount : account ∈ s.voteLedger.accounts := mem_voteLedger_accounts.2 ⟨a, ha⟩
  -- Out of its chain the account has neither proxy nor votes.
  have hdetached : (s₁.voteLedger.detach account).WellFormed := by
    rw [hs₁]
    exact (hwf.push _ _).detach account
  have htallied : s.voteLedger.Tallied → (s₁.voteLedger.detach account).Tallied := by
    intro htallied
    rw [hs₁, VoteLedger.push_congr (removedVotes_eq_ok hdelta ha htallied)]
    exact htallied.detach hwf haccount
  rcases hcases with ⟨rfl, rfl⟩ | ⟨hproxy, newProxy, delta', hnew, hchain, hneg, hadd⟩
  · have hvotes : ∀ w, (account, w) ∉ s.voteLedger.votes := by
      intro w hvote
      have hroot := (hwf.voters account w hvote).2
      have hself : a.proxy ≠ proxyToSelfAccount := hchange
      rw [proxyOf_eq ha, AccountHoldings.proxyAccount, if_neg hself] at hroot
      cases hroot
    have hledger : (s₁.modifyAccount account fun a ↦ { a with proxy := 0 }).voteLedger =
        s₁.voteLedger.detach account := by
      have hkept : s₁.voteLedger.votes.filter (fun vote ↦ vote.1 ≠ account) =
          s₁.voteLedger.votes := by
        rw [hs₁]
        apply Finset.filter_true_of_mem
        rintro ⟨b, w⟩ hvote rfl
        exact hvotes w hvote
      rw [setProxy_voteLedger 0 ha₁, VoteLedger.detach, hkept]
      rfl
    rw [hledger]
    refine ⟨hdetached, htallied, by rw [hs₁]; rfl, ?_, ?_⟩
    · rw [hs₁]
      exact Finset.filter_subset _ _
    · intro name hname
      rw [hs₁]
      exact Function.update_of_ne hname _ _
  · have hledger := adjustProxiedWitnessVotesArray_ledger hadd
    have hcleared : (s₁.clearWitnessVotes account).accounts.find? account =
        some { a₁ with witnessesVotedFor := 0 } := by
      rw [clearWitnessVotes, Table.find?_modify_self, ha₁, Option.map_some]
    rw [setProxy_voteLedger proxy hcleared, clearWitnessVotes_voteLedger,
      if_neg (show proxy ≠ proxyToSelfAccount from hproxy)] at hledger
    have hmoved : s'.voteLedger =
        ((s₁.voteLedger.detach account).setProxy account proxy).push delta'.extend account := by
      rw [hledger, VoteLedger.setProxy, VoteLedger.detach]
      simp only [Function.update_idem]
    have hq : proxy ∈ (s₁.voteLedger.detach account).accounts :=
      mem_voteLedger_accounts.2 ⟨newProxy, hnew⟩
    have havoids : ∀ n, climb (s₁.voteLedger.detach account).proxyOf n proxy ≠ some account := by
      intro n hclimb
      refine checkProxyChain_avoids hnew ha₁ ?_ hne hchain n (climb_cut_eq_some hclimb)
      rw [hid]
      simp
    have hvotes : ∀ w, (account, w) ∉ (s₁.voteLedger.detach account).votes := by
      intro w hvote
      exact (Finset.mem_filter.1 hvote).2 rfl
    have hlinked := hdetached.setProxy hq havoids hvotes
    rw [hmoved]
    refine ⟨hlinked.push _ _, fun htally ↦ ?_, ?_, ?_, ?_⟩
    · have hdelta' : ∀ i ≤ maxProxyRecursionDepth,
          delta'.extend i = (s₁.voteLedger.detach account).level i account := by
        intro i hi
        rw [VoteDeltas.neg_eq_ok hneg, removedVotes_eq_ok hdelta ha htally i hi, neg_neg, hs₁]
        exact (VoteLedger.level_detach_self hwf.acyclic account i).symm
      rw [VoteLedger.push_congr hdelta']
      refine (htallied htally).setProxy hlinked ?_ (Function.update_self _ _ _) hvotes
      rw [hs₁]
      exact haccount
    · rw [hs₁]
      rfl
    · rw [hs₁]
      exact Finset.filter_subset _ _
    · intro name hname
      rw [hs₁]
      exact (Function.update_of_ne hname _ _).trans (Function.update_of_ne hname _ _)

/-! ## Votes -/

theorem witnessVoteWeight_eq_ok {weight : ShareType} (ha : s.accounts.find? account = some a)
    (htallied : s.voteLedger.Tallied) (h : a.witnessVoteWeight = .ok weight) :
    weight = s.voteLedger.weight account := by
  simp only [AccountHoldings.witnessVoteWeight, AccountHoldings.proxiedVsfVotesTotal, safeAdd,
    bind_eq_ok, checked_eq_ok] at h
  obtain ⟨proxied, hproxied, _, ⟨_, rfl⟩, _, rfl⟩ := h
  rw [VoteLedger.weight_eq (mem_voteLedger_accounts.2 ⟨a, ha⟩) (htallied.proxied account),
    stake_eq ha, proxied_eq ha, Fin.sum_univ_def]
  have hsum := foldlM_safeAdd hproxied
  rw [hsum, zero_add, AccountHoldings.total]
  ring

/-- A vote is added or taken away. -/
theorem accountWitnessVoteEvaluator_eq_ok {witness : AccountName} {approve : Bool}
    (h : s.accountWitnessVoteEvaluator g account witness approve = .ok s') :
    ∃ a w weight, s.accounts.find? account = some a ∧ a.proxy = proxyToSelfAccount ∧
      s.witnesses.find? witness = some w ∧ a.witnessVoteWeight = .ok weight ∧
      (((account, witness) ∉ s.voteLedger.votes ∧ s'.voteLedger = { s.voteLedger with
          votes := insert (account, witness) s.voteLedger.votes
          tally := Function.update s.voteLedger.tally witness
            (s.voteLedger.tally witness + weight) }) ∨
        ((account, witness) ∈ s.voteLedger.votes ∧ s'.voteLedger = { s.voteLedger with
          votes := s.voteLedger.votes.erase (account, witness)
          tally := Function.update s.voteLedger.tally witness
            (s.voteLedger.tally witness - weight) })) := by
  simp only [accountWitnessVoteEvaluator, bind_eq_ok, fcAssert_eq_ok, getAccount, getWitness,
    orUnknownKey_eq_ok] at h
  obtain ⟨_, _, a, ha, _, hproxy, w, hw, h⟩ := h
  split at h
  · rename_i hnone
    simp only [bind_eq_ok, pure_eq_ok, createRow_eq_ok] at h
    obtain ⟨_, _, _, _, votes, hvotes, weight, hweight, s₁, hvote, rfl⟩ := h
    refine ⟨a, w, weight, ha, hproxy, hw, hweight, .inl ⟨?_, ?_⟩⟩
    · simpa [voteLedger] using (Table.find?_eq_none_iff _ _).1 hnone
    · have hcount : SameVotes s₁ (s₁.modifyAccount account fun a ↦
          { a with witnessesVotedFor := (a.witnessesVotedFor + 1) % 65536 }) :=
        .modifyAccount _ _ fun _ _ ↦ rfl
      have hkeys : votes.keys.toFinset = insert (account, witness) s.voteLedger.votes := by
        rw [Table.keys_emplace? hvotes]
        ext vote
        simp [voteLedger]
      rw [hcount.voteLedger_eq, adjustWitnessVote_tally hvote]
      simp only [voteLedger] at hkeys ⊢
      rw [hkeys]
  · rename_i hsome
    simp only [safeNeg, bind_eq_ok, checked_eq_ok, pure_eq_ok] at h
    obtain ⟨_, _, weight, hweight, _, ⟨_, rfl⟩, s₁, hvote, rfl⟩ := h
    refine ⟨a, w, weight, ha, hproxy, hw, hweight, .inr ⟨?_, ?_⟩⟩
    · have hmem := Table.mem_keys_of_find? hsome
      simpa [voteLedger] using hmem
    · have hcount : ∀ t : Database, SameVotes t (t.modifyAccount account fun a ↦
          { a with witnessesVotedFor := (a.witnessesVotedFor + 65535) % 65536 }) :=
        fun t ↦ .modifyAccount t _ fun _ _ ↦ rfl
      have hledger := adjustWitnessVote_tally hvote
      have hkeys : (s₁.witnessVotes.erase (account, witness)).keys.toFinset =
          s₁.voteLedger.votes.erase (account, witness) := by
        rw [Table.erase, Table.keys_filterRows, List.toFinset_filter]
        ext vote
        simp [voteLedger, and_comm]
      have herased : ({ s₁ with
          witnessVotes := s₁.witnessVotes.erase (account, witness) } : Database).voteLedger =
            { s₁.voteLedger with votes := s₁.voteLedger.votes.erase (account, witness) } := by
        rw [← hkeys]
        rfl
      refine (hcount { s₁ with
        witnessVotes := s₁.witnessVotes.erase (account, witness) }).voteLedger_eq.trans ?_
      rw [herased, hledger, sub_eq_add_neg]

theorem accountWitnessVoteEvaluator_rest {witness : AccountName} {approve : Bool}
    (h : s.accountWitnessVoteEvaluator g account witness approve = .ok s') :
    s'.witnesses.keys = s.witnesses.keys ∧ s'.hardforks = s.hardforks := by
  simp only [accountWitnessVoteEvaluator, bind_eq_ok, fcAssert_eq_ok] at h
  obtain ⟨_, _, voter, _, _, _, _, _, h⟩ := h
  split at h
  · simp only [bind_eq_ok, pure_eq_ok] at h
    obtain ⟨_, _, _, _, votes, _, weight, _, s₁, hvote, rfl⟩ := h
    have hs₁ := adjustWitnessVote_frame hvote
    refine ⟨hs₁.witnesses.1, ?_⟩
    rw [modifyAccount, hs₁.rest]
  · simp only [bind_eq_ok, pure_eq_ok] at h
    obtain ⟨_, _, weight, _, _, _, s₁, hvote, rfl⟩ := h
    have hs₁ := adjustWitnessVote_frame hvote
    refine ⟨hs₁.witnesses.1, ?_⟩
    rw [modifyAccount, hs₁.rest]

theorem accountWitnessVoteEvaluator_ledger {witness : AccountName} {approve : Bool}
    (hwf : s.voteLedger.WellFormed)
    (h : s.accountWitnessVoteEvaluator g account witness approve = .ok s') :
    s'.voteLedger.WellFormed ∧ (s.voteLedger.Tallied → s'.voteLedger.Tallied) ∧
      s'.voteLedger.proxyOf = s.voteLedger.proxyOf ∧
      ∀ a w, (a, w) ∈ s'.voteLedger.votes →
        (a, w) ∈ s.voteLedger.votes ∨ (a = account ∧ w ∈ s.witnesses.keys) := by
  obtain ⟨a, w, weight, ha, hproxy, hw, hweight, hcases⟩ := accountWitnessVoteEvaluator_eq_ok h
  have haccount : account ∈ s.voteLedger.accounts := mem_voteLedger_accounts.2 ⟨a, ha⟩
  have hroot : s.voteLedger.proxyOf account = none := by
    rw [proxyOf_eq ha, AccountHoldings.proxyAccount, if_pos hproxy]
  rcases hcases with ⟨hnew, hledger⟩ | ⟨hold, hledger⟩
  · rw [hledger]
    have hinserted := hwf.insertVote (w := witness) haccount hroot
    refine ⟨⟨hinserted.proxies, hinserted.acyclic, hinserted.voters⟩, fun htallied ↦ ?_, rfl, ?_⟩
    · rw [witnessVoteWeight_eq_ok ha htallied hweight]
      exact htallied.insertVote haccount hroot hnew
    · intro b v hvote
      rcases Finset.mem_insert.1 hvote with heq | hvote
      · cases heq
        exact .inr ⟨rfl, Table.mem_keys_of_find? hw⟩
      · exact .inl hvote
  · rw [hledger]
    have herased := hwf.eraseVote (account, witness)
    refine ⟨⟨herased.proxies, herased.acyclic, herased.voters⟩, fun htallied ↦ ?_, rfl, ?_⟩
    · rw [witnessVoteWeight_eq_ok ha htallied hweight]
      exact htallied.eraseVote haccount hroot hold
    · exact fun b v hvote ↦ .inl (Finset.mem_of_mem_erase hvote)

end Database

end SophiaTX.Chain
