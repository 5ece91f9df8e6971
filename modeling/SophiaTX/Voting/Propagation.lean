import SophiaTX.Chain.Frames
import SophiaTX.Voting.Ledger

/-!
# Propagation on the ledger

The vote ledger of a database state, and what the propagation functions do to it: both push
changes along the chain of proxies of an account.
-/

open scoped BigOperators

namespace SophiaTX.Chain

open SophiaTX.Protocol SophiaTX.Lib

/-- The account an account has given its votes to. -/
def AccountHoldings.proxyAccount (a : AccountHoldings) : Option AccountName :=
  if a.proxy = proxyToSelfAccount then none else some a.proxy

/-- The stakes, proxies, votes and sums of a state. -/
def Database.voteLedger (s : Database) : VoteLedger where
  accounts := s.accounts.keys.toFinset
  proxyOf name := (s.accounts.find? name).elim none fun a ↦ a.proxyAccount
  stake name := (s.accounts.find? name).elim 0 fun a ↦ a.total
  votes := s.witnessVotes.keys.toFinset
  proxied name := (s.accounts.find? name).elim 0 fun a ↦ a.proxiedVsfVotes
  tally name := (s.witnesses.find? name).elim 0 fun w ↦ w.votes

namespace Database

variable {s s' : Database}

theorem mem_voteLedger_accounts {name : AccountName} :
    name ∈ s.voteLedger.accounts ↔ ∃ a, s.accounts.find? name = some a := by
  simp [voteLedger, Table.mem_keys_iff]

theorem proxyOf_eq {name : AccountName} {a : Account} (ha : s.accounts.find? name = some a) :
    s.voteLedger.proxyOf name = a.proxyAccount := by
  simp [voteLedger, ha]

theorem stake_eq {name : AccountName} {a : Account} (ha : s.accounts.find? name = some a) :
    s.voteLedger.stake name = a.total := by
  simp [voteLedger, ha]

theorem proxied_eq {name : AccountName} {a : Account} (ha : s.accounts.find? name = some a) :
    s.voteLedger.proxied name = a.proxiedVsfVotes := by
  simp [voteLedger, ha]

theorem tally_eq {name : AccountName} {w : Witness} (hw : s.witnesses.find? name = some w) :
    s.voteLedger.tally name = w.votes := by
  simp [voteLedger, hw]

end Database

/-- Propagation changes nothing of the ledger but its sums. -/
theorem VoteFrame.voteLedger_eq {s s' : Database} (h : VoteFrame s s') :
    s'.voteLedger = { s.voteLedger with
      proxied := s'.voteLedger.proxied
      tally := s'.voteLedger.tally } := by
  have hvotes : s'.witnessVotes = s.witnessVotes := by rw [h.rest]
  ext1
  · simp only [Database.voteLedger, h.accounts.1]
  · funext name
    exact h.accounts.elim_eq name none (fun a ↦ a.proxyAccount) fun _ ↦ rfl
  · funext name
    exact h.accounts.elim_eq name 0 (fun a ↦ a.total) fun _ ↦ rfl
  · simp only [Database.voteLedger, hvotes]
  · rfl
  · rfl

namespace Database

variable {s s' : Database}

/-! ## Votes of one account -/

theorem adjustWitnessVote_tally {witness : AccountName} {delta : ShareType}
    (h : s.adjustWitnessVote witness delta = .ok s') :
    s'.voteLedger = { s.voteLedger with
      tally := Function.update s.voteLedger.tally witness
        (s.voteLedger.tally witness + delta) } := by
  obtain ⟨w, w', hw, hvotes, _, rfl⟩ := adjustWitnessVote_eq_ok h
  ext1
  · rfl
  · rfl
  · rfl
  · rfl
  · rfl
  · funext name
    simp only [voteLedger, modifyWitness, Table.find?_modify, Function.update_apply]
    split
    · rename_i hname
      simp [hname, hw, hvotes]
    · rfl

theorem adjustWitnessVotesList_tally {witnesses : List AccountName} {delta : ShareType}
    (hnodup : witnesses.Nodup)
    (h : witnesses.foldlM (fun s witness ↦ s.adjustWitnessVote witness delta) s = .ok s') :
    s'.voteLedger = { s.voteLedger with
      tally := fun w ↦ s.voteLedger.tally w + if w ∈ witnesses then delta else 0 } := by
  induction witnesses generalizing s with
  | nil =>
    rw [List.foldlM_nil, pure_eq_ok] at h
    subst h
    simp
  | cons witness rest ih =>
    rw [List.foldlM_cons, bind_eq_ok] at h
    obtain ⟨s₁, hfirst, h⟩ := h
    obtain ⟨hnew, hrest⟩ := List.nodup_cons.1 hnodup
    rw [ih hrest h, adjustWitnessVote_tally hfirst]
    simp only [Function.update_apply, List.mem_cons]
    congr 1
    funext w
    by_cases hw : w = witness
    · subst hw
      simp [hnew]
    · simp [hw]

theorem votesOf_nodup (s : Database) (account : AccountName) : (s.votesOf account).Nodup := by
  refine List.Nodup.map_on ?_ (s.witnessVotes.nodup.filter _)
  intro vote hvote vote' hvote' hsame
  have haccount := of_decide_eq_true (List.mem_filter.1 hvote).2
  have haccount' := of_decide_eq_true (List.mem_filter.1 hvote').2
  exact Prod.ext (haccount.trans haccount'.symm) hsame

theorem mem_votesOf {account witness : AccountName} :
    witness ∈ s.votesOf account ↔ (account, witness) ∈ s.voteLedger.votes := by
  simp [votesOf, voteLedger]

theorem adjustWitnessVotes_tally {account : AccountName} {delta : ShareType}
    (h : s.adjustWitnessVotes account delta = .ok s') :
    s'.voteLedger = { s.voteLedger with
      tally := fun w ↦ s.voteLedger.tally w +
        if (account, w) ∈ s.voteLedger.votes then delta else 0 } := by
  rw [adjustWitnessVotesList_tally (votesOf_nodup s account) h]
  simp only [mem_votesOf]

end Database

/-! ## Along the chain -/

/-- What one call of `adjust_proxied_witness_votes` adds, `remaining` levels below the limit. -/
structure Pushed (delta : ℕ → ShareType) (remaining : ℕ) (account : AccountName)
    (s s' : Database) : Prop where
  frame : VoteFrame s s'
  proxied : ∀ a (j : Fin maxProxyRecursionDepth), s'.voteLedger.proxied a j =
    s.voteLedger.proxied a j + pushLevel s.voteLedger.proxyOf
      (delayed delta (maxProxyRecursionDepth - remaining)) account a j
  tally : ∀ w, s'.voteLedger.tally w = s.voteLedger.tally w +
    pushRoot s.voteLedger.proxyOf remaining (fun r ↦ (r, w) ∈ s.voteLedger.votes) delta account

namespace Pushed

variable {delta : ℕ → ShareType} {remaining : ℕ} {account : AccountName} {s s' : Database}
  {a : Account}

/-- An account without a proxy adds to the votes it has cast. -/
theorem of_root (ha : s.accounts.find? account = some a) (hproxy : a.proxy = proxyToSelfAccount)
    (h : s.adjustWitnessVotes account (∑ i ∈ Finset.range (remaining + 1), delta i) = .ok s') :
    Pushed delta remaining account s s' := by
  have hroot : s.voteLedger.proxyOf account = none := by
    rw [Database.proxyOf_eq ha, AccountHoldings.proxyAccount, if_pos hproxy]
  have hledger := Database.adjustWitnessVotes_tally h
  refine ⟨Database.adjustWitnessVotes_frame h, fun b j ↦ ?_, fun w ↦ ?_⟩
  · rw [hledger, pushLevel_of_root hroot, add_zero]
  · rw [hledger, pushRoot_of_root hroot]

/-- At the limit nothing goes further. -/
theorem of_limit (ha : s.accounts.find? account = some a) (hproxy : a.proxy ≠ proxyToSelfAccount) :
    Pushed delta 0 account s s := by
  have hparent : s.voteLedger.proxyOf account = some a.proxy := by
    rw [Database.proxyOf_eq ha, AccountHoldings.proxyAccount, if_neg hproxy]
  refine ⟨.refl s, fun b j ↦ ?_, fun w ↦ ?_⟩
  · rw [pushLevel_eq_zero, add_zero]
    intro i hi
    rw [delayed, if_neg]
    exact not_le.2 (hi.trans_lt j.isLt)
  · rw [pushRoot_zero_of_parent hparent, add_zero]

/-- The proxy gets its part, and the rest goes further up. -/
theorem of_parent {proxy : Account} {votes : Fin maxProxyRecursionDepth → ShareType}
    (hremaining : remaining < maxProxyRecursionDepth)
    (ha : s.accounts.find? account = some a) (hproxy : a.proxy ≠ proxyToSelfAccount)
    (hp : s.accounts.find? a.proxy = some proxy)
    (hvotes : ∀ j : Fin maxProxyRecursionDepth, votes j = proxy.proxiedVsfVotes j +
      delayed delta (maxProxyRecursionDepth - (remaining + 1)) j)
    (h : Pushed delta remaining a.proxy
      (s.modifyAccount a.proxy fun _ ↦ { proxy with proxiedVsfVotes := votes }) s') :
    Pushed delta (remaining + 1) account s s' := by
  have hparent : s.voteLedger.proxyOf account = some a.proxy := by
    rw [Database.proxyOf_eq ha, AccountHoldings.proxyAccount, if_neg hproxy]
  have hset := Database.setProxiedVotes_frame hp votes
  have hledger := hset.voteLedger_eq
  generalize hs₁ : s.modifyAccount a.proxy (fun _ ↦ { proxy with proxiedVsfVotes := votes }) = s₁
    at h hset hledger
  have hproxyOf : s₁.voteLedger.proxyOf = s.voteLedger.proxyOf := by rw [hledger]
  have hvoters : s₁.voteLedger.votes = s.voteLedger.votes := by rw [hledger]
  have hdepth : maxProxyRecursionDepth - remaining =
      maxProxyRecursionDepth - (remaining + 1) + 1 := by omega
  refine ⟨hset.trans h.frame, fun b j ↦ ?_, fun w ↦ ?_⟩
  · have hstep : s₁.voteLedger.proxied b j = s.voteLedger.proxied b j +
        if a.proxy = b then delayed delta (maxProxyRecursionDepth - (remaining + 1)) j else 0 := by
      subst hs₁
      simp only [Database.voteLedger, Database.modifyAccount, Table.find?_modify]
      by_cases hb : a.proxy = b
      · subst hb
        simp [hp, hvotes]
      · simp [hb, Ne.symm hb]
    have hdelayed : delayed (delayed delta (maxProxyRecursionDepth - (remaining + 1))) 1 =
        delayed delta (maxProxyRecursionDepth - remaining) := by
      funext i
      rw [delayed_succ, hdepth]
    rw [h.proxied b j, hstep, pushLevel_of_parent hparent, hproxyOf, hdelayed, add_assoc]
  · have hstep : s₁.voteLedger.tally w = s.voteLedger.tally w := by
      subst hs₁
      rfl
    rw [h.tally w, hstep, pushRoot_of_parent hparent]
    simp only [hproxyOf, hvoters]

/-- A whole call, from depth zero. -/
theorem ledger_eq (h : Pushed delta maxProxyRecursionDepth account s s') :
    s'.voteLedger = s.voteLedger.push delta account := by
  rw [h.frame.voteLedger_eq]
  ext1
  · rfl
  · rfl
  · rfl
  · rfl
  · funext a j
    have hproxied := h.proxied a j
    rw [Nat.sub_self, delayed_zero] at hproxied
    exact hproxied
  · funext w
    exact h.tally w

end Pushed

/-! ## Arrays of changes -/

/-- The changes by distance, with nothing beyond the limit. -/
def VoteDeltas.extend (delta : VoteDeltas) (i : ℕ) : ShareType :=
  if h : i < maxProxyRecursionDepth + 1 then delta ⟨i, h⟩ else 0

theorem foldlM_safeAdd {α : Type} {f : α → ShareType} {l : List α} {start total : ShareType}
    (h : l.foldlM (fun total a ↦ safeAdd total (f a)) start = .ok total) :
    total = start + (l.map f).sum := by
  induction l generalizing start with
  | nil =>
    rw [List.foldlM_nil, pure_eq_ok] at h
    simp [h]
  | cons a rest ih =>
    simp only [List.foldlM_cons, safeAdd, bind_eq_ok, checked_eq_ok] at h
    obtain ⟨_, ⟨_, rfl⟩, h⟩ := h
    rw [ih h, List.map_cons, List.sum_cons, add_assoc]

theorem VoteDeltas.total_eq_ok {delta : VoteDeltas} {remaining : ℕ} {total : ShareType}
    (hremaining : remaining ≤ maxProxyRecursionDepth)
    (h : delta.total (maxProxyRecursionDepth - remaining) = .ok total) :
    total = ∑ i ∈ Finset.range (remaining + 1), delta.extend i := by
  have hfilter : ∀ (l : List (Fin (maxProxyRecursionDepth + 1))) (p : _ → Bool),
      ((l.filter p).map delta).sum = (l.map fun i ↦ if p i then delta i else 0).sum := by
    intro l p
    induction l with
    | nil => rfl
    | cons i rest ih =>
      rw [List.filter_cons, List.map_cons, List.sum_cons, ← ih]
      split_ifs <;> simp
  have hextend : ∀ i : Fin (maxProxyRecursionDepth + 1), delta i = delta.extend i := by
    intro i
    rw [VoteDeltas.extend, dif_pos i.isLt]
  rw [foldlM_safeAdd h, zero_add, List.map_reverse, List.sum_reverse, hfilter, ← Fin.sum_univ_def]
  simp only [hextend, decide_eq_true_eq]
  rw [Fin.sum_univ_eq_sum_range (fun i ↦
      if i + (maxProxyRecursionDepth - remaining) ≤ maxProxyRecursionDepth then delta.extend i
      else 0), ← Finset.sum_filter]
  apply Finset.sum_congr _ fun _ _ ↦ rfl
  ext i
  simp only [Finset.mem_filter, Finset.mem_range]
  omega

theorem AccountHoldings.addProxiedVotes_eq_ok {a : AccountHoldings} {delta : VoteDeltas}
    {depth : ℕ} {votes : Fin maxProxyRecursionDepth → ShareType}
    (h : a.addProxiedVotes delta depth = .ok votes) (j : Fin maxProxyRecursionDepth) :
    votes j = a.proxiedVsfVotes j + delayed delta.extend depth j := by
  simp only [addProxiedVotes] at h
  split at h
  · cases h
    have hlt : j.val - depth < maxProxyRecursionDepth + 1 :=
      Nat.lt_succ_of_le ((Nat.sub_le _ _).trans j.isLt.le)
    simp only [delayed, VoteDeltas.extend, dif_pos hlt]
    split_ifs
    · rfl
    · rw [add_zero]
  · cases h

namespace Database

variable {s s' : Database}

theorem adjustProxiedWitnessVotesAt_pushed {delta : ShareType} {remaining : ℕ}
    {account : AccountName} (hremaining : remaining ≤ maxProxyRecursionDepth)
    (h : adjustProxiedWitnessVotesAt delta remaining account s = .ok s') :
    Pushed (Pi.single 0 delta) remaining account s s' := by
  have hsum : ∀ n, ∑ i ∈ Finset.range (n + 1), (Pi.single 0 delta : ℕ → ShareType) i = delta := by
    intro n
    rw [Finset.sum_pi_single' 0 delta, if_pos (Finset.mem_range.2 n.succ_pos)]
  induction remaining generalizing account s with
  | zero =>
    simp only [adjustProxiedWitnessVotesAt, getAccount, bind_eq_ok, orUnknownKey_eq_ok] at h
    obtain ⟨a, ha, h⟩ := h
    split at h
    · rename_i hproxy
      exact pure_eq_ok.1 h ▸ .of_limit ha hproxy
    · rename_i hproxy
      exact .of_root ha (not_not.1 hproxy) (by rwa [hsum])
  | succ remaining ih =>
    simp only [adjustProxiedWitnessVotesAt, getAccount, bind_eq_ok, orUnknownKey_eq_ok] at h
    obtain ⟨a, ha, h⟩ := h
    split at h
    · rename_i hproxy
      simp only [safeAdd, bind_eq_ok, orUnknownKey_eq_ok, checked_eq_ok] at h
      obtain ⟨proxy, hp, _, ⟨_, rfl⟩, h⟩ := h
      refine .of_parent hremaining ha hproxy hp (fun j ↦ ?_)
        (ih (Nat.le_of_succ_le hremaining) h)
      have hone : delayed (Pi.single 0 delta : ℕ → ShareType)
          (maxProxyRecursionDepth - (remaining + 1)) j =
          if j.val = maxProxyRecursionDepth - (remaining + 1) then delta else 0 := by
        unfold delayed
        by_cases hj : j.val = maxProxyRecursionDepth - (remaining + 1)
        · simp [hj]
        · split_ifs with hle
          · exact Pi.single_eq_of_ne (by omega) _
          · rfl
      rw [hone, Function.update_apply]
      by_cases hj : j.val = maxProxyRecursionDepth - (remaining + 1)
      · rw [if_pos (Fin.ext hj), if_pos hj]
        congr 2
        exact (Fin.ext hj).symm
      · rw [if_neg (fun heq ↦ hj (congrArg Fin.val heq)), if_neg hj, add_zero]
    · rename_i hproxy
      exact .of_root ha (not_not.1 hproxy) (by rwa [hsum])

theorem adjustProxiedWitnessVotesArray_pushed {delta : VoteDeltas} {remaining : ℕ}
    {account : AccountName} (hremaining : remaining ≤ maxProxyRecursionDepth)
    (h : adjustProxiedWitnessVotesArray delta remaining account s = .ok s') :
    Pushed delta.extend remaining account s s' := by
  induction remaining generalizing account s with
  | zero =>
    simp only [adjustProxiedWitnessVotesArray, getAccount, bind_eq_ok, orUnknownKey_eq_ok] at h
    obtain ⟨a, ha, h⟩ := h
    split at h
    · rename_i hproxy
      exact pure_eq_ok.1 h ▸ .of_limit ha hproxy
    · rename_i hproxy
      simp only [bind_eq_ok] at h
      obtain ⟨total, htotal, h⟩ := h
      rw [VoteDeltas.total_eq_ok hremaining htotal] at h
      exact .of_root ha (not_not.1 hproxy) h
  | succ remaining ih =>
    simp only [adjustProxiedWitnessVotesArray, getAccount, bind_eq_ok, orUnknownKey_eq_ok] at h
    obtain ⟨a, ha, h⟩ := h
    split at h
    · rename_i hproxy
      simp only [bind_eq_ok, orUnknownKey_eq_ok] at h
      obtain ⟨proxy, hp, votes, hvotes, h⟩ := h
      exact .of_parent hremaining ha hproxy hp (AccountHoldings.addProxiedVotes_eq_ok hvotes)
        (ih (Nat.le_of_succ_le hremaining) h)
    · rename_i hproxy
      simp only [bind_eq_ok] at h
      obtain ⟨total, htotal, h⟩ := h
      rw [VoteDeltas.total_eq_ok hremaining htotal] at h
      exact .of_root ha (not_not.1 hproxy) h

theorem adjustProxiedWitnessVotes_ledger {account : AccountName} {delta : ShareType}
    (h : s.adjustProxiedWitnessVotes account delta = .ok s') :
    s'.voteLedger = s.voteLedger.push (Pi.single 0 delta) account :=
  (adjustProxiedWitnessVotesAt_pushed le_rfl h).ledger_eq

theorem adjustProxiedWitnessVotesArray_ledger {account : AccountName} {delta : VoteDeltas}
    (h : adjustProxiedWitnessVotesArray delta maxProxyRecursionDepth account s = .ok s') :
    s'.voteLedger = s.voteLedger.push delta.extend account :=
  (adjustProxiedWitnessVotesArray_pushed le_rfl h).ledger_eq

end Database

end SophiaTX.Chain
