import SophiaTX.Chain.Objects
import SophiaTX.Lib.Forest
import Mathlib.Algebra.BigOperators.Fin

/-!
# What the vote tallies are for

Accounts hold stakes, set proxies and vote for witnesses. The votes of a witness are the stakes of
the accounts that vote for it, together with the stakes proxied to them over at most
`SOPHIATX_MAX_PROXY_RECURSION_DEPTH` proxies. The chain keeps these sums as it goes along; here
they are what they should be, and the changes that keep them so.
-/

open scoped BigOperators

namespace SophiaTX.Chain

open SophiaTX.Protocol SophiaTX.Lib

/-- Stakes, proxies and votes, with the sums kept for them. -/
@[ext]
structure VoteLedger where
  accounts : Finset AccountName
  proxyOf : AccountName → Option AccountName
  stake : AccountName → ShareType
  votes : Finset (AccountName × AccountName)
  proxied : AccountName → Fin maxProxyRecursionDepth → ShareType
  tally : AccountName → ShareType

namespace VoteLedger

variable (l : VoteLedger)

/-- The stakes at a number of proxies from an account. -/
def level (d : ℕ) (a : AccountName) : ShareType := levelSum l.proxyOf l.accounts l.stake d a

/-- All that votes with an account: its stake and the stakes proxied to it. -/
def weight (a : AccountName) : ShareType :=
  treeSum l.proxyOf l.accounts l.stake maxProxyRecursionDepth a

/-- The weight of the accounts without a proxy that vote for a witness. -/
def support (w : AccountName) : ShareType :=
  rootSum l.proxyOf l.accounts l.stake maxProxyRecursionDepth fun r ↦ (r, w) ∈ l.votes

/-- The sums are what they should be. -/
structure Tallied : Prop where
  proxied : ∀ a j, l.proxied a j = l.level (j + 1) a
  tally : ∀ w, l.tally w = l.support w

/-- Proxies are accounts, no account is its own proxy over others, and accounts with a proxy do
not vote. -/
structure WellFormed : Prop where
  proxies : ∀ a p, l.proxyOf a = some p → p ∈ l.accounts
  acyclic : Acyclic l.proxyOf
  voters : ∀ a w, (a, w) ∈ l.votes → a ∈ l.accounts ∧ l.proxyOf a = none

/-- What an account stands for is added along its chain of proxies. -/
def push (delta : ℕ → ShareType) (v : AccountName) : VoteLedger :=
  { l with
    proxied := fun a j ↦ l.proxied a j + pushLevel l.proxyOf delta v a j
    tally := fun w ↦ l.tally w +
      pushRoot l.proxyOf maxProxyRecursionDepth (fun r ↦ (r, w) ∈ l.votes) delta v }

/-- Other stakes. -/
def setStake (v : AccountName) (x : ShareType) : VoteLedger :=
  { l with stake := Function.update l.stake v x }

/-- An account without proxy and votes. -/
def detach (v : AccountName) : VoteLedger :=
  { l with
    proxyOf := Function.update l.proxyOf v none
    votes := l.votes.filter fun vote ↦ vote.1 ≠ v }

def setProxy (v q : AccountName) : VoteLedger :=
  { l with proxyOf := Function.update l.proxyOf v (some q) }

variable {l}

theorem push_congr {delta delta' : ℕ → ShareType}
    (h : ∀ i ≤ maxProxyRecursionDepth, delta i = delta' i) (v : AccountName) :
    l.push delta v = l.push delta' v := by
  have hproxied : ∀ (a : AccountName) (j : Fin maxProxyRecursionDepth),
      pushLevel l.proxyOf delta v a j = pushLevel l.proxyOf delta' v a j :=
    fun a j ↦ pushLevel_congr (fun i hi ↦ h i (hi.trans j.isLt.le)) v a
  simp only [push, hproxied, pushRoot_congr h]

theorem push_zero (v : AccountName) : l.push (Pi.single 0 0) v = l := by
  have hproxied : ∀ (a : AccountName) (j : Fin maxProxyRecursionDepth),
      pushLevel l.proxyOf (0 : ℕ → ShareType) v a j = 0 :=
    fun a j ↦ pushLevel_eq_zero (fun _ _ ↦ rfl) v a
  have htally : ∀ w, pushRoot l.proxyOf maxProxyRecursionDepth (fun r ↦ (r, w) ∈ l.votes)
      (0 : ℕ → ShareType) v = 0 := by
    intro w
    apply Finset.sum_eq_zero
    intro k _
    cases climb l.proxyOf k v <;> simp
  simp only [push, Pi.single_zero, hproxied, htally, add_zero]

theorem WellFormed.push (hwf : l.WellFormed) (delta : ℕ → ShareType) (v : AccountName) :
    (l.push delta v).WellFormed := ⟨hwf.proxies, hwf.acyclic, hwf.voters⟩

/-! ## Stakes -/

theorem support_setStake (hwf : l.WellFormed) {v : AccountName} (hv : v ∈ l.accounts)
    (x : ShareType) (w : AccountName) :
    (l.setStake v (l.stake v + x)).support w = l.support w +
      pushRoot l.proxyOf maxProxyRecursionDepth (fun r ↦ (r, w) ∈ l.votes) (Pi.single 0 x) v :=
  rootSum_update hwf.proxies hv x

/-- A change of a stake that is pushed along the chain of its account. -/
theorem Tallied.credit (h : l.Tallied) (hwf : l.WellFormed) {v : AccountName}
    (hv : v ∈ l.accounts) (x : ShareType) :
    ((l.setStake v (l.stake v + x)).push (Pi.single 0 x) v).Tallied where
  proxied a j := by
    simp only [push, setStake, level, h.proxied a j]
    rw [levelSum_update hv, pushLevel_single]
  tally w := by
    calc l.tally w + pushRoot l.proxyOf maxProxyRecursionDepth (fun r ↦ (r, w) ∈ l.votes)
          (Pi.single 0 x) v
        = l.support w + pushRoot l.proxyOf maxProxyRecursionDepth (fun r ↦ (r, w) ∈ l.votes)
            (Pi.single 0 x) v := by rw [h.tally w]
      _ = (l.setStake v (l.stake v + x)).support w := (support_setStake hwf hv x w).symm

/-- The stake of an account without proxy and votes counts nowhere. -/
theorem Tallied.setStake (h : l.Tallied) (hwf : l.WellFormed) {v : AccountName}
    (hv : v ∈ l.accounts) (hproxy : l.proxyOf v = none) (hvotes : ∀ w, (v, w) ∉ l.votes)
    (x : ShareType) : (l.setStake v x).Tallied := by
  obtain ⟨y, rfl⟩ : ∃ y, x = l.stake v + y := ⟨x - l.stake v, by ring⟩
  refine ⟨fun a j ↦ ?_, fun w ↦ ?_⟩
  · simp only [VoteLedger.setStake, level, h.proxied a j]
    rw [levelSum_update hv, climb_succ_of_root hproxy, if_neg (Option.some_ne_none a).symm,
      add_zero]
  · rw [support_setStake hwf hv, pushRoot_of_root hproxy, if_neg (hvotes w), add_zero]
    exact h.tally w

/-! ## Proxies -/

/-- What an account takes with it when it leaves its chain. -/
theorem support_detach (hwf : l.WellFormed) {v : AccountName} (hv : v ∈ l.accounts)
    (w : AccountName) :
    l.support w = (l.detach v).support w + pushRoot l.proxyOf maxProxyRecursionDepth
      (fun r ↦ (r, w) ∈ l.votes) (fun i ↦ l.level i v) v := by
  rw [support, rootSum_cut hwf.acyclic hwf.proxies hv, support]
  congr 1
  apply rootSum_congr
  intro r _ _
  simp [detach]

theorem level_detach (hacyclic : Acyclic l.proxyOf) (v a : AccountName) (j : ℕ) :
    l.level (j + 1) a =
      (l.detach v).level (j + 1) a + pushLevel l.proxyOf (fun i ↦ l.level i v) v a j := by
  rw [level, levelSum_cut v a j]
  simp only [levelSum_cut_self hacyclic v]
  rfl

theorem level_detach_self (hacyclic : Acyclic l.proxyOf) (v : AccountName) (d : ℕ) :
    (l.detach v).level d v = l.level d v := levelSum_cut_self hacyclic v d

/-- Taking an account out of its chain leaves it without proxy and votes. -/
theorem Tallied.detach (h : l.Tallied) (hwf : l.WellFormed) {v : AccountName}
    (hv : v ∈ l.accounts) : ((l.push (fun i ↦ -l.level i v) v).detach v).Tallied where
  proxied a j := by
    calc l.proxied a j + pushLevel l.proxyOf (fun i ↦ -l.level i v) v a j
        = l.level (j + 1) a - pushLevel l.proxyOf (fun i ↦ l.level i v) v a j := by
          rw [h.proxied a j, pushLevel_neg, ← sub_eq_add_neg]
      _ = (l.detach v).level (j + 1) a := by
          rw [level_detach hwf.acyclic v a j, add_sub_cancel_right]
  tally w := by
    calc l.tally w + pushRoot l.proxyOf maxProxyRecursionDepth (fun r ↦ (r, w) ∈ l.votes)
          (fun i ↦ -l.level i v) v
        = l.support w - pushRoot l.proxyOf maxProxyRecursionDepth (fun r ↦ (r, w) ∈ l.votes)
            (fun i ↦ l.level i v) v := by
          rw [h.tally w, pushRoot_neg, ← sub_eq_add_neg]
      _ = (l.detach v).support w := by
          rw [support_detach hwf hv w, add_sub_cancel_right]

theorem WellFormed.detach (hwf : l.WellFormed) (v : AccountName) : (l.detach v).WellFormed where
  proxies a p hp := by
    simp only [VoteLedger.detach, Function.update_apply] at hp
    split_ifs at hp
    exact hwf.proxies a p hp
  acyclic := hwf.acyclic.cut v
  voters a w hvote := by
    simp only [VoteLedger.detach, Finset.mem_filter] at hvote ⊢
    obtain ⟨ha, hproxy⟩ := hwf.voters a w hvote.1
    exact ⟨ha, by rw [Function.update_of_ne hvote.2, hproxy]⟩

/-- A chain that does not come to an account may be put above it. -/
theorem WellFormed.setProxy (hwf : l.WellFormed) {v q : AccountName} (hq : q ∈ l.accounts)
    (hchain : ∀ n, climb l.proxyOf n q ≠ some v) (hvotes : ∀ w, (v, w) ∉ l.votes) :
    (l.setProxy v q).WellFormed where
  proxies a p hp := by
    simp only [VoteLedger.setProxy, Function.update_apply] at hp
    split_ifs at hp
    · exact Option.some.inj hp ▸ hq
    · exact hwf.proxies a p hp
  acyclic := hwf.acyclic.link hchain
  voters a w hvote := by
    have hne : a ≠ v := fun ha ↦ hvotes w (ha ▸ hvote)
    obtain ⟨ha, hproxy⟩ := hwf.voters a w hvote
    exact ⟨ha, (Function.update_of_ne hne _ _).trans hproxy⟩

theorem detach_setProxy {v q : AccountName} (hproxy : l.proxyOf v = none)
    (hvotes : ∀ w, (v, w) ∉ l.votes) : (l.setProxy v q).detach v = l := by
  have hroot : Function.update l.proxyOf v none = l.proxyOf := by
    rw [← hproxy, Function.update_eq_self]
  have hkept : l.votes.filter (fun vote ↦ vote.1 ≠ v) = l.votes := by
    apply Finset.filter_true_of_mem
    rintro ⟨a, w⟩ hvote rfl
    exact hvotes w hvote
  simp only [VoteLedger.detach, VoteLedger.setProxy, Function.update_idem, hroot, hkept]

/-- Putting an account without proxy and votes below another. -/
theorem Tallied.setProxy (h : l.Tallied) {v q : AccountName} (hwf : (l.setProxy v q).WellFormed)
    (hv : v ∈ l.accounts) (hproxy : l.proxyOf v = none) (hvotes : ∀ w, (v, w) ∉ l.votes) :
    ((l.setProxy v q).push (fun i ↦ l.level i v) v).Tallied := by
  have hdetach : (l.setProxy v q).detach v = l := detach_setProxy hproxy hvotes
  have hlevel : (fun i ↦ l.level i v) = fun i ↦ (l.setProxy v q).level i v := by
    funext i
    rw [← level_detach_self hwf.acyclic v i, hdetach]
  rw [hlevel]
  refine ⟨fun a j ↦ ?_, fun w ↦ ?_⟩
  · calc l.proxied a j + pushLevel (l.setProxy v q).proxyOf
          (fun i ↦ (l.setProxy v q).level i v) v a j
        = ((l.setProxy v q).detach v).level (j + 1) a + pushLevel (l.setProxy v q).proxyOf
            (fun i ↦ (l.setProxy v q).level i v) v a j := by rw [hdetach, h.proxied a j]
      _ = (l.setProxy v q).level (j + 1) a := (level_detach hwf.acyclic v a j).symm
  · calc l.tally w + pushRoot (l.setProxy v q).proxyOf maxProxyRecursionDepth
          (fun r ↦ (r, w) ∈ l.votes) (fun i ↦ (l.setProxy v q).level i v) v
        = ((l.setProxy v q).detach v).support w + pushRoot (l.setProxy v q).proxyOf
            maxProxyRecursionDepth (fun r ↦ (r, w) ∈ l.votes)
            (fun i ↦ (l.setProxy v q).level i v) v := by rw [hdetach, h.tally w]
      _ = (l.setProxy v q).support w := (support_detach hwf hv w).symm

/-! ## Votes -/

/-- The weight of an account, from the sums that are kept for it. -/
theorem weight_eq {v : AccountName} (hv : v ∈ l.accounts)
    (h : ∀ j : Fin maxProxyRecursionDepth, l.proxied v j = l.level (j + 1) v) :
    l.weight v = l.stake v + ∑ j, l.proxied v j := by
  have hlevels : ∑ j, l.proxied v j =
      ∑ d ∈ Finset.range maxProxyRecursionDepth, l.level (d + 1) v := by
    rw [← Fin.sum_univ_eq_sum_range (fun d ↦ l.level (d + 1) v)]
    exact Finset.sum_congr rfl fun j _ ↦ h j
  have hself : levelSum l.proxyOf l.accounts l.stake 0 v = l.stake v := levelSum_zero hv
  rw [weight, treeSum, Finset.sum_range_succ', hself, hlevels, add_comm]
  rfl

/-- A vote added or taken away changes the support of its witness by the weight of the voter. -/
theorem support_insert {v w : AccountName} (hv : v ∈ l.accounts) (hproxy : l.proxyOf v = none)
    (hnew : (v, w) ∉ l.votes) (other : AccountName) :
    ({ l with votes := insert (v, w) l.votes } : VoteLedger).support other =
      l.support other + if other = w then l.weight v else 0 := by
  have hpoint : ∀ r ∈ l.accounts, (if l.proxyOf r = none ∧ (r, other) ∈ insert (v, w) l.votes then
      l.weight r else 0) = (if l.proxyOf r = none ∧ (r, other) ∈ l.votes then l.weight r else 0) +
        if r = v then (if other = w then l.weight v else 0) else 0 := by
    intro r _
    by_cases hr : r = v
    · subst hr
      by_cases hw : other = w
      · subst hw
        simp [hproxy, hnew]
      · simp [hw]
    · simp [hr]
  calc ({ l with votes := insert (v, w) l.votes } : VoteLedger).support other
      = ∑ r ∈ l.accounts, ((if l.proxyOf r = none ∧ (r, other) ∈ l.votes then l.weight r else 0) +
          if r = v then (if other = w then l.weight v else 0) else 0) :=
        Finset.sum_congr rfl hpoint
    _ = l.support other + if other = w then l.weight v else 0 := by
        rw [Finset.sum_add_distrib, Finset.sum_ite_eq' l.accounts v, if_pos hv]
        rfl

theorem Tallied.insertVote (h : l.Tallied) {v w : AccountName} (hv : v ∈ l.accounts)
    (hproxy : l.proxyOf v = none) (hnew : (v, w) ∉ l.votes) :
    ({ l with
      votes := insert (v, w) l.votes
      tally := Function.update l.tally w (l.tally w + l.weight v) } : VoteLedger).Tallied := by
  refine ⟨h.proxied, fun other ↦ ?_⟩
  have hsupport := support_insert hv hproxy hnew other
  calc Function.update l.tally w (l.tally w + l.weight v) other
      = l.tally other + if other = w then l.weight v else 0 := by
        rw [Function.update_apply]
        split_ifs with hother
        · rw [hother]
        · rw [add_zero]
    _ = l.support other + if other = w then l.weight v else 0 := by rw [h.tally other]
    _ = _ := hsupport.symm

theorem Tallied.eraseVote (h : l.Tallied) {v w : AccountName} (hv : v ∈ l.accounts)
    (hproxy : l.proxyOf v = none) (hold : (v, w) ∈ l.votes) :
    ({ l with
      votes := l.votes.erase (v, w)
      tally := Function.update l.tally w (l.tally w - l.weight v) } : VoteLedger).Tallied := by
  refine ⟨h.proxied, fun other ↦ ?_⟩
  have herased : ({ l with votes := insert (v, w) (l.votes.erase (v, w)) } : VoteLedger).support
      other = _ := support_insert (l := { l with votes := l.votes.erase (v, w) }) hv hproxy
        (Finset.notMem_erase _ _) other
  rw [Finset.insert_erase hold] at herased
  have hweight : ({ l with votes := l.votes.erase (v, w) } : VoteLedger).weight v =
      l.weight v := rfl
  rw [hweight] at herased
  calc Function.update l.tally w (l.tally w - l.weight v) other
      = l.support other - if other = w then l.weight v else 0 := by
        rw [Function.update_apply]
        split_ifs with hother
        · rw [hother, h.tally w]
        · rw [sub_zero, h.tally other]
    _ = _ := by
        rw [herased, add_sub_cancel_right]
        rfl

theorem WellFormed.insertVote (hwf : l.WellFormed) {v w : AccountName} (hv : v ∈ l.accounts)
    (hproxy : l.proxyOf v = none) :
    ({ l with votes := insert (v, w) l.votes } : VoteLedger).WellFormed := by
  refine ⟨hwf.proxies, hwf.acyclic, fun a other hvote ↦ ?_⟩
  rcases Finset.mem_insert.1 hvote with heq | hold
  · cases heq
    exact ⟨hv, hproxy⟩
  · exact hwf.voters a other hold

theorem WellFormed.eraseVote (hwf : l.WellFormed) (vote : AccountName × AccountName) :
    ({ l with votes := l.votes.erase vote } : VoteLedger).WellFormed :=
  ⟨hwf.proxies, hwf.acyclic, fun a w hvote ↦ hwf.voters a w (Finset.mem_of_mem_erase hvote)⟩

/-! ## New accounts -/

/-- An account that nobody has as a proxy and that has not voted brings nothing with it. -/
theorem Tallied.insertAccount (h : l.Tallied) (hwf : l.WellFormed) {v : AccountName}
    (hnew : v ∉ l.accounts) (hstake : l.stake v = 0) :
    ({ l with accounts := insert v l.accounts } : VoteLedger).Tallied := by
  have hlevel : ∀ d a, ({ l with accounts := insert v l.accounts } : VoteLedger).level d a =
      l.level d a := by
    intro d a
    calc ∑ b ∈ insert v l.accounts, (if climb l.proxyOf d b = some a then l.stake b else 0)
        = ∑ b ∈ l.accounts, (if climb l.proxyOf d b = some a then l.stake b else 0) := by
          rw [Finset.sum_insert hnew, hstake, ite_self, zero_add]
      _ = l.level d a := rfl
  have hweight : ∀ a, ({ l with accounts := insert v l.accounts } : VoteLedger).weight a =
      l.weight a := by
    intro a
    simp only [weight, treeSum]
    exact Finset.sum_congr rfl fun d _ ↦ hlevel d a
  refine ⟨fun a j ↦ ?_, fun w ↦ ?_⟩
  · rw [hlevel]
    exact h.proxied a j
  · have hvote : (v, w) ∉ l.votes := fun hvote ↦ hnew (hwf.voters v w hvote).1
    calc l.tally w = ∑ r ∈ l.accounts, (if l.proxyOf r = none ∧ (r, w) ∈ l.votes then
          l.weight r else 0) := h.tally w
      _ = ∑ r ∈ insert v l.accounts, (if l.proxyOf r = none ∧ (r, w) ∈ l.votes then
          l.weight r else 0) := by
          rw [Finset.sum_insert hnew, if_neg (fun hv ↦ hvote hv.2), zero_add]
      _ = ∑ r ∈ insert v l.accounts, (if l.proxyOf r = none ∧ (r, w) ∈ l.votes then
          ({ l with accounts := insert v l.accounts } : VoteLedger).weight r else 0) :=
          Finset.sum_congr rfl fun r _ ↦ by rw [hweight]

theorem WellFormed.insertAccount (hwf : l.WellFormed) (v : AccountName) :
    ({ l with accounts := insert v l.accounts } : VoteLedger).WellFormed :=
  ⟨fun a p hp ↦ Finset.mem_insert_of_mem (hwf.proxies a p hp), hwf.acyclic,
    fun a w hvote ↦ ⟨Finset.mem_insert_of_mem (hwf.voters a w hvote).1, (hwf.voters a w hvote).2⟩⟩

end VoteLedger

end SophiaTX.Chain
