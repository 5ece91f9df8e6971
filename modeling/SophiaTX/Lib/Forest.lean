import Mathlib.Algebra.BigOperators.Intervals
import Mathlib.Algebra.BigOperators.Pi
import Mathlib.Algebra.BigOperators.Group.Finset.Sigma

/-!
# Weights along parent pointers

Every node has a weight and at most one parent. What stands at a given distance below a node is a
sum over the nodes whose chain of parents reaches it in that many steps, and a node without a
parent stands for everything down to a limit. Two changes are described by what they push up the
chain of one node: a change of its weight, and cutting it off from its parent.
-/

open scoped BigOperators

namespace SophiaTX.Lib

universe u v

variable {V : Type u}

/-! ## Chains of parents -/

/-- The node reached after a number of steps. -/
def climb (parent : V → Option V) : ℕ → V → Option V
  | 0, v => some v
  | n + 1, v => (parent v).bind (climb parent n)

@[simp]
theorem climb_zero (parent : V → Option V) (v : V) : climb parent 0 v = some v := rfl

theorem climb_succ (parent : V → Option V) (n : ℕ) (v : V) :
    climb parent (n + 1) v = (parent v).bind (climb parent n) := rfl

theorem climb_succ_of_root {parent : V → Option V} {v : V} (h : parent v = none) (n : ℕ) :
    climb parent (n + 1) v = none := by
  rw [climb_succ, h, Option.bind_none]

theorem climb_succ_of_parent {parent : V → Option V} {v p : V} (h : parent v = some p) (n : ℕ) :
    climb parent (n + 1) v = climb parent n p := by
  rw [climb_succ, h, Option.bind_some]

/-- The last step of a chain. -/
theorem climb_succ_last (parent : V → Option V) (n : ℕ) (v : V) :
    climb parent (n + 1) v = (climb parent n v).bind parent := by
  induction n generalizing v with
  | zero =>
    rw [climb_succ, climb_zero, Option.bind_some]
    cases parent v <;> rfl
  | succ n ih =>
    cases hparent : parent v with
    | none => rw [climb_succ_of_root hparent, climb_succ_of_root hparent, Option.bind_none]
    | some p => rw [climb_succ_of_parent hparent, climb_succ_of_parent hparent, ih]

theorem climb_mem {parent : V → Option V} {nodes : Finset V}
    (hclosed : ∀ u p, parent u = some p → p ∈ nodes) {v a : V} (hv : v ∈ nodes) {n : ℕ}
    (h : climb parent n v = some a) : a ∈ nodes := by
  cases n with
  | zero => exact Option.some.inj h ▸ hv
  | succ n =>
    rw [climb_succ_last] at h
    obtain ⟨u, _, hu⟩ := Option.bind_eq_some_iff.1 h
    exact hclosed u a hu

/-- No node is above itself. -/
def Acyclic (parent : V → Option V) : Prop :=
  ∀ v n, climb parent (n + 1) v ≠ some v

theorem climb_add (parent : V → Option V) (m n : ℕ) (v : V) :
    climb parent (m + n) v = (climb parent m v).bind (climb parent n) := by
  induction m generalizing v with
  | zero => rw [Nat.zero_add, climb_zero, Option.bind_some]
  | succ m ih =>
    rw [Nat.add_right_comm, climb_succ, climb_succ]
    cases parent v with
    | none => rfl
    | some p => exact ih p

/-- Among finitely many nodes every chain comes to an end. -/
theorem Acyclic.exists_climb_eq_none {parent : V → Option V} (h : Acyclic parent)
    {nodes : Finset V} (hclosed : ∀ u p, parent u = some p → p ∈ nodes) (v : V) :
    ∃ n, climb parent n v = none := by
  by_contra hnever
  have hsome : ∀ n, ∃ u, climb parent n v = some u :=
    fun n ↦ Option.ne_none_iff_exists'.1 fun hnone ↦ hnever ⟨n, hnone⟩
  choose chain hchain using hsome
  -- All later nodes are among finitely many, so two of them are the same.
  have hmaps : ∀ n ∈ Finset.range (nodes.card + 1), chain (n + 1) ∈ nodes := by
    intro n _
    have hlast := hchain (n + 1)
    rw [climb_succ_last] at hlast
    obtain ⟨u, _, hu⟩ := Option.bind_eq_some_iff.1 hlast
    exact hclosed u _ hu
  have hcard : nodes.card < (Finset.range (nodes.card + 1)).card := by
    rw [Finset.card_range]
    exact Nat.lt_succ_self _
  obtain ⟨i, _, j, _, hne, hsame⟩ :=
    Finset.exists_ne_map_eq_of_card_lt_of_maps_to hcard hmaps
  have hlater : ∀ i j, i < j → chain (i + 1) ≠ chain (j + 1) := by
    intro i j hlt hsame
    have hclimb := climb_add parent (i + 1) (j - i) v
    rw [show i + 1 + (j - i) = j + 1 by omega, hchain, hchain, Option.bind_some, ← hsame] at hclimb
    refine h (chain (i + 1)) (j - i - 1) ?_
    rw [show j - i - 1 + 1 = j - i by omega]
    exact hclimb.symm
  rcases Nat.lt_or_gt_of_ne hne with hlt | hlt
  · exact hlater i j hlt hsame
  · exact hlater j i hlt hsame.symm

variable [DecidableEq V]

/-- A chain that does not come to a node does not notice its parent. -/
theorem climb_update_of_avoids {parent : V → Option V} {v : V} (q : Option V) {n : ℕ} {u : V}
    (h : ∀ k < n, climb parent k u ≠ some v) :
    climb (Function.update parent v q) n u = climb parent n u := by
  induction n generalizing u with
  | zero => rfl
  | succ n ih =>
    have hne : u ≠ v := fun hu ↦ h 0 n.succ_pos (congrArg some hu)
    rw [climb_succ, climb_succ, Function.update_of_ne hne]
    cases hparent : parent u with
    | none => rfl
    | some p =>
      refine ih fun k hk ↦ ?_
      rw [← climb_succ_of_parent hparent]
      exact h (k + 1) (Nat.succ_lt_succ hk)

/-- A node that is cut off ends the chains that come to it; the others stay. -/
theorem climb_cut_eq_some {parent : V → Option V} {v u a : V} {n : ℕ}
    (h : climb (Function.update parent v none) n u = some a) : climb parent n u = some a := by
  induction n generalizing u with
  | zero => exact h
  | succ n ih =>
    by_cases hu : u = v
    · rw [climb_succ_of_root (by rw [hu, Function.update_self])] at h
      cases h
    · rw [climb_succ, Function.update_of_ne hu] at h
      obtain ⟨p, hp, hclimb⟩ := Option.bind_eq_some_iff.1 h
      rw [climb_succ_of_parent hp]
      exact ih hclimb

theorem Acyclic.cut {parent : V → Option V} (h : Acyclic parent) (v : V) :
    Acyclic (Function.update parent v none) :=
  fun u n hclimb ↦ h u n (climb_cut_eq_some hclimb)

/-- A node may be put below another one whose chain does not come to it. -/
theorem Acyclic.link {parent : V → Option V} (h : Acyclic parent) {v q : V}
    (hq : ∀ n, climb parent n q ≠ some v) :
    Acyclic (Function.update parent v (some q)) := by
  -- The chain above `v` is that above `q`, so `v` is not above itself.
  have hv : ∀ n, climb (Function.update parent v (some q)) (n + 1) v ≠ some v := by
    intro n
    rw [climb_succ_of_parent (Function.update_self v (some q) parent),
      climb_update_of_avoids _ fun k _ ↦ hq k]
    exact hq n
  intro u n hcycle
  by_cases havoids : ∀ k < n + 1, climb parent k u ≠ some v
  · rw [climb_update_of_avoids _ havoids] at hcycle
    exact h u n hcycle
  · -- A cycle through `v` is one from `v` to itself: go round from where `v` is met first.
    push Not at havoids
    classical
    obtain ⟨hlt, hmeets⟩ := Nat.find_spec havoids
    set k := Nat.find havoids with hk
    have hbefore : ∀ i < k, climb parent i u ≠ some v := fun i hi hclimb ↦
      Nat.find_min havoids hi ⟨hi.trans hlt, hclimb⟩
    have hnew : climb (Function.update parent v (some q)) k u = some v := by
      rw [climb_update_of_avoids _ hbefore, hmeets]
    have hcompose : ∀ {m : ℕ} {x y : V} (l : ℕ),
        climb (Function.update parent v (some q)) m x = some y →
          climb (Function.update parent v (some q)) (m + l) x =
            climb (Function.update parent v (some q)) l y := by
      intro m x y l hxy
      induction l with
      | zero => exact hxy
      | succ l ih => rw [← Nat.add_assoc, climb_succ_last, ih, ← climb_succ_last]
    have haround : climb (Function.update parent v (some q)) (n + 1 + k) u = some v := by
      rw [hcompose k hcycle, hnew]
    have hsplit : n + 1 + k = k + (n + 1) := Nat.add_comm _ _
    rw [hsplit, hcompose (n + 1) hnew] at haround
    exact hv n haround

/-! ## Sums by distance -/

section Sums

variable {M : Type v} [AddCommMonoid M] (parent : V → Option V) (nodes : Finset V) (weight : V → M)

/-- The weight at a distance below a node. -/
def levelSum (d : ℕ) (a : V) : M :=
  ∑ b ∈ nodes, if climb parent d b = some a then weight b else 0

/-- The weight down to a limit below a node, with its own. -/
def treeSum (limit : ℕ) (a : V) : M :=
  ∑ d ∈ Finset.range (limit + 1), levelSum parent nodes weight d a

/-- The weight down to a limit of the nodes without a parent that satisfy a predicate. -/
def rootSum (limit : ℕ) (p : V → Prop) [DecidablePred p] : M :=
  ∑ r ∈ nodes, if parent r = none ∧ p r then treeSum parent nodes weight limit r else 0

/-- What a node adds to the weight at distance `j + 1` below another, given what it adds at each
distance below itself. -/
def pushLevel (delta : ℕ → M) (v a : V) (j : ℕ) : M :=
  ∑ k ∈ Finset.range (j + 1), if climb parent (k + 1) v = some a then delta (j - k) else 0

/-- What a node adds to the root above it, if the root is within the limit. -/
def pushRoot (limit : ℕ) (p : V → Prop) [DecidablePred p] (delta : ℕ → M) (v : V) : M :=
  ∑ k ∈ Finset.range (limit + 1), (climb parent k v).elim 0 fun r ↦
    if parent r = none ∧ p r then ∑ i ∈ Finset.range (limit + 1 - k), delta i else 0

variable {parent nodes weight}

theorem levelSum_zero {a : V} (ha : a ∈ nodes) : levelSum parent nodes weight 0 a = weight a := by
  simp only [levelSum, climb_zero, Option.some.injEq]
  rw [Finset.sum_ite_eq' nodes a weight, if_pos ha]

/-- The chains that come to a node from below go on with the chain of the node. -/
theorem indicator_cut (v b a : V) (d : ℕ) (x : M) :
    (if climb parent (d + 1) b = some a then x else 0) =
      (if climb (Function.update parent v none) (d + 1) b = some a then x else 0) +
        ∑ k ∈ Finset.range (d + 1), if climb (Function.update parent v none) (d - k) b = some v then
          (if climb parent (k + 1) v = some a then x else 0) else 0 := by
  by_cases hb : b = v
  · subst hb
    have hroot : Function.update parent b none b = none := Function.update_self _ _ _
    rw [climb_succ_of_root hroot, if_neg (Option.some_ne_none a).symm, zero_add,
      Finset.sum_range_succ, Nat.sub_self, climb_zero, if_pos rfl, Finset.sum_eq_zero, zero_add]
    intro k hk
    obtain ⟨m, hm⟩ : ∃ m, d - k = m + 1 :=
      Nat.exists_eq_succ_of_ne_zero (Nat.sub_ne_zero_of_lt (Finset.mem_range.1 hk))
    rw [hm, climb_succ_of_root hroot, if_neg (Option.some_ne_none b).symm]
  · cases hparent : parent b with
    | none =>
      have hroot : Function.update parent v none b = none := by
        rw [Function.update_of_ne hb, hparent]
      rw [climb_succ_of_root hparent, climb_succ_of_root hroot, if_neg (Option.some_ne_none a).symm,
        zero_add, Finset.sum_eq_zero]
      intro k _
      cases d - k with
      | zero => rw [climb_zero, if_neg (fun h ↦ hb (Option.some.inj h))]
      | succ m => rw [climb_succ_of_root hroot, if_neg (Option.some_ne_none v).symm]
    | some p =>
      have hcut : Function.update parent v none b = some p := by
        rw [Function.update_of_ne hb, hparent]
      rw [climb_succ_of_parent hparent, climb_succ_of_parent hcut, Finset.sum_range_succ,
        Nat.sub_self, climb_zero, if_neg (fun h ↦ hb (Option.some.inj h)), add_zero]
      cases d with
      | zero => simp
      | succ d =>
        rw [indicator_cut v p a d x]
        congr 1
        apply Finset.sum_congr rfl
        intro k hk
        have hk : k ≤ d := Nat.lt_succ_iff.1 (Finset.mem_range.1 hk)
        rw [Nat.succ_sub hk, climb_succ_of_parent hcut]

/-- What a node that is cut off took with it. -/
theorem levelSum_cut (v a : V) (d : ℕ) :
    levelSum parent nodes weight (d + 1) a =
      levelSum (Function.update parent v none) nodes weight (d + 1) a +
        pushLevel parent (fun i ↦ levelSum (Function.update parent v none) nodes weight i v) v a
          d := by
  simp only [levelSum, pushLevel]
  rw [Finset.sum_congr rfl fun b _ ↦ indicator_cut v b a d (weight b), Finset.sum_add_distrib,
    Finset.sum_comm]
  congr 1
  apply Finset.sum_congr rfl
  intro k _
  split_ifs
  · rfl
  · simp

/-- What is below a node does not depend on its parent. -/
theorem levelSum_cut_self (h : Acyclic parent) (v : V) (d : ℕ) :
    levelSum (Function.update parent v none) nodes weight d v =
      levelSum parent nodes weight d v := by
  cases d with
  | zero => rfl
  | succ d =>
    have hcut : levelSum parent nodes weight (d + 1) v = _ := levelSum_cut v v d
    rw [hcut, pushLevel, Finset.sum_eq_zero, add_zero]
    intro k _
    rw [if_neg (h v k)]

/-- A change of one weight. -/
theorem levelSum_update {v : V} (hv : v ∈ nodes) (x : M) (d : ℕ) (a : V) :
    levelSum parent nodes (Function.update weight v (weight v + x)) d a =
      levelSum parent nodes weight d a + if climb parent d v = some a then x else 0 := by
  have hpoint : ∀ b ∈ nodes, (if climb parent d b = some a then
      Function.update weight v (weight v + x) b else 0) =
        (if climb parent d b = some a then weight b else 0) +
          if b = v then (if climb parent d v = some a then x else 0) else 0 := by
    intro b _
    by_cases hb : b = v
    · subst hb
      simp only [Function.update_self, if_pos]
      split_ifs <;> simp
    · rw [Function.update_of_ne hb, if_neg hb, add_zero]
  rw [levelSum, Finset.sum_congr rfl hpoint, Finset.sum_add_distrib, Finset.sum_ite_eq' nodes v,
    if_pos hv, levelSum]

/-! ## Sums over roots -/

theorem elim_eq_sum {o : Option V} (ho : ∀ a, o = some a → a ∈ nodes) (f : V → M) :
    o.elim 0 f = ∑ r ∈ nodes, if o = some r then f r else 0 := by
  cases o with
  | none => simp
  | some a =>
    simp only [Option.elim_some, Option.some.injEq]
    rw [Finset.sum_ite_eq nodes a f, if_pos (ho a rfl)]

variable {limit : ℕ} {p p' : V → Prop} [DecidablePred p] [DecidablePred p']

theorem rootSum_congr (h : ∀ r ∈ nodes, parent r = none → (p r ↔ p' r)) :
    rootSum parent nodes weight limit p = rootSum parent nodes weight limit p' := by
  apply Finset.sum_congr rfl
  intro r hr
  have hiff : parent r = none ∧ p r ↔ parent r = none ∧ p' r := and_congr_right (h r hr)
  simp only [hiff]

/-- What a node adds, root by root. -/
theorem pushRoot_eq_sum (hclosed : ∀ u q, parent u = some q → q ∈ nodes) {v : V} (hv : v ∈ nodes)
    (delta : ℕ → M) :
    pushRoot parent limit p delta v = ∑ r ∈ nodes, if parent r = none ∧ p r then
      ∑ k ∈ Finset.range (limit + 1), (if climb parent k v = some r then
        ∑ i ∈ Finset.range (limit + 1 - k), delta i else 0) else 0 := by
  have hstep : ∀ k, (climb parent k v).elim 0 (fun r ↦ if parent r = none ∧ p r then
      ∑ i ∈ Finset.range (limit + 1 - k), delta i else 0) =
      ∑ r ∈ nodes, if climb parent k v = some r then (if parent r = none ∧ p r then
        ∑ i ∈ Finset.range (limit + 1 - k), delta i else 0) else 0 :=
    fun k ↦ elim_eq_sum (fun _ h ↦ climb_mem hclosed hv h) _
  rw [pushRoot, Finset.sum_congr rfl fun k _ ↦ hstep k, Finset.sum_comm]
  apply Finset.sum_congr rfl
  intro r _
  by_cases hr : parent r = none ∧ p r
  · simp only [if_pos hr]
  · simp only [if_neg hr, ite_self, Finset.sum_const_zero]

/-- The weight of a root, before and after a node below it is cut off. -/
theorem treeSum_cut {v r : V} (hne : r ≠ v) :
    treeSum parent nodes weight limit r =
      treeSum (Function.update parent v none) nodes weight limit r +
        ∑ k ∈ Finset.range (limit + 1), if climb parent k v = some r then
          ∑ i ∈ Finset.range (limit + 1 - k),
            levelSum (Function.update parent v none) nodes weight i v else 0 := by
  set cut := Function.update parent v none
  have hzero : levelSum parent nodes weight 0 r = levelSum cut nodes weight 0 r := rfl
  rw [treeSum, treeSum, Finset.sum_range_succ',
    Finset.sum_range_succ' (fun d ↦ levelSum cut _ _ d r),
    Finset.sum_congr rfl fun d _ ↦ levelSum_cut v r d, Finset.sum_add_distrib, hzero,
    Finset.sum_range_succ' _ limit, climb_zero, if_neg (fun h ↦ hne (Option.some.inj h).symm)]
  -- Weights at distance `k + 1` below the root and `i` below the node, summed the other way round.
  have hflip : ∑ d ∈ Finset.range limit,
      pushLevel parent (fun i ↦ levelSum cut nodes weight i v) v r d =
      ∑ k ∈ Finset.range limit, if climb parent (k + 1) v = some r then
        ∑ i ∈ Finset.range (limit + 1 - (k + 1)), levelSum cut nodes weight i v else 0 := by
    simp only [pushLevel, Nat.add_sub_add_right]
    rw [Finset.sum_range_diag_flip limit fun k i ↦
      if climb parent (k + 1) v = some r then levelSum cut nodes weight i v else 0]
    apply Finset.sum_congr rfl
    intro k _
    split_ifs
    · rfl
    · simp
  rw [hflip, add_zero, add_right_comm]

/-- What the roots lose when a node is cut off and no longer counts as a root. -/
theorem rootSum_cut (hacyclic : Acyclic parent) (hclosed : ∀ u q, parent u = some q → q ∈ nodes)
    {v : V} (hv : v ∈ nodes) :
    rootSum parent nodes weight limit p =
      rootSum (Function.update parent v none) nodes weight limit (fun r ↦ p r ∧ r ≠ v) +
        pushRoot parent limit p (fun i ↦ levelSum parent nodes weight i v) v := by
  rw [rootSum, rootSum, pushRoot_eq_sum hclosed hv, ← Finset.sum_add_distrib]
  apply Finset.sum_congr rfl
  intro r _
  by_cases hr : r = v
  · subst hr
    simp only [ne_eq, not_true_eq_false, and_false, if_false, zero_add]
    have hself : ∑ k ∈ Finset.range (limit + 1), (if climb parent k r = some r then
        ∑ i ∈ Finset.range (limit + 1 - k), levelSum parent nodes weight i r else 0) =
        treeSum parent nodes weight limit r := by
      rw [Finset.sum_range_succ', Finset.sum_eq_zero, zero_add, climb_zero, if_pos rfl, treeSum,
        Nat.sub_zero]
      intro k _
      rw [if_neg (hacyclic r k)]
    rw [hself]
  · simp only [Function.update_of_ne hr, ne_eq, hr, not_false_eq_true, and_true]
    by_cases hroot : parent r = none ∧ p r
    · simp only [if_pos hroot]
      rw [treeSum_cut hr]
      simp only [levelSum_cut_self hacyclic v]
    · simp only [if_neg hroot, add_zero]

/-- A change of one weight moves up to the root above it. -/
theorem rootSum_update (hclosed : ∀ u q, parent u = some q → q ∈ nodes) {v : V} (hv : v ∈ nodes)
    (x : M) :
    rootSum parent nodes (Function.update weight v (weight v + x)) limit p =
      rootSum parent nodes weight limit p + pushRoot parent limit p (Pi.single 0 x) v := by
  rw [rootSum, rootSum, pushRoot_eq_sum hclosed hv, ← Finset.sum_add_distrib]
  apply Finset.sum_congr rfl
  intro r _
  by_cases hroot : parent r = none ∧ p r
  · simp only [if_pos hroot, treeSum]
    rw [Finset.sum_congr rfl fun d _ ↦ levelSum_update hv x d r, Finset.sum_add_distrib]
    congr 1
    apply Finset.sum_congr rfl
    intro k hk
    have hpos : 0 < limit + 1 - k := Nat.sub_pos_of_lt (Finset.mem_range.1 hk)
    rw [Finset.sum_pi_single' 0 x, if_pos (Finset.mem_range.2 hpos)]
  · simp only [if_neg hroot, add_zero]

/-! ## Pushing step by step -/

/-- A sequence that starts a number of steps later. -/
def delayed (delta : ℕ → M) (steps j : ℕ) : M :=
  if steps ≤ j then delta (j - steps) else 0

omit [DecidableEq V] in
theorem delayed_succ (delta : ℕ → M) (steps j : ℕ) :
    delayed (delayed delta steps) 1 j = delayed delta (steps + 1) j := by
  cases j with
  | zero => simp [delayed]
  | succ j => simp [delayed]

omit [DecidableEq V] in
@[simp]
theorem delayed_zero (delta : ℕ → M) : delayed delta 0 = delta := by
  funext j
  simp [delayed]

theorem pushLevel_of_root {v : V} (h : parent v = none) (delta : ℕ → M) (a : V) (j : ℕ) :
    pushLevel parent delta v a j = 0 := by
  apply Finset.sum_eq_zero
  intro k _
  rw [climb_succ_of_root h, if_neg (Option.some_ne_none a).symm]

/-- The parent gets everything, what is above it the rest. -/
theorem pushLevel_of_parent {v q : V} (h : parent v = some q) (delta : ℕ → M) (a : V) (j : ℕ) :
    pushLevel parent delta v a j =
      (if q = a then delta j else 0) + pushLevel parent (delayed delta 1) q a j := by
  have hlast : delayed delta 1 (j - j) = 0 := by simp [delayed]
  rw [pushLevel, pushLevel, Finset.sum_range_succ', Finset.sum_range_succ, hlast,
    ite_self, add_zero,
    climb_succ_of_parent h, climb_zero, Nat.sub_zero, add_comm]
  simp only [Option.some.injEq]
  congr 1
  apply Finset.sum_congr rfl
  intro k hk
  have hk : k < j := Finset.mem_range.1 hk
  have hdelayed : delayed delta 1 (j - k) = delta (j - (k + 1)) := by
    rw [delayed, if_pos (Nat.le_sub_of_add_le' hk), Nat.sub_sub]
  rw [climb_succ_of_parent h, hdelayed]

theorem pushLevel_eq_zero {delta : ℕ → M} {j : ℕ} (h : ∀ i ≤ j, delta i = 0) (v a : V) :
    pushLevel parent delta v a j = 0 := by
  apply Finset.sum_eq_zero
  intro k _
  rw [h (j - k) (Nat.sub_le j k), ite_self]

theorem pushLevel_congr {delta delta' : ℕ → M} {j : ℕ} (h : ∀ i ≤ j, delta i = delta' i)
    (v a : V) : pushLevel parent delta v a j = pushLevel parent delta' v a j := by
  apply Finset.sum_congr rfl
  intro k _
  rw [h (j - k) (Nat.sub_le j k)]

omit [DecidableEq V] in
theorem pushRoot_of_root {v : V} (h : parent v = none) (delta : ℕ → M) :
    pushRoot parent limit p delta v =
      if p v then ∑ i ∈ Finset.range (limit + 1), delta i else 0 := by
  rw [pushRoot, Finset.sum_range_succ', Finset.sum_eq_zero, zero_add]
  · simp [h]
  · intro k _
    rw [climb_succ_of_root h, Option.elim_none]

omit [DecidableEq V] in
theorem pushRoot_zero_of_parent {v q : V} (h : parent v = some q) (delta : ℕ → M) :
    pushRoot parent 0 p delta v = 0 := by
  simp [pushRoot, h]

omit [DecidableEq V] in
theorem pushRoot_of_parent {v q : V} (h : parent v = some q) (delta : ℕ → M) :
    pushRoot parent (limit + 1) p delta v = pushRoot parent limit p delta q := by
  rw [pushRoot, Finset.sum_range_succ', pushRoot]
  simp only [climb_zero, Option.elim_some, h, reduceCtorEq, false_and, if_false, add_zero,
    Nat.add_sub_add_right, climb_succ_of_parent h]

omit [DecidableEq V] in
theorem pushRoot_congr {delta delta' : ℕ → M} (h : ∀ i ≤ limit, delta i = delta' i) (v : V) :
    pushRoot parent limit p delta v = pushRoot parent limit p delta' v := by
  have hsum : ∀ k, ∑ i ∈ Finset.range (limit + 1 - k), delta i =
      ∑ i ∈ Finset.range (limit + 1 - k), delta' i := by
    intro k
    apply Finset.sum_congr rfl
    intro i hi
    have hi := Finset.mem_range.1 hi
    exact h i (by omega)
  simp only [pushRoot, hsum]

theorem pushLevel_single (x : M) (v a : V) (j : ℕ) :
    pushLevel parent (Pi.single 0 x) v a j =
      if climb parent (j + 1) v = some a then x else 0 := by
  rw [pushLevel, Finset.sum_range_succ, Nat.sub_self, Pi.single_eq_same, Finset.sum_eq_zero,
    zero_add]
  intro k hk
  rw [Pi.single_eq_of_ne (Nat.sub_ne_zero_of_lt (Finset.mem_range.1 hk)), ite_self]

end Sums

section Neg

variable {M : Type v} [AddCommGroup M] {parent : V → Option V}

theorem pushLevel_neg (delta : ℕ → M) (v a : V) (j : ℕ) :
    pushLevel parent (fun i ↦ -delta i) v a j = -pushLevel parent delta v a j := by
  rw [pushLevel, pushLevel, ← Finset.sum_neg_distrib]
  apply Finset.sum_congr rfl
  intro k _
  split_ifs <;> simp

omit [DecidableEq V] in
theorem pushRoot_neg {limit : ℕ} {p : V → Prop} [DecidablePred p] (delta : ℕ → M) (v : V) :
    pushRoot parent limit p (fun i ↦ -delta i) v = -pushRoot parent limit p delta v := by
  rw [pushRoot, pushRoot, ← Finset.sum_neg_distrib]
  apply Finset.sum_congr rfl
  intro k _
  cases climb parent k v with
  | none => simp
  | some r =>
    simp only [Option.elim_some, Finset.sum_neg_distrib]
    split_ifs <;> simp

end Neg

section Ordered

variable {M : Type v} [AddCommMonoid M] [PartialOrder M] {parent : V → Option V}

omit [DecidableEq V] in
/-- A single weight comes to one root at most. -/
theorem pushRoot_single_mem {limit : ℕ} {p : V → Prop} [DecidablePred p] {x : M} (hx : 0 ≤ x)
    (v : V) : 0 ≤ pushRoot parent limit p (Pi.single 0 x) v ∧
      pushRoot parent limit p (Pi.single 0 x) v ≤ x := by
  induction limit generalizing v with
  | zero =>
    cases hv : parent v with
    | none =>
      rw [pushRoot_of_root hv]
      split_ifs <;> simp [hx]
    | some q =>
      rw [pushRoot_zero_of_parent hv]
      exact ⟨le_rfl, hx⟩
  | succ limit ih =>
    cases hv : parent v with
    | none =>
      rw [pushRoot_of_root hv]
      split_ifs <;> simp [hx]
    | some q =>
      rw [pushRoot_of_parent hv]
      exact ih q

end Ordered

end SophiaTX.Lib
