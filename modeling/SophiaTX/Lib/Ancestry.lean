import Mathlib.Logic.Relation
import Mathlib.Data.List.Basic
import Mathlib.Order.Basic
import Mathlib.Tactic.Common

/-!
# Ancestry in a graded forest

A parent is one step lower than its child, and no node has two parents. A branch goes from a node
to a child of one of its ancestors; two branches that end below the same node in different
children have nothing in common and leave their most recent common ancestor there.
-/

namespace SophiaTX.Lib

universe u

variable {V : Type u}

abbrev Ancestor (Parent : V → V → Prop) : V → V → Prop := Relation.ReflTransGen Parent

/-- The last of the common ancestors of two nodes. -/
structure MostRecentCommonAncestor (Parent : V → V → Prop) (v w p : V) : Prop where
  left : Ancestor Parent p v
  right : Ancestor Parent p w
  ancestor : ∀ a, Ancestor Parent a v → Ancestor Parent a w → Ancestor Parent a p

/-- The nodes from `v` upwards, as far as a child of `p`. -/
inductive Branch (Parent : V → V → Prop) : V → List V → V → Prop
  | single {v p : V} (h : Parent p v) : Branch Parent v [v] p
  | cons {v u p : V} {l : List V} (h : Parent u v) (hrest : Branch Parent u l p) :
      Branch Parent v (v :: l) p

/-- One parent at most, one step lower than the child. -/
structure Graded (Parent : V → V → Prop) (height : V → ℕ) : Prop where
  height_child : ∀ {p v}, Parent p v → height v = height p + 1
  parent_unique : ∀ {p q v}, Parent p v → Parent q v → p = q

variable {Parent : V → V → Prop} {height : V → ℕ} {v w p q a b : V} {l l' : List V}

namespace Graded

theorem height_le (h : Graded Parent height) (ha : Ancestor Parent a v) :
    height a ≤ height v := by
  induction ha with
  | refl => exact Nat.le_refl _
  | tail _ hchild ih =>
    rw [h.height_child hchild]
    exact Nat.le_succ_of_le ih

theorem height_lt (h : Graded Parent height) (ha : Ancestor Parent a v) (hne : a ≠ v) :
    height a < height v := by
  cases ha with
  | refl => exact absurd rfl hne
  | tail hpath hchild =>
    rw [h.height_child hchild]
    exact Nat.lt_succ_of_le (h.height_le hpath)

/-- A proper ancestor is an ancestor of the parent. -/
theorem ancestor_parent (h : Graded Parent height) (hp : Parent p v) (ha : Ancestor Parent a v)
    (hne : a ≠ v) : Ancestor Parent a p := by
  cases ha with
  | refl => exact absurd rfl hne
  | tail hpath hchild => exact h.parent_unique hp hchild ▸ hpath

/-- A node has one ancestor at a height. -/
theorem ancestor_eq (h : Graded Parent height) (ha : Ancestor Parent a v)
    (hb : Ancestor Parent b v) (hheight : height a = height b) : a = b := by
  induction ha with
  | refl =>
    by_contra hne
    exact absurd hheight (Nat.ne_of_gt (h.height_lt hb (Ne.symm hne)))
  | @tail u v hpath hchild ih =>
    have hlower : height a < height v := by
      rw [h.height_child hchild]
      exact Nat.lt_succ_of_le (h.height_le hpath)
    have hne : b ≠ v := fun hbv ↦ absurd (hbv ▸ hheight) (Nat.ne_of_lt hlower)
    exact ih (h.ancestor_parent hchild hb hne)

end Graded

namespace Branch

theorem ne_nil (h : Branch Parent v l p) : l ≠ [] := by
  cases h <;> exact List.cons_ne_nil _ _

theorem head?_eq (h : Branch Parent v l p) : l.head? = some v := by
  cases h <;> rfl

theorem ancestor (h : Branch Parent v l p) : Ancestor Parent p v := by
  induction h with
  | single h => exact .single h
  | cons h _ ih => exact ih.tail h

theorem mem_ancestor (h : Branch Parent v l p) (ha : a ∈ l) : Ancestor Parent a v := by
  induction h with
  | single _ => exact List.mem_singleton.1 ha ▸ .refl
  | cons h _ ih =>
    rcases List.mem_cons.1 ha with rfl | ha
    · exact .refl
    · exact (ih ha).tail h

theorem exists_last (h : Branch Parent v l p) : ∃ u, l.getLast? = some u ∧ Parent p u := by
  induction h with
  | single h => exact ⟨_, rfl, h⟩
  | cons _ hrest ih =>
    obtain ⟨u, hlast, hu⟩ := ih
    refine ⟨u, ?_, hu⟩
    rw [List.getLast?_cons, hlast]
    rfl

/-- The end of a branch is above all of it. -/
theorem last_ancestor (h : Branch Parent v l p) {u : V} (hlast : l.getLast? = some u)
    (ha : a ∈ l) : Ancestor Parent u a := by
  induction h generalizing a with
  | single _ =>
    obtain rfl := List.mem_singleton.1 ha
    obtain rfl := Option.some.inj hlast
    exact .refl
  | @cons v w p l hstep hrest ih =>
    have hlast' : l.getLast? = some u := by
      obtain ⟨x, hx⟩ := Option.ne_none_iff_exists'.1 fun hnone ↦
        hrest.ne_nil (List.getLast?_eq_none_iff.1 hnone)
      rw [List.getLast?_cons, hx] at hlast
      rw [hx]
      exact hlast
    rcases List.mem_cons.1 ha with rfl | ha
    · exact (ih hlast' (List.mem_of_mem_head? (Option.mem_def.2 hrest.head?_eq))).tail hstep
    · exact ih hlast' ha

/-- An ancestor is on the branch or above it. -/
theorem ancestor_cases (h : Branch Parent v l p) (hgraded : Graded Parent height)
    (ha : Ancestor Parent a v) : a ∈ l ∨ Ancestor Parent a p := by
  induction h with
  | @single v p h =>
    by_cases hne : a = v
    · exact .inl (List.mem_singleton.2 hne)
    · exact .inr (hgraded.ancestor_parent h ha hne)
  | @cons v u p l h _ ih =>
    by_cases hne : a = v
    · exact .inl (List.mem_cons.2 (.inl hne))
    · exact (ih (hgraded.ancestor_parent h ha hne)).imp (List.mem_cons_of_mem _) id

/-- Branches that end in different children of one node have nothing in common. -/
theorem disjoint (h : Branch Parent v l p) (h' : Branch Parent w l' p)
    (hgraded : Graded Parent height) (hlast : l.getLast? ≠ l'.getLast?) : l.Disjoint l' := by
  intro a ha ha'
  obtain ⟨u, hu, hparent⟩ := h.exists_last
  obtain ⟨u', hu', hparent'⟩ := h'.exists_last
  have hheight : height u = height u' := by
    rw [hgraded.height_child hparent, hgraded.height_child hparent']
  have hsame : u = u' :=
    hgraded.ancestor_eq (h.last_ancestor hu ha) (h'.last_ancestor hu' ha') hheight
  exact hlast (hu.trans ((congrArg some hsame).trans hu'.symm))

theorem mostRecentCommonAncestor (h : Branch Parent v l p) (h' : Branch Parent w l' p)
    (hgraded : Graded Parent height) (hdisjoint : l.Disjoint l') :
    MostRecentCommonAncestor Parent v w p where
  left := h.ancestor
  right := h'.ancestor
  ancestor := by
    intro a ha ha'
    rcases h.ancestor_cases hgraded ha with hmem | habove
    · exact (h'.ancestor_cases hgraded ha').resolve_left fun hmem' ↦ hdisjoint hmem hmem'
    · exact habove

end Branch

end SophiaTX.Lib
