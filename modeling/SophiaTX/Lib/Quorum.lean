import Mathlib.Data.Finset.Card
import Mathlib.Data.List.Sort

/-!
# Quorums

When the entry at position `k` of a sorted list lies above a bound, at most `k` entries do not.
Two groups that each leave out at most `f` of the members have all but `2 * f` of them in common.
-/

namespace SophiaTX.Lib

universe u

/-- All but `k` entries exceed a bound that the entry at position `k` exceeds. -/
theorem length_sub_le_countP {α : Type u} [LinearOrder α] {l : List α} {k : ℕ} {bound x : α}
    (hx : (l.insertionSort (· ≤ ·))[k]? = some x) (hbound : bound < x) :
    l.length - k ≤ l.countP fun a ↦ decide (bound < a) := by
  obtain ⟨hk, hget⟩ := List.getElem?_eq_some_iff.1 hx
  have hsorted : (l.insertionSort (· ≤ ·)).Pairwise (· ≤ ·) :=
    List.pairwise_insertionSort (· ≤ ·) l
  have habove : ∀ a ∈ (l.insertionSort (· ≤ ·)).drop k, decide (bound < a) = true := by
    intro a ha
    rw [List.drop_eq_getElem_cons hk, hget] at ha
    have hdrop : (x :: (l.insertionSort (· ≤ ·)).drop (k + 1)).Pairwise (· ≤ ·) := by
      rw [← hget, ← List.drop_eq_getElem_cons hk]
      exact hsorted.drop
    rcases List.mem_cons.1 ha with rfl | ha
    · exact decide_eq_true hbound
    · exact decide_eq_true (hbound.trans_le ((List.pairwise_cons.1 hdrop).1 a ha))
  calc l.length - k
      = ((l.insertionSort (· ≤ ·)).drop k).length := by
        rw [List.length_drop, List.length_insertionSort]
    _ = ((l.insertionSort (· ≤ ·)).drop k).countP fun a ↦ decide (bound < a) :=
        (List.countP_eq_length.2 habove).symm
    _ ≤ (l.insertionSort (· ≤ ·)).countP fun a ↦ decide (bound < a) :=
        (List.drop_sublist k _).countP_le
    _ = l.countP fun a ↦ decide (bound < a) :=
        (List.perm_insertionSort (· ≤ ·) l).countP_eq _

/-- Two quorums meet. -/
theorem card_sub_le_card_inter {α : Type u} [DecidableEq α] {members a b : Finset α} {f : ℕ}
    (ha : a ⊆ members) (hb : b ⊆ members) (hacard : members.card - f ≤ a.card)
    (hbcard : members.card - f ≤ b.card) : members.card - 2 * f ≤ (a ∩ b).card := by
  have hunion : (a ∪ b).card ≤ members.card := Finset.card_le_card (Finset.union_subset ha hb)
  have hcount := Finset.card_inter_add_card_union a b
  omega

end SophiaTX.Lib
