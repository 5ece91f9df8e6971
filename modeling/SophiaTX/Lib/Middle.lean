import Mathlib.Data.List.Sort

/-!
# Places in an order

Where an entry stands when a list is put in the order of its keys; and a window over the latest
entries of a list that grows.
-/

namespace SophiaTX.Lib

universe u v

variable {α : Type u} {K : Type v} [LinearOrder K] {key : α → K} {k : ℕ} {l l' : List α} {x : α}

/-- At most `k` entries have to stand before this one, and the places behind it are enough for those
that have to stand there. -/
def RanksAt (key : α → K) (k : ℕ) (l : List α) (x : α) : Prop :=
  x ∈ l ∧ (l.countP fun a ↦ decide (key a < key x)) ≤ k ∧
    (l.countP fun a ↦ decide (key x < key a)) + k < l.length

theorem RanksAt.perm (h : l.Perm l') (hx : RanksAt key k l x) : RanksAt key k l' x := by
  obtain ⟨hmem, hbelow, habove⟩ := hx
  refine ⟨h.mem_iff.1 hmem, ?_, ?_⟩
  · rwa [← h.countP_eq]
  · rwa [← h.countP_eq, ← h.length_eq]

/-- The entry at position `k` of a list in order. -/
theorem RanksAt.of_pairwise (h : l.Pairwise fun a b ↦ key a ≤ key b) (hx : l[k]? = some x) :
    RanksAt key k l x := by
  obtain ⟨hk, hget⟩ := List.getElem?_eq_some_iff.1 hx
  have hsplit : l = l.take k ++ x :: l.drop (k + 1) := by
    rw [← hget, ← List.drop_eq_getElem_cons hk, List.take_append_drop]
  rw [hsplit, List.pairwise_append, List.pairwise_cons] at h
  obtain ⟨_, ⟨hbehind, _⟩, hbefore⟩ := h
  have hnone : (l.drop (k + 1)).countP (fun a ↦ decide (key a < key x)) = 0 := by
    rw [List.countP_eq_zero]
    intro a ha
    simpa using hbehind a ha
  have hnone' : (l.take k).countP (fun a ↦ decide (key x < key a)) = 0 := by
    rw [List.countP_eq_zero]
    intro a ha
    simpa using hbefore a ha x List.mem_cons_self
  refine ⟨List.mem_of_getElem? hx, ?_, ?_⟩
  · calc (l.countP fun a ↦ decide (key a < key x))
        = (l.take k).countP fun a ↦ decide (key a < key x) := by
          conv_lhs => rw [hsplit]
          simp [hnone]
      _ ≤ (l.take k).length := List.countP_le_length
      _ ≤ k := List.length_take_le k l
  · have hcount : (l.countP fun a ↦ decide (key x < key a)) ≤ (l.drop (k + 1)).length := by
      calc (l.countP fun a ↦ decide (key x < key a))
          = (l.drop (k + 1)).countP fun a ↦ decide (key x < key a) := by
            conv_lhs => rw [hsplit]
            simp [hnone']
        _ ≤ (l.drop (k + 1)).length := List.countP_le_length
    rw [List.length_drop] at hcount
    omega

/-- The entry in the middle of a list, the upper one of two. -/
def IsMiddle (key : α → K) (l : List α) (x : α) : Prop := RanksAt key (l.length / 2) l x

/-- Sorting finds it. -/
theorem IsMiddle.of_insertionSort
    (hx : (l.insertionSort fun a b ↦ key a ≤ key b)[l.length / 2]? = some x) :
    IsMiddle key l x := by
  have : Std.Total fun a b : α ↦ key a ≤ key b := ⟨fun a b ↦ le_total (key a) (key b)⟩
  have : IsTrans α fun a b ↦ key a ≤ key b := ⟨fun _ _ _ ↦ le_trans⟩
  exact (RanksAt.of_pairwise (List.pairwise_insertionSort _ l) hx).perm
    (List.perm_insertionSort _ l)

/-- What is written behind the window pushes out what no longer fits. -/
theorem drop_window (l : List α) (x : α) {n : ℕ} (hn : 0 < n) :
    ((l.take n).reverse ++ [x]).drop ((l.take n).reverse.length + 1 - n) =
      ((x :: l).take n).reverse := by
  obtain ⟨n, rfl⟩ := Nat.exists_eq_add_one_of_ne_zero hn.ne'
  have hlength : (l.take (n + 1)).length ≤ n + 1 := List.length_take_le (n + 1) l
  rw [← List.reverse_cons, List.drop_reverse, List.length_cons, List.length_reverse,
    List.take_succ_cons]
  generalize hfit : (l.take (n + 1)).length = fit at hlength
  have hfit' : fit + 1 - (fit + 1 - (n + 1)) = min fit n + 1 := by omega
  rw [hfit', List.take_succ_cons, List.take_take, ← hfit, List.length_take]
  refine congrArg (fun l ↦ (x :: l).reverse) ?_
  rw [List.take_eq_take_iff]
  omega

end SophiaTX.Lib
