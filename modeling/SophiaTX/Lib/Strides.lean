import Mathlib.Data.List.Chain
import Mathlib.Tactic.Common

/-!
# Strides to a bound

Going up to a bound, each stride covers a little more than half of what is left: it never goes over
the bound before it has come to it. Sampling a list in such strides thins it out towards its start
and keeps its end.
-/

namespace SophiaTX.Lib

variable {low high n : ℕ}

def nextStride (high low : ℕ) : ℕ := low + (high - low + 2) / 2

theorem lt_nextStride (high low : ℕ) : low < nextStride high low := by
  unfold nextStride
  omega

theorem nextStride_le (h : low < high) : nextStride high low ≤ high := by
  unfold nextStride
  omega

/-- The numbers that are stepped on, from `low` up to the bound. -/
def strides (high low : ℕ) : List ℕ :=
  if low < high then low :: strides high (nextStride high low) else [low]
termination_by high - low
decreasing_by
  have hnext := lt_nextStride high low
  omega

theorem strides_of_lt (h : low < high) :
    strides high low = low :: strides high (nextStride high low) := by
  rw [strides, if_pos h]

@[simp]
theorem strides_self (high : ℕ) : strides high high = [high] := by
  rw [strides, if_neg (Nat.lt_irrefl high)]

/-! ## Samples of a list -/

universe u

variable {α : Type u} {l : List α} {x : α}

/-- The elements of a list that are stepped on, counted from 1. -/
def samples (l : List α) (low : ℕ) : List α :=
  (strides l.length low).filterMap fun n ↦ l[n - 1]?

theorem samples_of_lt (h : low < l.length) (hx : l[low - 1]? = some x) :
    samples l low = x :: samples l (nextStride l.length low) := by
  rw [samples, strides_of_lt h, List.filterMap_cons, hx]
  rfl

theorem samples_length (hx : l[l.length - 1]? = some x) : samples l l.length = [x] := by
  rw [samples, strides_self, List.filterMap_cons, hx]
  rfl

theorem exists_getElem? (hpos : 0 < low) (hlow : low ≤ l.length) : ∃ x, l[low - 1]? = some x :=
  ⟨l[low - 1], List.getElem?_eq_getElem (by omega)⟩

theorem drop_eq_cons (hpos : 0 < low) (hx : l[low - 1]? = some x) :
    l.drop (low - 1) = x :: l.drop low := by
  obtain ⟨hlt, rfl⟩ := List.getElem?_eq_some_iff.1 hx
  rw [List.drop_eq_getElem_cons hlt, Nat.sub_add_cancel hpos]

theorem head?_samples (hpos : 0 < low) (hlow : low ≤ l.length) :
    (samples l low).head? = l[low - 1]? := by
  obtain ⟨x, hx⟩ := exists_getElem? hpos hlow
  rcases Nat.lt_or_eq_of_le hlow with hlt | rfl
  · rw [samples_of_lt hlt hx, List.head?_cons, hx]
  · rw [samples_length hx, List.head?_singleton, hx]

theorem samples_ne_nil (hpos : 0 < low) (hlow : low ≤ l.length) : samples l low ≠ [] := by
  obtain ⟨x, hx⟩ := exists_getElem? hpos hlow
  intro hnil
  have hhead := head?_samples hpos hlow
  rw [hnil, hx] at hhead
  cases hhead

theorem getLast?_samples (hpos : 0 < low) (hlow : low ≤ l.length) :
    (samples l low).getLast? = l.getLast? := by
  obtain ⟨x, hx⟩ := exists_getElem? hpos hlow
  induction low using strides.induct l.length generalizing x with
  | case1 low hlt ih =>
    have hnext : 0 < nextStride l.length low := hpos.trans (lt_nextStride _ _)
    have hle := nextStride_le hlt
    obtain ⟨y, hy⟩ := exists_getElem? hnext hle
    rw [samples_of_lt hlt hx, List.getLast?_cons_of_ne_nil (samples_ne_nil hnext hle)]
    exact ih hnext hle y hy
  | case2 low hge =>
    obtain rfl : low = l.length := Nat.le_antisymm hlow (Nat.not_lt.1 hge)
    rw [samples_length hx, List.getLast?_singleton, List.getLast?_eq_getElem?, hx]

theorem samples_sublist_drop (hpos : 0 < low) (hlow : low ≤ l.length) :
    (samples l low).Sublist (l.drop (low - 1)) := by
  induction low using strides.induct l.length with
  | case1 low hlt ih =>
    obtain ⟨x, hx⟩ := exists_getElem? hpos hlow
    have hnext := lt_nextStride l.length low
    have hrest : (samples l (nextStride l.length low)).Sublist (l.drop low) :=
      (ih (hpos.trans hnext) (nextStride_le hlt)).trans
        (List.drop_sublist_drop_left l (by omega))
    rw [samples_of_lt hlt hx, drop_eq_cons hpos hx]
    exact hrest.cons_cons x
  | case2 low hge =>
    obtain rfl : low = l.length := Nat.le_antisymm hlow (Nat.not_lt.1 hge)
    obtain ⟨x, hx⟩ := exists_getElem? hpos hlow
    rw [samples_length hx, drop_eq_cons hpos hx]
    exact List.singleton_sublist.2 List.mem_cons_self

theorem samples_sublist (hpos : 0 < low) (hlow : low ≤ l.length) : (samples l low).Sublist l :=
  (samples_sublist_drop hpos hlow).trans (List.drop_sublist _ _)

end SophiaTX.Lib
