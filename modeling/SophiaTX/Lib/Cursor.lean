import Mathlib.Data.List.TakeWhile
import SophiaTX.Lib.MultiIndex

/-!
# Positions in an ordered table

The first row that is not below a key, and the rows below it, walked backwards.
-/

namespace SophiaTX.Lib

/-- In an ordered list, an element is among those taken if it and all before it pass the test. -/
theorem mem_takeWhile_of_pairwise {α : Type*} {r : α → α → Prop} {p : α → Bool} {l : List α}
    (hl : l.Pairwise r) {x : α} (hx : x ∈ l) (hp : p x = true)
    (hbefore : ∀ y ∈ l, r y x → p y = true) : x ∈ l.takeWhile p := by
  induction l with
  | nil => cases hx
  | cons y l ih =>
    obtain ⟨hfirst, hrest⟩ := List.pairwise_cons.1 hl
    rcases List.mem_cons.1 hx with rfl | hmem
    · rw [List.takeWhile_cons, if_pos hp]
      exact List.mem_cons_self
    · have hy : p y = true := hbefore y List.mem_cons_self (hfirst x hmem)
      rw [List.takeWhile_cons, if_pos hy]
      exact List.mem_cons_of_mem y (ih hrest hmem fun z hz ↦ hbefore z (List.mem_cons_of_mem y hz))

/-- In an ordered list, what stands before an element taken is taken too. -/
theorem mem_takeWhile_of_before {α : Type*} {r : α → α → Prop} {p : α → Bool} {l : List α}
    (hl : l.Pairwise r) (hasymm : ∀ x y, r x y → ¬ r y x) {x y : α} (hx : x ∈ l.takeWhile p)
    (hy : y ∈ l) (hr : r y x) : y ∈ l.takeWhile p := by
  induction l with
  | nil => cases hy
  | cons z l ih =>
    obtain ⟨hfirst, hrest⟩ := List.pairwise_cons.1 hl
    by_cases hz : p z = true
    · rw [List.takeWhile_cons, if_pos hz] at hx ⊢
      rcases List.mem_cons.1 hy with rfl | hmem
      · exact List.mem_cons_self
      rcases List.mem_cons.1 hx with rfl | hx
      · exact absurd hr (hasymm _ _ (hfirst y hmem))
      · exact List.mem_cons_of_mem z (ih hrest hx hmem)
    · rw [List.takeWhile_cons, if_neg hz] at hx
      cases hx

namespace Table

variable {κ α : Type*} [DecidableEq κ] [LinearOrder κ] {t : Table κ α} {k k' : κ} {row : α}

/-- The row that `lower_bound` finds. -/
def lowerBound (t : Table κ α) (k : κ) : Option (κ × α) :=
  t.sorted.find? fun entry ↦ decide (k ≤ entry.1)

/-- The rows before the one that `lower_bound` finds, from it backwards. -/
def below (t : Table κ α) (k : κ) : List (κ × α) :=
  (t.sorted.takeWhile fun entry ↦ decide (entry.1 < k)).reverse

theorem lowerBound_eq_some (h : t.lowerBound k = some (k', row)) :
    t.find? k' = some row ∧ k ≤ k' ∧
      ∀ k'' row', t.find? k'' = some row' → k ≤ k'' → k' ≤ k'' := by
  rw [lowerBound, List.find?_eq_some_iff_append] at h
  obtain ⟨hle, front, back, hsplit, hfront⟩ := h
  have hmem : (k', row) ∈ t.sorted := by
    rw [hsplit]
    exact List.mem_append_right _ List.mem_cons_self
  refine ⟨mem_sorted.1 hmem, of_decide_eq_true hle, ?_⟩
  intro k'' row' hfind hk''
  have hother : (k'', row') ∈ t.sorted := mem_sorted.2 hfind
  have hsorted := t.sorted_pairwise
  rw [hsplit] at hother hsorted
  rcases List.mem_append.1 hother with hbefore | hafter
  · have hnot := hfront _ hbefore
    rw [decide_eq_true hk''] at hnot
    cases hnot
  · rcases List.mem_cons.1 hafter with heq | hafter
    · exact (congrArg Prod.fst heq).ge
    · exact ((List.pairwise_cons.1 (List.pairwise_append.1 hsorted).2.1).1 _ hafter).le

theorem lowerBound_eq_none (h : t.lowerBound k = none) (hrow : t.find? k' = some row) : k' < k := by
  rw [lowerBound, List.find?_eq_none] at h
  have hnot := h _ (mem_sorted.2 hrow)
  rw [decide_eq_true_eq] at hnot
  exact lt_of_not_ge hnot

/-- The least row that is not below a key is the one found. -/
theorem lowerBound_eq (hrow : t.find? k' = some row) (hle : k ≤ k')
    (hleast : ∀ k'' row', t.find? k'' = some row' → k ≤ k'' → k' ≤ k'') :
    t.lowerBound k = some (k', row) := by
  cases hfound : t.lowerBound k with
  | none => exact absurd (lowerBound_eq_none hfound hrow) (not_lt.2 hle)
  | some entry =>
    obtain ⟨hentry, hkey, hfirst⟩ := lowerBound_eq_some hfound
    have hsame : entry.1 = k' := le_antisymm (hfirst k' row hrow hle) (hleast _ _ hentry hkey)
    rw [hsame, hrow] at hentry
    rw [Option.some_inj]
    exact Prod.ext hsame (Option.some.inj hentry).symm

theorem mem_below : (k', row) ∈ t.below k ↔ t.find? k' = some row ∧ k' < k := by
  rw [below, List.mem_reverse, ← mem_sorted]
  constructor
  · intro h
    have hlt := List.mem_takeWhile_imp (p := fun entry : κ × α ↦ decide (entry.1 < k)) h
    exact ⟨List.takeWhile_subset _ h, of_decide_eq_true hlt⟩
  · rintro ⟨hmem, hlt⟩
    apply mem_takeWhile_of_pairwise t.sorted_pairwise hmem (decide_eq_true hlt)
    intro entry _ hbefore
    exact decide_eq_true (hbefore.trans hlt)

omit [DecidableEq κ] in
theorem below_pairwise (t : Table κ α) (k : κ) :
    (t.below k).Pairwise fun entry entry' ↦ entry'.1 < entry.1 := by
  rw [below, List.pairwise_reverse]
  exact t.sorted_pairwise.sublist (List.takeWhile_sublist _)

end Table

end SophiaTX.Lib
