import Mathlib.Data.List.Basic
import Mathlib.Data.Nat.ModEq
import Mathlib.Logic.Function.Basic
import Mathlib.Tactic.Common

/-!
# A ring of the latest items

Items are numbered from 1 and item `n` is written to slot `n % size`. The ring holds the last
`size` of them. Where an item carries its own number, a slot tells whether it still holds the item
that is asked for.
-/

namespace SophiaTX.Lib

universe u

variable {α : Type u}

/-- What a ring of `size` slots holds after the items have been written to it in order. -/
structure RingHolds (size : ℕ) (initial : α) (items : List α) (ring : ℕ → α) : Prop where
  recent : ∀ n, 0 < n → n ≤ items.length → items.length < n + size →
    items[n - 1]? = some (ring (n % size))
  slot : ∀ k, ring k = initial ∨ ∃ n, 0 < n ∧ items[n - 1]? = some (ring k)

namespace RingHolds

variable {size : ℕ} {initial : α} {items : List α} {ring : ℕ → α}

theorem empty (size : ℕ) (initial : α) : RingHolds size initial [] fun _ ↦ initial where
  recent := fun _ hpos hle _ ↦ absurd hle (Nat.not_le.2 hpos)
  slot := fun _ ↦ .inl rfl

theorem write (h : RingHolds size initial items ring) (item : α) :
    RingHolds size initial (items ++ [item])
      (Function.update ring ((items.length + 1) % size) item) where
  recent := by
    intro n hpos hle hrecent
    rw [List.length_append, List.length_singleton] at hle hrecent
    rcases Nat.lt_or_eq_of_le hle with hlt | rfl
    · have hslot : n % size ≠ (items.length + 1) % size := by
        intro heq
        have hdvd : size ∣ items.length + 1 - n := (Nat.modEq_iff_dvd' hle).1 heq
        have hsize : size ≤ items.length + 1 - n := Nat.le_of_dvd (by omega) hdvd
        omega
      rw [Function.update_of_ne hslot, List.getElem?_append_left (by omega)]
      exact h.recent n hpos (by omega) (by omega)
    · rw [Function.update_self, Nat.add_sub_cancel]
      exact List.getElem?_concat_length
  slot := by
    intro k
    by_cases hk : k = (items.length + 1) % size
    · right
      refine ⟨items.length + 1, Nat.succ_pos _, ?_⟩
      rw [hk, Function.update_self, Nat.add_sub_cancel]
      exact List.getElem?_concat_length
    · rw [Function.update_of_ne hk]
      apply (h.slot k).imp_right
      rintro ⟨n, hpos, hitem⟩
      refine ⟨n, hpos, ?_⟩
      rw [List.getElem?_append_left (List.getElem?_eq_some_iff.1 hitem).1]
      exact hitem

section Numbered

variable {number : α → ℕ} (hnumber : ∀ n item, items[n]? = some item → number item = n + 1)

include hnumber

/-- A slot with an item of this number has the item of this number. -/
theorem eq_of_number (h : RingHolds size initial items ring) (hinitial : number initial = 0)
    {n k : ℕ} (hpos : 0 < n) (hn : number (ring k) = n) : items[n - 1]? = some (ring k) := by
  rcases h.slot k with hempty | ⟨m, hm, hitem⟩
  · rw [hempty, hinitial] at hn
    exact absurd hn (Nat.ne_of_lt hpos)
  · have hmn : m - 1 + 1 = n := (hnumber _ _ hitem).symm.trans hn
    rwa [← hmn, Nat.add_sub_cancel]

/-- An item that is not in its slot is a full ring behind. -/
theorem old_of_number_ne (h : RingHolds size initial items ring) {n : ℕ} (hpos : 0 < n)
    (hle : n ≤ items.length) (hn : number (ring (n % size)) ≠ n) : n + size ≤ items.length := by
  by_contra hrecent
  apply hn
  have hitem := hnumber _ _ (h.recent n hpos hle (Nat.not_le.1 hrecent))
  omega

end Numbered

end RingHolds

/-! ## Slots one by one -/

/-- What slot `k` of a ring of `size` slots says about the items: that it has not been written yet,
or its latest item. -/
def SlotSays (size : ℕ) (initial : α) (items : List α) (k : ℕ) (item : α) : Prop :=
  (∃ n, items[n]? = some item ∧ (n + 1) % size = k ∧ items.length ≤ n + size) ∨
    item = initial ∧ ∀ n, n < items.length → (n + 1) % size ≠ k

namespace SlotSays

variable {size k : ℕ} {initial item : α} {items : List α}

theorem empty (size : ℕ) (initial : α) (k : ℕ) : SlotSays size initial [] k initial :=
  .inr ⟨rfl, fun n hn ↦ absurd hn (Nat.not_lt_zero n)⟩

theorem write (hsize : 0 < size) {ring : ℕ → α} (h : ∀ k, SlotSays size initial items k (ring k))
    (item : α) (k : ℕ) : SlotSays size initial (items ++ [item]) k
      (Function.update ring ((items.length + 1) % size) item k) := by
  by_cases hk : k = (items.length + 1) % size
  · subst hk
    rw [Function.update_self]
    refine .inl ⟨items.length, List.getElem?_concat_length, rfl, ?_⟩
    rw [List.length_append, List.length_singleton]
    omega
  · rw [Function.update_of_ne hk, SlotSays, List.length_append, List.length_singleton]
    rcases h k with ⟨n, hitem, hslot, hrecent⟩ | ⟨hinitial, hunwritten⟩
    · have hlt := (List.getElem?_eq_some_iff.1 hitem).1
      refine .inl ⟨n, (List.getElem?_append_left hlt).trans hitem, hslot, ?_⟩
      -- A whole ring later the item would have been overwritten.
      have hne : items.length ≠ n + size := by
        rintro hlength
        apply hk
        rw [hlength, Nat.add_right_comm, Nat.add_mod_right, hslot]
      omega
    · refine .inr ⟨hinitial, fun n hn ↦ ?_⟩
      rcases Nat.lt_succ_iff_lt_or_eq.1 hn with hlt | rfl
      · exact hunwritten n hlt
      · exact fun hslot ↦ hk hslot.symm

end SlotSays

end SophiaTX.Lib
