import Mathlib.Algebra.BigOperators.Intervals
import Mathlib.Algebra.Order.BigOperators.Group.Finset
import Mathlib.Order.Interval.Finset.Nat
import Mathlib.Tactic.Abel

/-!
# Sums over a ring buffer

A buffer with `p` slots keeps a value for each of the last `p` numbers, number `k` in slot
`k % p`. The sum over a window of numbers is that of their slots; a full window has the sum of
all slots, and writing a slot changes no window that its number is not in.
-/

open scoped BigOperators

namespace SophiaTX.Lib

universe u

variable {M : Type u} {p : ℕ}

section Sum

variable [AddCommMonoid M]

/-- The sum over the numbers from `lo` up to `hi`. -/
def windowSum (p : ℕ) (buffer : ℕ → M) (lo hi : ℕ) : M :=
  ∑ k ∈ Finset.Ico lo hi, buffer (k % p)

@[simp]
theorem windowSum_self (buffer : ℕ → M) (lo : ℕ) : windowSum p buffer lo lo = 0 := by
  simp [windowSum]

theorem windowSum_succ (buffer : ℕ → M) {lo hi : ℕ} (h : lo ≤ hi) :
    windowSum p buffer lo (hi + 1) = windowSum p buffer lo hi + buffer (hi % p) :=
  Finset.sum_Ico_succ_top h _

/-- A window as long as the buffer goes through every slot once. -/
theorem windowSum_period (buffer : ℕ → M) (lo : ℕ) :
    windowSum p buffer lo (lo + p) = ∑ slot ∈ Finset.range p, buffer slot := by
  rw [windowSum, ← Nat.image_Ico_mod lo p, Finset.sum_image (Nat.mod_injOn_Ico lo p)]

/-- Writing the slot of a number outside the window. -/
theorem windowSum_update (buffer : ℕ → M) (x : M) {lo hi n : ℕ} (hhi : hi ≤ n) (hlo : n < lo + p) :
    windowSum p (Function.update buffer (n % p) x) lo hi = windowSum p buffer lo hi := by
  apply Finset.sum_congr rfl
  intro k hk
  rw [Finset.mem_Ico] at hk
  apply Function.update_of_ne
  intro hslot
  have hsame : k = n := Nat.mod_injOn_Ico lo p (by simp; omega) (by simp; omega) hslot
  omega

end Sum

theorem windowSum_nonneg [AddCommMonoid M] [PartialOrder M] [IsOrderedAddMonoid M]
    {buffer : ℕ → M} (h : ∀ slot, 0 ≤ buffer slot) (lo hi : ℕ) :
    0 ≤ windowSum p buffer lo hi :=
  Finset.sum_nonneg fun _ _ ↦ h _

/-- A window no longer than the buffer is part of it. -/
theorem windowSum_le_slots [AddCommMonoid M] [PartialOrder M] [IsOrderedAddMonoid M]
    {buffer : ℕ → M} (hbuffer : ∀ slot, 0 ≤ buffer slot) {lo hi : ℕ} (h : hi ≤ lo + p) :
    windowSum p buffer lo hi ≤ ∑ slot ∈ Finset.range p, buffer slot := by
  rw [← windowSum_period buffer lo]
  exact Finset.sum_le_sum_of_subset_of_nonneg (Finset.Ico_subset_Ico_right h) fun _ _ _ ↦ hbuffer _

theorem sum_slots_update [AddCommGroup M] (buffer : ℕ → M) (x : M) {n : ℕ} (hp : 0 < p) :
    ∑ slot ∈ Finset.range p, Function.update buffer (n % p) x slot =
      ∑ slot ∈ Finset.range p, buffer slot - buffer (n % p) + x := by
  have hmem : n % p ∈ Finset.range p := Finset.mem_range.2 (Nat.mod_lt n hp)
  rw [Finset.sum_update_of_mem hmem, ← Finset.add_sum_erase _ buffer hmem,
    Finset.sdiff_singleton_eq_erase]
  abel

/-! ## The buffer that a list of records leaves -/

/-- The buffer after records, the newest first, that are numbered from one on. -/
def ring [Zero M] (p : ℕ) : List M → ℕ → M
  | [] => 0
  | x :: records => Function.update (ring p records) ((records.length + 1) % p) x

/-- A record is found in its slot until a period has passed. Slots that were never written are
zero. -/
theorem ring_slot [Zero M] (records : List M) {k : ℕ} (hk : k < p) :
    ring p records ((records.length + p - k) % p) = records.getD k 0 := by
  induction records generalizing k with
  | nil => simp [ring]
  | cons x records ih =>
    have hslot : (records.length + 1 + p) % p = (records.length + 1) % p := Nat.add_mod_right _ _
    cases k with
    | zero =>
      rw [List.length_cons, Nat.sub_zero, hslot, ring, Function.update_self, List.getD_cons_zero]
    | succ k =>
      have hnumber : records.length + 1 + p - (k + 1) = records.length + p - k := by omega
      have hother : (records.length + p - k) % p ≠ (records.length + 1) % p := by
        rw [← hslot]
        intro hsame
        have hinj := Nat.mod_injOn_Ico (records.length + p - k) p (by simp; omega)
          (by simp; omega) hsame
        omega
      rw [List.length_cons, hnumber, ring, Function.update_of_ne hother, List.getD_cons_succ,
        ih (Nat.lt_of_succ_lt hk)]

/-- The slots hold the last records of a period. -/
theorem sum_ring [AddCommGroup M] (hp : 0 < p) (records : List M) :
    ∑ slot ∈ Finset.range p, ring p records slot = (records.take p).sum := by
  induction records with
  | nil => simp [ring]
  | cons x records ih =>
    obtain ⟨q, rfl⟩ := Nat.exists_eq_succ_of_ne_zero hp.ne'
    have hold := ring_slot records (Nat.lt_succ_self q)
    rw [show records.length + (q + 1) - q = records.length + 1 by omega] at hold
    have hsplit : (records.take (q + 1)).sum = (records.take q).sum + records.getD q 0 := by
      rcases lt_or_ge q records.length with hlt | hge
      · rw [List.take_add_one, List.sum_append, List.getD_eq_getElem?_getD,
          List.getElem?_eq_getElem hlt]
        simp
      · rw [List.take_of_length_le (hge.trans (Nat.le_succ q)), List.take_of_length_le hge,
          List.getD_eq_getElem?_getD, List.getElem?_eq_none hge, Option.getD_none, add_zero]
    calc ∑ slot ∈ Finset.range (q + 1), ring (q + 1) (x :: records) slot
        = ∑ slot ∈ Finset.range (q + 1), ring (q + 1) records slot -
            ring (q + 1) records ((records.length + 1) % (q + 1)) + x := sum_slots_update _ _ hp
      _ = (records.take q).sum + x := by rw [ih, hold, hsplit, add_sub_cancel_right]
      _ = ((x :: records).take (q + 1)).sum := by
        rw [List.take_succ_cons, List.sum_cons, add_comm]

end SophiaTX.Lib
