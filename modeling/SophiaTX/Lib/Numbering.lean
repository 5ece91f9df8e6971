import Mathlib.Data.List.Basic
import Mathlib.Data.List.Range
import Mathlib.Data.Nat.Basic
import Mathlib.Order.Lattice

/-!
# Numbering by the largest number in use

Things that come in batches are numbered by one more than the largest number in use, the same for
a whole batch. Batches that are not empty are then numbered from one on without a gap.
-/

namespace SophiaTX.Lib

/-- One more than the largest number in use. -/
def nextNumber (numbers : List ℕ) : ℕ := numbers.foldl max 0 + 1

theorem foldl_max_eq {numbers : List ℕ} {n start : ℕ} (hle : ∀ k ∈ numbers, k ≤ n)
    (hmem : start = n ∨ n ∈ numbers) (hstart : start ≤ n) : numbers.foldl max start = n := by
  induction numbers generalizing start with
  | nil =>
    rcases hmem with hmem | hmem
    · exact hmem
    · cases hmem
  | cons first numbers ih =>
    have hfirst : first ≤ n := hle first List.mem_cons_self
    apply ih
    · intro k hk
      exact hle k (List.mem_cons_of_mem _ hk)
    · rcases hmem with rfl | hmem
      · exact .inl (max_eq_left hfirst)
      · rcases List.mem_cons.1 hmem with rfl | hmem
        · exact .inl (max_eq_right hstart)
        · exact .inr hmem
    · exact max_le hstart hfirst

theorem nextNumber_eq {numbers : List ℕ} {n : ℕ} (hle : ∀ k ∈ numbers, k ≤ n)
    (hmem : 0 < n → n ∈ numbers) : nextNumber numbers = n + 1 := by
  have hmax : numbers.foldl max 0 = n := by
    apply foldl_max_eq hle _ (Nat.zero_le n)
    rcases Nat.eq_zero_or_pos n with hn | hn
    · exact .inl hn.symm
    · exact .inr (hmem hn)
  rw [nextNumber, hmax]

/-- Batches without an empty one, the numbers of each being its position. -/
def Consecutive (batches : List (List ℕ)) : Prop :=
  ∀ k batch, batches[k]? = some batch → batch ≠ [] ∧ ∀ number ∈ batch, number = k + 1

namespace Consecutive

variable {batches : List (List ℕ)}

theorem nil : Consecutive [] := by
  intro k batch hbatch
  cases hbatch

/-- The next number in use is that of the next batch. -/
theorem nextNumber_flatten (h : Consecutive batches) :
    nextNumber batches.flatten = batches.length + 1 := by
  apply nextNumber_eq
  · intro number hnumber
    obtain ⟨batch, hbatch, hmem⟩ := List.mem_flatten.1 hnumber
    obtain ⟨k, hk⟩ := List.mem_iff_getElem?.1 hbatch
    have hlt : k < batches.length := (List.getElem?_eq_some_iff.1 hk).1
    have hnumber := (h k batch hk).2 number hmem
    omega
  · intro hpos
    have hlast : batches[batches.length - 1]? = some batches[batches.length - 1] :=
      List.getElem?_eq_getElem (by omega)
    obtain ⟨hne, hnumbers⟩ := h _ _ hlast
    obtain ⟨number, hnumber⟩ := List.exists_mem_of_ne_nil _ hne
    have heq : number = batches.length := by
      have hposition := hnumbers number hnumber
      omega
    rw [← heq]
    exact List.mem_flatten_of_mem (List.getElem_mem _) hnumber

/-- A batch that takes the next number continues the numbering. -/
theorem concat {batch : List ℕ} (h : Consecutive batches) (hne : batch ≠ [])
    (hnumbers : ∀ number ∈ batch, number = nextNumber batches.flatten) :
    Consecutive (batches ++ [batch]) := by
  intro k other hother
  rw [List.getElem?_append] at hother
  split at hother
  · exact h k other hother
  · rename_i hk
    have hk : k = batches.length := by
      have hlt := (List.getElem?_eq_some_iff.1 hother).1
      rw [List.length_singleton] at hlt
      omega
    have hother : batch = other := by simpa [hk] using hother
    rw [← hother, hk, ← h.nextNumber_flatten]
    exact ⟨hne, hnumbers⟩

end Consecutive

/-! ## Single numbers -/

/-- The numbers from one on, in order. -/
def CountsUp (numbers : List ℕ) : Prop := numbers = List.range' 1 numbers.length

theorem CountsUp.nextNumber_eq {numbers : List ℕ} (h : CountsUp numbers) :
    nextNumber numbers = numbers.length + 1 := by
  apply Lib.nextNumber_eq
  · intro number hnumber
    rw [h, List.mem_range'_1] at hnumber
    omega
  · intro hpos
    rw [h, List.mem_range'_1, List.length_range']
    omega

/-- The next number continues the count. -/
theorem CountsUp.concat {numbers : List ℕ} (h : CountsUp numbers) :
    CountsUp (numbers ++ [nextNumber numbers]) := by
  calc numbers ++ [nextNumber numbers]
      = List.range' 1 numbers.length ++ [1 + numbers.length] := by
        rw [h.nextNumber_eq, Nat.add_comm, ← h]
    _ = List.range' 1 (numbers.length + 1) := List.range'_1_concat.symm
    _ = List.range' 1 (numbers ++ [nextNumber numbers]).length := by
      rw [List.length_append, List.length_singleton]

end SophiaTX.Lib
