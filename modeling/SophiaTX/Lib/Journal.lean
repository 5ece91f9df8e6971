import Mathlib.Data.List.Basic
import Mathlib.Tactic.Ring

/-!
# Journals of packed records

Words of bytes, lowest byte first, and the file in which every record is followed by its own
position. Beside such a file stands an array with the positions alone.
-/

namespace SophiaTX.Lib

/-! ## Words -/

/-- The lowest bytes of a number, lowest first. -/
def word : ℕ → ℕ → List UInt8
  | 0, _ => []
  | width + 1, n => UInt8.ofNat n :: word width (n / 256)

def ofWord : List UInt8 → ℕ
  | [] => 0
  | b :: bytes => b.toNat + 256 * ofWord bytes

@[simp]
theorem length_word (width n : ℕ) : (word width n).length = width := by
  induction width generalizing n with
  | zero => rfl
  | succ width ih => rw [word, List.length_cons, ih]

theorem ofWord_word {width n : ℕ} (h : n < 256 ^ width) : ofWord (word width n) = n := by
  induction width generalizing n with
  | zero => exact (Nat.lt_one_iff.1 h).symm
  | succ width ih =>
    have hrest : n / 256 < 256 ^ width := by
      rw [pow_succ] at h
      exact Nat.div_lt_of_lt_mul (Nat.mul_comm _ _ ▸ h)
    calc ofWord (word (width + 1) n) = n % 256 + 256 * (n / 256) := by
          rw [word, ofWord, ih hrest, UInt8.toNat_ofNat']
      _ = n := Nat.mod_add_div n 256

/-! ## Arrays of words -/

def wordArray (width : ℕ) (l : List ℕ) : List UInt8 := l.flatMap (word width)

@[simp]
theorem length_wordArray (width : ℕ) (l : List ℕ) :
    (wordArray width l).length = width * l.length := by
  induction l with
  | nil => rfl
  | cons n l ih =>
    rw [wordArray, List.flatMap_cons, List.length_append, length_word, ← wordArray, ih,
      List.length_cons]
    ring

theorem wordArray_append (width : ℕ) (l l' : List ℕ) :
    wordArray width (l ++ l') = wordArray width l ++ wordArray width l' := List.flatMap_append

theorem wordArray_singleton (width n : ℕ) : wordArray width [n] = word width n := by
  rw [wordArray, List.flatMap_cons, List.flatMap_nil, List.append_nil]

/-- What the array holds from an index on. -/
theorem drop_wordArray (width : ℕ) (l l' : List ℕ) (n : ℕ) :
    (wordArray width (l ++ n :: l')).drop (width * l.length) =
      word width n ++ wordArray width l' := by
  rw [wordArray_append, ← length_wordArray, List.drop_left, wordArray, List.flatMap_cons, wordArray]

/-! ## Journals -/

section Journal

variable {α : Type*} (pack : α → List UInt8)

/-- A record and, behind it, its position. -/
def frame (pos : ℕ) (r : α) : List UInt8 := pack r ++ word 8 pos

def journalFrom : ℕ → List α → List UInt8
  | _, [] => []
  | pos, r :: rs => frame pack pos r ++ journalFrom (pos + (frame pack pos r).length) rs

def positionsFrom : ℕ → List α → List ℕ
  | _, [] => []
  | pos, r :: rs => pos :: positionsFrom (pos + (frame pack pos r).length) rs

/-- The file of the records. -/
def journal (rs : List α) : List UInt8 := journalFrom pack 0 rs

/-- Where the records stand in the file. -/
def positions (rs : List α) : List ℕ := positionsFrom pack 0 rs

theorem length_frame (pos : ℕ) (r : α) : (frame pack pos r).length = (pack r).length + 8 := by
  rw [frame, List.length_append, length_word]

theorem journalFrom_append (pos : ℕ) (rs rs' : List α) :
    journalFrom pack pos (rs ++ rs') =
      journalFrom pack pos rs ++ journalFrom pack (pos + (journalFrom pack pos rs).length) rs' := by
  induction rs generalizing pos with
  | nil => rfl
  | cons r rs ih =>
    rw [List.cons_append, journalFrom, journalFrom, ih, List.append_assoc, List.length_append,
      Nat.add_assoc]

theorem positionsFrom_append (pos : ℕ) (rs rs' : List α) :
    positionsFrom pack pos (rs ++ rs') =
      positionsFrom pack pos rs ++
        positionsFrom pack (pos + (journalFrom pack pos rs).length) rs' := by
  induction rs generalizing pos with
  | nil => rfl
  | cons r rs ih =>
    rw [List.cons_append, positionsFrom, positionsFrom, ih, List.cons_append, journalFrom,
      List.length_append, Nat.add_assoc]

theorem journal_concat (rs : List α) (r : α) :
    journal pack (rs ++ [r]) = journal pack rs ++ frame pack (journal pack rs).length r := by
  rw [journal, journalFrom_append, Nat.zero_add, journalFrom, journalFrom, List.append_nil, journal]

theorem positions_concat (rs : List α) (r : α) :
    positions pack (rs ++ [r]) = positions pack rs ++ [(journal pack rs).length] := by
  rw [positions, positionsFrom_append, Nat.zero_add, positionsFrom, positionsFrom, positions,
    journal]

@[simp]
theorem length_positionsFrom (pos : ℕ) (rs : List α) :
    (positionsFrom pack pos rs).length = rs.length := by
  induction rs generalizing pos with
  | nil => rfl
  | cons r rs ih => rw [positionsFrom, List.length_cons, List.length_cons, ih]

@[simp]
theorem length_positions (rs : List α) : (positions pack rs).length = rs.length :=
  length_positionsFrom pack 0 rs

/-- What a file with more records holds from the position of one of them on. -/
theorem drop_journal (rs rs' : List α) :
    (journal pack (rs ++ rs')).drop (journal pack rs).length =
      journalFrom pack (journal pack rs).length rs' := by
  have hfile : journal pack (rs ++ rs') =
      journal pack rs ++ journalFrom pack (journal pack rs).length rs' := by
    rw [journal, journalFrom_append, Nat.zero_add, journal]
  rw [hfile, List.drop_left]

theorem positions_split (rs rs' : List α) (r : α) :
    positions pack (rs ++ r :: rs') =
      positions pack rs ++
        (journal pack rs).length ::
          positionsFrom pack
            ((journal pack rs).length + (frame pack (journal pack rs).length r).length) rs' := by
  rw [positions, positionsFrom_append, Nat.zero_add, positionsFrom, positions, journal]

/-- The position of the last record ends the file. -/
theorem drop_journal_concat (rs : List α) (r : α) :
    (journal pack (rs ++ [r])).drop ((journal pack (rs ++ [r])).length - 8) =
      word 8 (journal pack rs).length := by
  rw [journal_concat, frame, ← List.append_assoc]
  apply List.drop_left'
  simp only [List.length_append, length_word, Nat.add_sub_cancel]

theorem le_of_mem_positionsFrom {pos p : ℕ} {rs : List α} (hp : p ∈ positionsFrom pack pos rs) :
    pos ≤ p := by
  induction rs generalizing pos with
  | nil => cases hp
  | cons r rs ih =>
    rcases List.mem_cons.1 hp with rfl | hrest
    · exact le_rfl
    · exact (Nat.le_add_right _ _).trans (ih hrest)

theorem length_journal_lt (rs rs' : List α) (r : α) :
    (journal pack rs).length < (journal pack (rs ++ r :: rs')).length := by
  rw [journal, journal, journalFrom_append, List.length_append, journalFrom, List.length_append,
    length_frame]
  omega

theorem length_le_journalFrom (pos : ℕ) (rs : List α) :
    8 * rs.length ≤ (journalFrom pack pos rs).length := by
  induction rs generalizing pos with
  | nil => exact Nat.zero_le _
  | cons r rs ih =>
    have hrest := ih (pos + (frame pack pos r).length)
    have hframe := length_frame pack pos r
    rw [journalFrom, List.length_append, List.length_cons]
    omega

/-- Each record takes more room in the file than its position in the array. -/
theorem length_wordArray_positions_le (rs : List α) :
    (wordArray 8 (positions pack rs)).length ≤ (journal pack rs).length := by
  rw [length_wordArray, length_positions]
  exact length_le_journalFrom pack 0 rs

end Journal

end SophiaTX.Lib
