import Mathlib.Data.List.DropRight
import Mathlib.Data.Nat.Digits.Lemmas
import Mathlib.Tactic.Ring

/-!
# Bit strings

A bit string stands for a number, its first bit for the largest power. A window of fixed length
that slides along a bit string is a shift of the number. The ones of a number can be counted in
parallel: neighbouring digits are added to digits of twice the width, until one is left.
-/

namespace SophiaTX.Lib

/-! ## Numbers -/

section Numbers

variable {b : Bool} {bits bits' : List Bool}

def ofBits (bits : List Bool) : ℕ := Nat.ofDigits 2 (bits.reverse.map Bool.toNat)

theorem ofBits_append : ofBits (bits ++ bits') = ofBits bits * 2 ^ bits'.length + ofBits bits' := by
  simp only [ofBits, List.reverse_append, List.map_append, Nat.ofDigits_append, List.length_map,
    List.length_reverse]
  ring

theorem ofBits_singleton : ofBits [b] = b.toNat := by simp [ofBits]

theorem ofBits_cons : ofBits (b :: bits) = b.toNat * 2 ^ bits.length + ofBits bits := by
  rw [← List.singleton_append, ofBits_append, ofBits_singleton]

theorem ofBits_concat : ofBits (bits ++ [b]) = ofBits bits * 2 + b.toNat := by
  rw [ofBits_append, ofBits_singleton]
  rfl

theorem ofBits_lt : ofBits bits < 2 ^ bits.length := by
  have hlength : (bits.reverse.map Bool.toNat).length = bits.length := by
    rw [List.length_map, List.length_reverse]
  rw [ofBits, ← hlength]
  apply Nat.ofDigits_lt_base_pow_length one_lt_two
  intro d hd
  obtain ⟨b, _, rfl⟩ := List.mem_map.1 hd
  exact b.toNat_lt

end Numbers

/-! ## A sliding window -/

section Window

variable {b : Bool} {bits window : List Bool} {n : ℕ}

theorem rtake_concat (hn : n ≤ bits.length) :
    (bits ++ [b]).rtake n = (bits.rtake n ++ [b]).tail := by
  rw [List.rtake, List.rtake, List.length_append, List.length_singleton,
    ← List.drop_one, ← List.drop_append_of_le_length (Nat.sub_le _ _), List.drop_drop]
  congr 1
  omega

theorem length_rtake (hn : n ≤ bits.length) : (bits.rtake n).length = n := by
  rw [List.rtake, List.length_drop]
  omega

/-- The first bit of a window is the highest of its number. -/
theorem ofBits_div_pow : ofBits (b :: window) / 2 ^ window.length % 2 = b.toNat := by
  have hlt := @ofBits_lt window
  rw [ofBits_cons, Nat.add_comm, Nat.add_mul_div_right _ _ (Nat.two_pow_pos _),
    Nat.div_eq_of_lt hlt, Nat.zero_add, Nat.mod_eq_of_lt b.toNat_lt]

/-- Sliding on is a shift in which the first bit is lost. -/
theorem ofBits_slide {first : Bool} :
    ofBits (window ++ [b]) =
      (ofBits (first :: window) * 2 + b.toNat) % 2 ^ (window.length + 1) := by
  have hlt : ofBits (window ++ [b]) < 2 ^ (window.length + 1) := by
    have h := @ofBits_lt (window ++ [b])
    rwa [List.length_append, List.length_singleton] at h
  have hnumber : ofBits (first :: window) * 2 + b.toNat =
      ofBits (window ++ [b]) + 2 ^ (window.length + 1) * first.toNat := by
    rw [ofBits_cons, ofBits_concat]
    ring
  rw [hnumber, Nat.add_mul_mod_self_left, Nat.mod_eq_of_lt hlt]

theorem count_concat : (window ++ [b]).count true = window.count true + b.toNat := by
  cases b <;> simp

theorem count_cons : (b :: window).count true = window.count true + b.toNat := by
  cases b <;> simp

end Window

/-! ## Counting in parallel -/

section PackedSums

/-- Sums of neighbours. -/
def pairSums : List ℕ → List ℕ
  | a :: b :: digits => (a + b) :: pairSums digits
  | digits => digits

/-- What selects every other one of `2 * n` digits of `w` bits. -/
def evenMask (w n : ℕ) : ℕ := Nat.ofDigits (2 ^ (2 * w)) (List.replicate n (2 ^ w - 1))

/-- A list of numbers packed into digits of `w` bits, which have room to spare. -/
structure Packed (w n : ℕ) (digits : List ℕ) : Prop where
  length_eq : digits.length = n
  le : ∀ d ∈ digits, d ≤ w

variable {w n : ℕ} {digits : List ℕ}

theorem Packed.cons_cons {a b : ℕ} (h : Packed w (2 * (n + 1)) (a :: b :: digits)) :
    a ≤ w ∧ b ≤ w ∧ Packed w (2 * n) digits := by
  refine ⟨h.le a List.mem_cons_self, h.le b (List.mem_cons_of_mem a List.mem_cons_self), ?_, ?_⟩
  · have hlength := h.length_eq
    simp only [List.length_cons] at hlength
    omega
  · intro d hd
    exact h.le d (List.mem_cons_of_mem a (List.mem_cons_of_mem b hd))

theorem evenMask_succ : evenMask w (n + 1) = 2 ^ w - 1 + 2 ^ (2 * w) * evenMask w n := by
  rw [evenMask, List.replicate_succ, Nat.ofDigits_cons]
  rfl

theorem and_evenMask {low mask rest k : ℕ} (hk : w ≤ k) (hlow : low < 2 ^ k) :
    (low + 2 ^ k * rest) &&& (2 ^ w - 1 + 2 ^ k * mask) =
      low % 2 ^ w + 2 ^ k * (rest &&& mask) := by
  have hpos : 0 < 2 ^ k := Nat.two_pow_pos k
  have hmask : 2 ^ w - 1 < 2 ^ k :=
    (Nat.sub_lt (Nat.two_pow_pos w) one_pos).trans_le (Nat.pow_le_pow_right two_pos hk)
  rw [← Nat.mod_add_div ((low + 2 ^ k * rest) &&& _) (2 ^ k), Nat.and_mod_two_pow,
    Nat.and_div_two_pow, Nat.add_mul_mod_self_left, Nat.add_mul_mod_self_left,
    Nat.mod_eq_of_lt hlow, Nat.mod_eq_of_lt hmask, Nat.and_two_pow_sub_one_eq_mod,
    Nat.add_mul_div_left _ _ hpos, Nat.add_mul_div_left _ _ hpos, Nat.div_eq_of_lt hlow,
    Nat.div_eq_of_lt hmask, Nat.zero_add, Nat.zero_add]

/-- Two digits in front of others, seen from the first and from the second. -/
theorem and_evenMask_succ {a b rest : ℕ} (ha : a < 2 ^ w) (hb : b < 2 ^ w) :
    (a + 2 ^ w * (b + 2 ^ w * rest)) &&& evenMask w (n + 1) =
      a + 2 ^ (2 * w) * (rest &&& evenMask w n) := by
  have hlow : a + 2 ^ w * b < 2 ^ (2 * w) := by
    calc a + 2 ^ w * b
        < 2 ^ w + 2 ^ w * b := by omega
      _ = 2 ^ w * (b + 1) := by ring
      _ ≤ 2 ^ w * 2 ^ w := Nat.mul_le_mul_left _ hb
      _ = 2 ^ (2 * w) := by rw [two_mul, pow_add]
  have hsplit : a + 2 ^ w * (b + 2 ^ w * rest) = a + 2 ^ w * b + 2 ^ (2 * w) * rest := by
    rw [two_mul w, pow_add]
    ring
  rw [hsplit, evenMask_succ, and_evenMask (by omega) hlow, Nat.add_mul_mod_self_left,
    Nat.mod_eq_of_lt ha]

/-- One round of counting: the even digits and the odd ones are added. -/
theorem packedSum (h : Packed w (2 * n) digits) :
    (Nat.ofDigits (2 ^ w) digits &&& evenMask w n) +
      (Nat.ofDigits (2 ^ w) digits / 2 ^ w &&& evenMask w n) =
    Nat.ofDigits (2 ^ (2 * w)) (pairSums digits) := by
  induction n generalizing digits with
  | zero =>
    obtain rfl : digits = [] := List.length_eq_zero_iff.1 h.length_eq
    simp [pairSums, evenMask]
  | succ n ih =>
    match digits, h with
    | [], h => exact absurd h.length_eq (by simp)
    | [_], h => exact absurd h.length_eq (by simp; omega)
    | a :: b :: digits, h =>
      obtain ⟨ha, hb, hrest⟩ := h.cons_cons
      have haw : a < 2 ^ w := ha.trans_lt Nat.lt_two_pow_self
      have hbw : b < 2 ^ w := hb.trans_lt Nat.lt_two_pow_self
      have hnext : (a + 2 ^ w * (b + 2 ^ w * Nat.ofDigits (2 ^ w) digits)) / 2 ^ w =
          b + 2 ^ w * (Nat.ofDigits (2 ^ w) digits % 2 ^ w +
            2 ^ w * (Nat.ofDigits (2 ^ w) digits / 2 ^ w)) := by
        rw [Nat.add_mul_div_left _ _ (Nat.two_pow_pos w), Nat.div_eq_of_lt haw, Nat.zero_add,
          Nat.mod_add_div]
      simp only [Nat.ofDigits_cons, pairSums]
      rw [hnext, and_evenMask_succ haw hbw,
        and_evenMask_succ hbw (Nat.mod_lt _ (Nat.two_pow_pos w)), ← ih hrest]
      ring

theorem Packed.pairSums (h : Packed w (2 * n) digits) :
    Packed (2 * w) n (pairSums digits) ∧ (Lib.pairSums digits).sum = digits.sum := by
  induction n generalizing digits with
  | zero =>
    obtain rfl : digits = [] := List.length_eq_zero_iff.1 h.length_eq
    exact ⟨⟨rfl, fun d hd ↦ absurd hd List.not_mem_nil⟩, rfl⟩
  | succ n ih =>
    match digits, h with
    | [], h => exact absurd h.length_eq (by simp)
    | [_], h => exact absurd h.length_eq (by simp; omega)
    | a :: b :: digits, h =>
      obtain ⟨ha, hb, hrest⟩ := h.cons_cons
      obtain ⟨hpacked, hsum⟩ := ih hrest
      refine ⟨⟨?_, ?_⟩, ?_⟩
      · rw [Lib.pairSums, List.length_cons, hpacked.length_eq]
      · intro d hd
        rcases List.mem_cons.1 hd with rfl | hd
        · omega
        · exact hpacked.le d hd
      · rw [Lib.pairSums, List.sum_cons, hsum, List.sum_cons, List.sum_cons, Nat.add_assoc]

theorem Packed.ofDigits_lt (h : Packed w n digits) (hw : 0 < w) :
    Nat.ofDigits (2 ^ w) digits < 2 ^ (w * n) := by
  rw [pow_mul, ← h.length_eq]
  apply Nat.ofDigits_lt_base_pow_length (Nat.one_lt_two_pow hw.ne')
  intro d hd
  exact (h.le d hd).trans_lt Nat.lt_two_pow_self

/-- The bits of a string are digits of one bit each. -/
theorem packed_bits (bits : List Bool) :
    Packed 1 bits.length (bits.reverse.map Bool.toNat) ∧
      (bits.reverse.map Bool.toNat).sum = bits.count true := by
  refine ⟨⟨by simp, ?_⟩, ?_⟩
  · intro d hd
    obtain ⟨b, _, rfl⟩ := List.mem_map.1 hd
    exact b.toNat_le
  · induction bits with
    | nil => rfl
    | cons b bits ih =>
      rw [count_cons, ← ih, List.reverse_cons, List.map_append, List.sum_append]
      simp

end PackedSums

end SophiaTX.Lib
