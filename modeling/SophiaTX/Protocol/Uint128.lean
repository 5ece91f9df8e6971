import SophiaTX.Lib.BitStrings
import SophiaTX.Lib.TwoWords

/-!
# Unsigned integers of 128 bits

`fc::uint128` keeps a number in two words of 64 bits. Its shifts, sums and its count of one bits
are computed word by word.
-/

namespace SophiaTX.Protocol

open SophiaTX.Lib

/-- `fc::uint128`. -/
structure Uint128 where
  hi : BitVec 64
  lo : BitVec 64
deriving DecidableEq

namespace Uint128

def toNat (x : Uint128) : ℕ := x.hi.toNat * 2 ^ 64 + x.lo.toNat

def ofNat (n : ℕ) : Uint128 := ⟨BitVec.ofNat 64 (n / 2 ^ 64), BitVec.ofNat 64 n⟩

/-- `operator+=`. -/
def add (x u : Uint128) : Uint128 :=
  let lo := x.lo + u.lo
  ⟨x.hi + (u.hi + if lo < x.lo then 1 else 0), lo⟩

/-- `operator<<=`, by less than half of the width. -/
def shiftLeftWord (x : Uint128) (n : ℕ) : Uint128 :=
  if n ≠ 0 then
    let mask := ~~~(BitVec.allOnes 64 >>> n)
    ⟨x.hi <<< n ||| (x.lo &&& mask) >>> (64 - n), x.lo <<< n⟩
  else x

/-- `operator<<=`. -/
def shiftLeft (x : Uint128) (n : ℕ) : Uint128 :=
  if 128 ≤ n then ⟨0, 0⟩
  else if 64 ≤ n then shiftLeftWord ⟨x.lo, 0⟩ (n - 64)
  else shiftLeftWord x n

/-- The rounds of `_popcount_64`: how far the digits lie apart, and the mask of the even ones. -/
def popcountRounds : List (ℕ × BitVec 64) :=
  [(1, 0x5555555555555555), (2, 0x3333333333333333), (4, 0x0F0F0F0F0F0F0F0F),
    (8, 0x00FF00FF00FF00FF), (16, 0x0000FFFF0000FFFF), (32, 0x00000000FFFFFFFF)]

def popcountRound (x : BitVec 64) (round : ℕ × BitVec 64) : BitVec 64 :=
  (x &&& round.2) + (x >>> round.1 &&& round.2)

/-- `_popcount_64`. -/
def popcount64 (x : BitVec 64) : BitVec 8 := (popcountRounds.foldl popcountRound x).setWidth 8

def popcount (x : Uint128) : BitVec 8 := popcount64 x.lo + popcount64 x.hi

/-! ## Arithmetic -/

/-- The words behind one another. -/
def bits (x : Uint128) : BitVec 128 := x.hi ++ x.lo

theorem toNat_bits (x : Uint128) : x.bits.toNat = x.toNat := toNat_append_eq x.hi x.lo

theorem toNat_ofNat {n : ℕ} (h : n < 2 ^ 128) : (ofNat n).toNat = n := by
  have hhi : n / 2 ^ 64 < 2 ^ 64 := Nat.div_lt_of_lt_mul h
  rw [toNat, ofNat, BitVec.toNat_ofNat, BitVec.toNat_ofNat, Nat.mod_eq_of_lt hhi, Nat.mul_comm,
    Nat.div_add_mod]

theorem ext_toNat {x y : Uint128} (h : x.toNat = y.toNat) : x = y := by
  obtain ⟨hi, lo⟩ := x
  obtain ⟨hi', lo'⟩ := y
  have hlo := lo.isLt
  have hlo' := lo'.isLt
  simp only [toNat] at h
  rw [mk.injEq]
  constructor
  · apply BitVec.eq_of_toNat_eq
    omega
  · apply BitVec.eq_of_toNat_eq
    omega

theorem toNat_add (x u : Uint128) : (x.add u).toNat = (x.toNat + u.toNat) % 2 ^ 128 := by
  calc (x.add u).toNat
      = (x.bits + u.bits).toNat := by
        rw [← toNat_bits]
        exact congrArg BitVec.toNat (append_add_append x.hi x.lo u.hi u.lo).symm
    _ = (x.toNat + u.toNat) % 2 ^ 128 := by rw [BitVec.toNat_add, toNat_bits, toNat_bits]

theorem bits_shiftLeftWord (x : Uint128) {n : ℕ} (hn : n < 64) :
    (x.shiftLeftWord n).bits = x.bits <<< n := by
  rcases Nat.eq_zero_or_pos n with rfl | hpos
  · rw [BitVec.shiftLeft_zero]
    rfl
  · rw [shiftLeftWord, if_pos hpos.ne', bits, bits, append_shiftLeft_of_lt _ _ hn]

theorem bits_shiftLeft (x : Uint128) (n : ℕ) : (x.shiftLeft n).bits = x.bits <<< n := by
  unfold shiftLeft
  split
  · next hn =>
    rw [BitVec.shiftLeft_eq_zero hn]
    rfl
  · split
    · next hlarge hn =>
      have hword : n - 64 < 64 := by omega
      rw [bits_shiftLeftWord _ hword, bits, bits, append_shiftLeft_of_le _ _ hn,
        append_shiftLeft_of_lt _ _ hword]
      simp
    · next hlarge hn => exact bits_shiftLeftWord x (by omega)

theorem toNat_shiftLeft (x : Uint128) (n : ℕ) :
    (x.shiftLeft n).toNat = x.toNat * 2 ^ n % 2 ^ 128 := by
  rw [← toNat_bits, bits_shiftLeft, BitVec.toNat_shiftLeft, toNat_bits, Nat.shiftLeft_eq]

/-- The highest bit of the upper word is that of the number. -/
theorem hi_and_ne_zero (x : Uint128) :
    (x.hi &&& 0x8000000000000000 != 0) = decide (x.toNat / 2 ^ 127 % 2 = 1) := by
  have hmask : (0x8000000000000000 : BitVec 64) = BitVec.twoPow 64 63 := by rfl
  have hlo := x.lo.isLt
  have hdiv : x.toNat / 2 ^ 127 = x.hi.toNat / 2 ^ 63 := by
    rw [toNat]
    omega
  rw [hmask, BitVec.and_twoPow, hdiv, ← Nat.testBit_eq_decide_div_mod_eq]
  cases hbit : x.hi.getLsbD 63 with
  | false =>
    rw [if_neg Bool.false_ne_true]
    exact hbit.symm
  | true =>
    rw [if_pos rfl]
    exact hbit.symm

/-! ## Counting ones -/

/-- A number whose digits of `w` bits are counts with the given sum. -/
def Counts (w n total : ℕ) (x : BitVec 64) : Prop :=
  ∃ digits, Packed w n digits ∧ x.toNat = Nat.ofDigits (2 ^ w) digits ∧ digits.sum = total

theorem Counts.round {w n total : ℕ} {x mask : BitVec 64} (h : Counts w (2 * n) total x)
    (hw : 0 < w) (hwidth : 2 * w * n = 64) (hmask : mask.toNat = evenMask w n) :
    Counts (2 * w) n total (popcountRound x (w, mask)) := by
  obtain ⟨digits, hpacked, hx, hsum⟩ := h
  obtain ⟨hpacked', hsum'⟩ := hpacked.pairSums
  have hlt := hpacked'.ofDigits_lt (by omega)
  rw [hwidth] at hlt
  refine ⟨pairSums digits, hpacked', ?_, hsum'.trans hsum⟩
  rw [popcountRound, BitVec.toNat_add, BitVec.toNat_and, BitVec.toNat_and,
    BitVec.toNat_ushiftRight, Nat.shiftRight_eq_div_pow, hmask, hx, packedSum hpacked,
    Nat.mod_eq_of_lt hlt]

/-- What is left of a count when one digit is left. -/
theorem Counts.toNat_eq {w total : ℕ} {x : BitVec 64} (h : Counts w 1 total x) :
    x.toNat = total := by
  obtain ⟨digits, hpacked, hx, rfl⟩ := h
  obtain ⟨d, rfl⟩ := List.length_eq_one_iff.1 hpacked.length_eq
  rw [hx, Nat.ofDigits_singleton, List.sum_singleton]

/-- After six rounds the whole word is one digit. -/
theorem popcount64_eq {x : BitVec 64} {bits : List Bool} (hlength : bits.length = 64)
    (hx : x.toNat = ofBits bits) : (popcount64 x).toNat = bits.count true := by
  obtain ⟨hpacked, hsum⟩ := packed_bits bits
  rw [hlength] at hpacked
  have h₁ : Counts 1 64 (bits.count true) x := ⟨_, hpacked, hx, hsum⟩
  have h₂ := @Counts.round 1 32 _ _ 0x5555555555555555 h₁ (by decide) rfl rfl
  have h₄ := @Counts.round 2 16 _ _ 0x3333333333333333 h₂ (by decide) rfl rfl
  have h₈ := @Counts.round 4 8 _ _ 0x0F0F0F0F0F0F0F0F h₄ (by decide) rfl rfl
  have h₁₆ := @Counts.round 8 4 _ _ 0x00FF00FF00FF00FF h₈ (by decide) rfl rfl
  have h₃₂ := @Counts.round 16 2 _ _ 0x0000FFFF0000FFFF h₁₆ (by decide) rfl rfl
  have h₆₄ := @Counts.round 32 1 _ _ 0x00000000FFFFFFFF h₃₂ (by decide) rfl rfl
  have hcount : bits.count true < 2 ^ 8 := List.count_le_length.trans_lt (by rw [hlength]; decide)
  calc (popcount64 x).toNat
      = (popcountRounds.foldl popcountRound x).toNat % 2 ^ 8 := BitVec.toNat_setWidth _ _
    _ = bits.count true % 2 ^ 8 := congrArg (· % 2 ^ 8) h₆₄.toNat_eq
    _ = bits.count true := Nat.mod_eq_of_lt hcount

/-- `popcount` counts the ones of both words. -/
theorem popcount_eq {x : Uint128} {bits : List Bool} (hlength : bits.length = 128)
    (hx : x.toNat = ofBits bits) : x.popcount.toNat = bits.count true := by
  have hhigh : (bits.take 64).length = 64 := by rw [List.length_take, hlength]; rfl
  have hlow : (bits.drop 64).length = 64 := by rw [List.length_drop, hlength]
  have hsplit := hx
  rw [← List.take_append_drop 64 bits, ofBits_append, hlow, toNat] at hsplit
  have hlo := x.lo.isLt
  have hlt : ofBits (bits.drop 64) < 2 ^ 64 := by
    have hlt := @ofBits_lt (bits.drop 64)
    rwa [hlow] at hlt
  have hcount : bits.count true ≤ 128 := hlength ▸ List.count_le_length
  have hsum : (bits.take 64).count true + (bits.drop 64).count true = bits.count true := by
    rw [← List.count_append, List.take_append_drop]
  rw [popcount, BitVec.toNat_add, popcount64_eq hlow (by omega), popcount64_eq hhigh (by omega),
    Nat.add_comm, hsum, Nat.mod_eq_of_lt (by omega)]

end Uint128

end SophiaTX.Protocol
