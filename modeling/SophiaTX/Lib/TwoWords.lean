import Mathlib.Tactic.Ring

/-!
# Numbers in two words

A number of twice the width of a word is kept in two words, the upper one in front. Shifts move
bits from the lower word into the upper one, and sums carry from the lower words.
-/

namespace SophiaTX.Lib

variable {w : ℕ}

theorem toNat_append_eq (hi lo : BitVec w) : (hi ++ lo).toNat = hi.toNat * 2 ^ w + lo.toNat := by
  rw [BitVec.toNat_append, ← Nat.shiftLeft_add_eq_or_of_lt lo.isLt, Nat.shiftLeft_eq]

/-! ## Shifts -/

/-- A shift by less than a word moves the upper bits of the lower word up. -/
theorem append_shiftLeft_of_lt (hi lo : BitVec w) {n : ℕ} (hn : n < w) :
    (hi ++ lo) <<< n =
      (hi <<< n ||| (lo &&& ~~~(BitVec.allOnes w >>> n)) >>> (w - n)) ++ (lo <<< n) := by
  ext i hi'
  simp only [BitVec.getElem_shiftLeft, BitVec.getElem_append, BitVec.getElem_or,
    BitVec.getElem_ushiftRight, BitVec.getLsbD_and, BitVec.getLsbD_not,
    BitVec.getLsbD_ushiftRight, BitVec.getLsbD_allOnes]
  by_cases hlow : i < w
  · by_cases hshift : i < n
    · simp [hlow, hshift]
    · have hsource : i - n < w := by omega
      simp [hlow, hshift, hsource]
  · have hge : ¬ i < n := by omega
    by_cases hshift : i - w < n
    · -- The bit comes from the lower word.
      have hsource : i - n < w := by omega
      have hindex : w - n + (i - w) = i - n := by omega
      have hmask : ¬ n + (i - n) < w := by omega
      simp [hlow, hshift, hge, hsource, hindex, hmask]
    · have hsource : ¬ i - n < w := by omega
      have hnone : ¬ w - n + (i - w) < w := by omega
      have hindex : i - w - n = i - n - w := by omega
      simp [hlow, hshift, hge, hsource, hnone, hindex]

/-- A shift by a word or more leaves nothing of the upper word. -/
theorem append_shiftLeft_of_le (hi lo : BitVec w) {n : ℕ} (hn : w ≤ n) :
    (hi ++ lo) <<< n = (lo <<< (n - w)) ++ 0#w := by
  ext i hi'
  simp only [BitVec.getElem_shiftLeft, BitVec.getElem_append]
  by_cases hlow : i < w
  · have hzero : i < n := by omega
    simp [hlow, hzero]
  · by_cases hshift : i < n
    · have hzero : i - w < n - w := by omega
      simp [hlow, hshift, hzero]
    · have hbit : ¬ i - w < n - w := by omega
      have hsource : i - n < w := by omega
      have hindex : i - w - (n - w) = i - n := by omega
      simp [hlow, hshift, hbit, hsource, hindex]

/-! ## Sums -/

theorem mul_add_mod_mul_self {a r b : ℕ} (hr : r < b) :
    (a * b + r) % (b * b) = a % b * b + r := by
  have hb : 0 < b := Nat.zero_lt_of_lt hr
  have hdiv : (a * b + r) / b = a := by
    rw [Nat.add_comm, Nat.add_mul_div_right r a hb, Nat.div_eq_of_lt hr, Nat.zero_add]
  have hmod : (a * b + r) % b = r := by
    rw [Nat.add_comm, Nat.add_mul_mod_self_right, Nat.mod_eq_of_lt hr]
  rw [Nat.mod_mul, hdiv, hmod, Nat.mul_comm b, Nat.add_comm]

/-- The lower words carry exactly if their sum is less than either. -/
theorem append_add_append (hi lo hi' lo' : BitVec w) :
    (hi ++ lo) + (hi' ++ lo') =
      (hi + (hi' + if lo + lo' < lo then 1#w else 0#w)) ++ (lo + lo') := by
  have hlo := lo.isLt
  have hlo' := lo'.isLt
  have hsum (c : BitVec w) : (hi + (hi' + c)).toNat =
      (hi.toNat + hi'.toNat + c.toNat) % 2 ^ w := by
    rw [BitVec.toNat_add, BitVec.toNat_add, Nat.add_mod_mod, Nat.add_assoc]
  apply BitVec.eq_of_toNat_eq
  rw [BitVec.toNat_add, toNat_append_eq, toNat_append_eq, toNat_append_eq, hsum, pow_add]
  by_cases hcarry : lo.toNat + lo'.toNat < 2 ^ w
  · have hlow : (lo + lo').toNat = lo.toNat + lo'.toNat := Nat.mod_eq_of_lt hcarry
    have hnone : ¬ lo + lo' < lo := by
      rw [BitVec.lt_def, hlow]
      omega
    rw [if_neg hnone, hlow, BitVec.toNat_ofNat, Nat.zero_mod, Nat.add_zero,
      ← mul_add_mod_mul_self hcarry]
    congr 1
    ring
  · have hlow : (lo + lo').toNat = lo.toNat + lo'.toNat - 2 ^ w := by
      rw [BitVec.toNat_add, Nat.mod_eq_sub_mod (Nat.le_of_not_lt hcarry),
        Nat.mod_eq_of_lt (by omega)]
    have hsome : lo + lo' < lo := by
      rw [BitVec.lt_def, hlow]
      omega
    have hrest : lo.toNat + lo'.toNat - 2 ^ w < 2 ^ w := by omega
    rw [if_pos hsome, hlow, BitVec.toNat_ofNat, Nat.add_mod_mod, ← mul_add_mod_mul_self hrest]
    congr 1
    calc hi.toNat * 2 ^ w + lo.toNat + (hi'.toNat * 2 ^ w + lo'.toNat)
        = (hi.toNat + hi'.toNat) * 2 ^ w + (lo.toNat + lo'.toNat) := by ring
      _ = (hi.toNat + hi'.toNat) * 2 ^ w + (2 ^ w + (lo.toNat + lo'.toNat - 2 ^ w)) := by
        rw [Nat.add_sub_cancel' (Nat.le_of_not_lt hcarry)]
      _ = (hi.toNat + hi'.toNat + 1) * 2 ^ w + (lo.toNat + lo'.toNat - 2 ^ w) := by ring

end SophiaTX.Lib
