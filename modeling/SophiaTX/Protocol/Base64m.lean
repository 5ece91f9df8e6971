import SophiaTX.Lib.Sextets
import SophiaTX.Protocol.Types

/-!
# The alphabet of names

The base64 variant in which account names are written: its two last characters are `-` and `_`.
Decoding stops at the first character outside the alphabet.
-/

namespace SophiaTX.Protocol

open SophiaTX.Lib

/-! ## Encoding and decoding -/

/-- `base64m_chars()`. -/
def base64mChars : Bytes :=
  "ABCDEFGHIJKLMNOPQRSTUVWXYZabcdefghijklmnopqrstuvwxyz0123456789-_".toList.map
    fun c ↦ UInt8.ofNat c.toNat

/-- `base64m_chars()[ n ]`. -/
def base64mChar (n : ℕ) : UInt8 := base64mChars.getD n 0

/-- `base64m_chars().find( c )`. -/
def base64mIndex (c : UInt8) : UInt8 :=
  if c ∈ base64mChars then UInt8.ofNat (base64mChars.idxOf c) else 255

def isBase64m (c : UInt8) : Bool :=
  (48 ≤ c && c ≤ 57) || (65 ≤ c && c ≤ 90) || (97 ≤ c && c ≤ 122) || c == 45 || c == 95

/-- `char_array_4` of the encoder. -/
def charArray4 (a b c : UInt8) : List UInt8 :=
  [(a &&& 0xfc) >>> 2, ((a &&& 0x03) <<< 4) + ((b &&& 0xf0) >>> 4),
    ((b &&& 0x0f) <<< 2) + ((c &&& 0xc0) >>> 6), c &&& 0x3f]

/-- `char_array_3` of the decoder. -/
def charArray3 (a b c d : UInt8) : List UInt8 :=
  [(a <<< 2) + ((b &&& 0x30) >>> 4), ((b &&& 0xf) <<< 4) + ((c &&& 0x3c) >>> 2),
    ((c &&& 0x3) <<< 6) + d]

def base64mEncode : Bytes → Bytes
  | a :: b :: c :: bytes =>
    (charArray4 a b c).map (fun n ↦ base64mChar n.toNat) ++ base64mEncode bytes
  | [a, b] => ((charArray4 a b 0).take 3).map (fun n ↦ base64mChar n.toNat) ++ [61]
  | [a] => ((charArray4 a 0 0).take 2).map (fun n ↦ base64mChar n.toNat) ++ [61, 61]
  | [] => []

/-- The decoder on the characters before the one it stops at. -/
def decodeGroups : Bytes → Bytes
  | a :: b :: c :: d :: str =>
    charArray3 (base64mIndex a) (base64mIndex b) (base64mIndex c) (base64mIndex d) ++
      decodeGroups str
  | [a, b, c] =>
    (charArray3 (base64mIndex a) (base64mIndex b) (base64mIndex c) (base64mIndex 0)).take 2
  | [a, b] =>
    (charArray3 (base64mIndex a) (base64mIndex b) (base64mIndex 0) (base64mIndex 0)).take 1
  | _ => []

def base64mDecode (str : Bytes) : Bytes :=
  decodeGroups (str.takeWhile fun c ↦ c != 61 && isBase64m c)

def replaceChar (old new : UInt8) (str : Bytes) : Bytes :=
  str.map fun c ↦ if c = old then new else c

def normalizeToBase64m (str : Bytes) : Bytes := replaceChar 47 95 (replaceChar 43 45 str)

def normalizeToBase64 (str : Bytes) : Bytes := replaceChar 95 47 (replaceChar 45 43 str)

/-- The place of a character in the alphabet. -/
def base64mValue (c : UInt8) : ℕ := base64mChars.idxOf c

/-! ## Characters -/

theorem base64mValue_char {n : ℕ} (h : n < 64) : base64mValue (base64mChar n) = n := by
  revert n
  decide +kernel

theorem base64mChar_mem {n : ℕ} (h : n < 64) : base64mChar n ∈ base64mChars := by
  revert n
  decide +kernel

theorem base64mChar_eq_A {n : ℕ} (h : n < 64) : base64mChar n = 65 ↔ n = 0 := by
  revert n
  decide +kernel

/-- What holds of every character in the alphabet. -/
theorem forall_base64mChars :
    ∀ c ∈ base64mChars, base64mChar (base64mValue c) = c ∧ base64mValue c < 64 ∧
      isBase64m c = true ∧ c ≠ 61 ∧ c ≠ 43 ∧ c ≠ 47 ∧ (base64mValue c = 0 → c = 65) := by
  decide +kernel

theorem base64mIndex_eq {c : UInt8} (h : c ∈ base64mChars) :
    base64mIndex c = UInt8.ofNat (base64mValue c) := by
  rw [base64mIndex, if_pos h, base64mValue]

/-! ## Whole groups -/

/-- The bits of a byte that the encoder takes out of it. -/
theorem encoder_fields (a : UInt8) :
    ((a &&& 0xfc) >>> 2).toNat = a.toNat / 4 ∧ ((a &&& 0x03) <<< 4).toNat = a.toNat % 4 * 16 ∧
      ((a &&& 0xf0) >>> 4).toNat = a.toNat / 16 ∧ ((a &&& 0x0f) <<< 2).toNat = a.toNat % 16 * 4 ∧
      ((a &&& 0xc0) >>> 6).toNat = a.toNat / 64 ∧ (a &&& 0x3f).toNat = a.toNat % 64 := by
  have hall : ∀ n < 256, ((UInt8.ofNat n &&& 0xfc) >>> 2).toNat = n / 4 ∧
      ((UInt8.ofNat n &&& 0x03) <<< 4).toNat = n % 4 * 16 ∧
      ((UInt8.ofNat n &&& 0xf0) >>> 4).toNat = n / 16 ∧
      ((UInt8.ofNat n &&& 0x0f) <<< 2).toNat = n % 16 * 4 ∧
      ((UInt8.ofNat n &&& 0xc0) >>> 6).toNat = n / 64 ∧
      (UInt8.ofNat n &&& 0x3f).toNat = n % 64 := by decide +kernel
  have ha := hall a.toNat a.toNat_lt
  rwa [UInt8.ofNat_toNat] at ha

/-- The bits of a group that the decoder takes out of it. -/
theorem decoder_fields {n : ℕ} (h : n < 64) :
    (UInt8.ofNat n <<< 2).toNat = n * 4 ∧ ((UInt8.ofNat n &&& 0x30) >>> 4).toNat = n / 16 ∧
      ((UInt8.ofNat n &&& 0xf) <<< 4).toNat = n % 16 * 16 ∧
      ((UInt8.ofNat n &&& 0x3c) >>> 2).toNat = n / 4 ∧
      ((UInt8.ofNat n &&& 0x3) <<< 6).toNat = n % 4 * 64 := by
  revert n
  decide +kernel

theorem charArray4_eq (a b c : UInt8) :
    (charArray4 a b c).map UInt8.toNat =
      [a.toNat / 4, a.toNat % 4 * 16 + b.toNat / 16, b.toNat % 16 * 4 + c.toNat / 64,
        c.toNat % 64] := by
  obtain ⟨ha, ha', _, _, _, _⟩ := encoder_fields a
  obtain ⟨_, _, hb, hb', _, _⟩ := encoder_fields b
  obtain ⟨_, _, _, _, hc, hc'⟩ := encoder_fields c
  have hab : a.toNat % 4 * 16 + b.toNat / 16 < 256 := by
    have := b.toNat_lt
    omega
  have hbc : b.toNat % 16 * 4 + c.toNat / 64 < 256 := by
    have := c.toNat_lt
    omega
  simp only [charArray4, List.map_cons, List.map_nil, UInt8.toNat_add, ha, ha', hb, hb', hc, hc']
  rw [Nat.mod_eq_of_lt hab, Nat.mod_eq_of_lt hbc]

theorem charArray3_eq {a b c : ℕ} (ha : a < 64) (hb : b < 64) (hc : c < 64) (d : ℕ) :
    charArray3 (UInt8.ofNat a) (UInt8.ofNat b) (UInt8.ofNat c) (UInt8.ofNat d) =
      [UInt8.ofNat (a * 4 + b / 16), UInt8.ofNat (b % 16 * 16 + c / 4),
        UInt8.ofNat (c % 4 * 64 + d)] := by
  obtain ⟨ha', _⟩ := decoder_fields ha
  obtain ⟨_, hb', hb'', _⟩ := decoder_fields hb
  obtain ⟨_, _, _, hc', hc''⟩ := decoder_fields hc
  have hsum {x y : UInt8} {m n : ℕ} (hx : x.toNat = m) (hy : y.toNat = n) :
      x + y = UInt8.ofNat (m + n) := by
    rw [UInt8.ofNat_add, ← hx, ← hy, UInt8.ofNat_toNat, UInt8.ofNat_toNat]
  have hlast : (UInt8.ofNat c &&& 0x3) <<< 6 + UInt8.ofNat d = UInt8.ofNat (c % 4 * 64 + d) := by
    rw [UInt8.ofNat_add, ← hc'', UInt8.ofNat_toNat]
  rw [charArray3, hsum ha' hb', hsum hb'' hc', hlast]

/-- Encoding whole groups of three bytes. -/
theorem base64mEncode_eq {bytes : Bytes} (h : 3 ∣ bytes.length) :
    base64mEncode bytes = (sextets bytes).map base64mChar := by
  induction bytes, h using induction_threes with
  | nil => rfl
  | group a b c bytes _ _ ih =>
    have hgroup : (charArray4 a b c).map (fun n ↦ base64mChar n.toNat) =
        ((charArray4 a b c).map UInt8.toNat).map base64mChar := by
      rw [List.map_map]
      rfl
    rw [base64mEncode, hgroup, charArray4_eq, ih, sextets]
    rfl

theorem decodeGroups_eq {str : Bytes} (h : 4 ∣ str.length)
    (halphabet : ∀ c ∈ str, c ∈ base64mChars) :
    decodeGroups str = octets (str.map base64mValue) := by
  induction str, h using induction_fours with
  | nil => rfl
  | group a b c d str _ _ ih =>
    simp only [List.mem_cons, forall_eq_or_imp] at halphabet
    obtain ⟨ha, hb, hc, hd, hstr⟩ := halphabet
    rw [decodeGroups, base64mIndex_eq ha, base64mIndex_eq hb, base64mIndex_eq hc,
      base64mIndex_eq hd, charArray3_eq (forall_base64mChars a ha).2.1
        (forall_base64mChars b hb).2.1 (forall_base64mChars c hc).2.1, ih hstr]
    rfl

/-- Decoding a string over the alphabet, of whole groups of four characters. -/
theorem base64mDecode_eq {str : Bytes} (h : 4 ∣ str.length)
    (halphabet : ∀ c ∈ str, c ∈ base64mChars) :
    base64mDecode str = octets (str.map base64mValue) := by
  have hall : str.takeWhile (fun c ↦ c != 61 && isBase64m c) = str := by
    rw [List.takeWhile_eq_self_iff]
    intro c hc
    obtain ⟨_, _, hvalid, hpad, _⟩ := forall_base64mChars c (halphabet c hc)
    rw [hvalid, Bool.and_true, bne_iff_ne]
    exact hpad
  rw [base64mDecode, hall, decodeGroups_eq h halphabet]

theorem replaceChar_of_not_mem {old new : UInt8} {str : Bytes} (h : old ∉ str) :
    replaceChar old new str = str := by
  calc str.map (fun c ↦ if c = old then new else c) = str.map id := by
        apply List.map_congr_left
        intro c hc
        have hne : c ≠ old := fun hold ↦ h (hold ▸ hc)
        exact if_neg hne
    _ = str := List.map_id str

/-- Strings over the alphabet are normal already. -/
theorem normalizeToBase64m_eq {str : Bytes} (halphabet : ∀ c ∈ str, c ∈ base64mChars) :
    normalizeToBase64m str = str := by
  have hplus : (43 : UInt8) ∉ str := fun h ↦ (forall_base64mChars 43 (halphabet 43 h)).2.2.2.2.1 rfl
  have hslash : (47 : UInt8) ∉ str :=
    fun h ↦ (forall_base64mChars 47 (halphabet 47 h)).2.2.2.2.2.1 rfl
  rw [normalizeToBase64m, replaceChar_of_not_mem hplus, replaceChar_of_not_mem hslash]

/-- A string over the alphabet is restored from its other normal form. -/
theorem normalizeToBase64m_normalizeToBase64 {str : Bytes}
    (halphabet : ∀ c ∈ str, c ∈ base64mChars) :
    normalizeToBase64m (normalizeToBase64 str) = str := by
  rw [normalizeToBase64m, normalizeToBase64, replaceChar, replaceChar, replaceChar, replaceChar,
    List.map_map, List.map_map, List.map_map]
  calc _ = str.map id := by
        apply List.map_congr_left
        intro c hc
        obtain ⟨_, _, _, _, hplus, hslash, _⟩ := forall_base64mChars c (halphabet c hc)
        by_cases hminus : c = 45
        · subst hminus
          rfl
        by_cases hline : c = 95
        · subst hline
          rfl
        simp only [Function.comp_apply, if_neg hminus, if_neg hline, if_neg hplus, if_neg hslash,
          id_eq]
    _ = str := List.map_id str

end SophiaTX.Protocol
