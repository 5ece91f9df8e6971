import Mathlib.Data.Nat.Digits.Defs
import Mathlib.Data.Nat.Digits.Lemmas
import SophiaTX.Protocol.Types

/-!
# Asset symbols

A symbol is stored as the bytes of its name in one `uint64_t`, the first character lowest. Names
of ASCII characters that do not end in a zero byte can be read back. The characters are signed: one
with the high bit set overwrites everything that comes after it in the name.
-/

namespace SophiaTX.Protocol

open SophiaTX.Lib

/-! ## Encoding and decoding -/

/-- `uint64_t(c)` for a character, which extends its sign. -/
def uint64OfChar (c : UInt8) : ℕ :=
  if c.toNat < 128 then c.toNat else 18446744073709551360 + c.toNat

/-- The loop of `from_string`, which goes from the last character to the first. -/
def symbolValue : Bytes → ℕ
  | [] => 0
  | c :: rest => (symbolValue rest * 256 % 18446744073709551616) ||| uint64OfChar c

/-- `asset_symbol_type::from_string`. -/
def symbolFromString (str : Bytes) : Exec AssetSymbol := do
  fcAssert (3 ≤ str.length ∧ str.length ≤ 6) "invalid symbol length"
  pure (symbolValue str)

/-- The loop of `to_string`, for a value of that many bytes. -/
def symbolBytes : ℕ → AssetSymbol → Bytes
  | 0, _ => []
  | n + 1, symbol => if symbol = 0 then [] else UInt8.ofNat symbol :: symbolBytes n (symbol / 256)

/-- `asset_symbol_type::to_string`. -/
def symbolToString (symbol : AssetSymbol) : Bytes := symbolBytes 8 symbol

/-- No character has the high bit set, and the last one is not zero. -/
def PlainName (str : Bytes) : Prop := (∀ c ∈ str, c.toNat < 128) ∧ str.getLast? ≠ some 0

instance (str : Bytes) : Decidable (PlainName str) := inferInstanceAs (Decidable (_ ∧ _))

variable {str : Bytes} {c : UInt8} {n : ℕ} {symbol : AssetSymbol}

theorem symbolFromString_eq_ok :
    symbolFromString str = .ok symbol ↔
      (3 ≤ str.length ∧ str.length ≤ 6) ∧ symbolValue str = symbol := by
  simp only [symbolFromString, bind_eq_ok, fcAssert_eq_ok, pure_eq_ok, exists_and_left,
    exists_const]

/-! ## Digits -/

/-- The characters read back are the digits of the value. -/
theorem symbolBytes_eq (h : symbol < 256 ^ n) :
    symbolBytes n symbol = (Nat.digits 256 symbol).map UInt8.ofNat := by
  induction n generalizing symbol with
  | zero =>
    obtain rfl : symbol = 0 := Nat.lt_one_iff.1 h
    rfl
  | succ n ih =>
    by_cases hzero : symbol = 0
    · rw [symbolBytes, if_pos hzero, hzero, Nat.digits_zero]
      rfl
    · have hrest : symbol / 256 < 256 ^ n := by
        rw [pow_succ] at h
        exact Nat.div_lt_of_lt_mul (Nat.mul_comm _ _ ▸ h)
      have hfirst : UInt8.ofNat symbol = UInt8.ofNat (symbol % 256) := by
        apply UInt8.toNat_inj.1
        rw [UInt8.toNat_ofNat', UInt8.toNat_ofNat', Nat.mod_mod]
      rw [symbolBytes, if_neg hzero, ih hrest,
        Nat.digits_def' (by decide) (Nat.pos_of_ne_zero hzero), List.map_cons, hfirst]

theorem or_char {m : ℕ} (hc : c.toNat < 128) :
    (m * 256) ||| uint64OfChar c = c.toNat + 256 * m := by
  rw [uint64OfChar, if_pos hc, Nat.mul_comm m, ← Nat.two_pow_add_eq_or_of_lt (i := 8) (by omega) m]
  exact Nat.add_comm _ _

/-- The value of a plain name has its characters as digits. -/
theorem symbolValue_eq_ofDigits (hplain : ∀ c ∈ str, c.toNat < 128) (hlength : str.length ≤ 8) :
    symbolValue str = Nat.ofDigits 256 (str.map UInt8.toNat) := by
  induction str with
  | nil => rfl
  | cons c rest ih =>
    have hrest := ih (fun d hd ↦ hplain d (List.mem_cons_of_mem _ hd)) (Nat.le_of_succ_le hlength)
    have hbound : symbolValue rest < 256 ^ 7 := by
      rw [hrest]
      calc Nat.ofDigits 256 (rest.map UInt8.toNat) < 256 ^ (rest.map UInt8.toNat).length := by
            refine Nat.ofDigits_lt_base_pow_length (by decide) ?_
            intro d hd
            obtain ⟨c, _, rfl⟩ := List.mem_map.1 hd
            exact c.toNat_lt
        _ ≤ 256 ^ 7 := by
            refine Nat.pow_le_pow_right (by decide) ?_
            rw [List.length_map]
            exact Nat.le_of_succ_le_succ hlength
    rw [symbolValue, Nat.mod_eq_of_lt (by omega), or_char (hplain c List.mem_cons_self), hrest,
      List.map_cons, Nat.ofDigits_cons]

theorem symbolValue_lt (str : Bytes) : symbolValue str < 256 ^ 8 := by
  cases str with
  | nil => decide
  | cons c rest =>
    have hchar : uint64OfChar c < 2 ^ 64 := by
      have hc := c.toNat_lt
      rw [uint64OfChar]
      split <;> omega
    exact Nat.or_lt_two_pow (n := 64) (Nat.mod_lt _ (by decide)) hchar

/-- Everything after a character with the high bit is lost: the bits above it are all set. -/
theorem symbolValue_ge_of_signed (hlength : str.length ≤ 7) (h : ∃ c ∈ str, 128 ≤ c.toNat) :
    18446744073709551616 - 256 ^ str.length ≤ symbolValue str := by
  induction str with
  | nil =>
    obtain ⟨c, hc, _⟩ := h
    cases hc
  | cons c rest ih =>
    have hpow : 256 ^ (c :: rest).length = 256 * 256 ^ rest.length := by
      rw [List.length_cons, pow_succ, Nat.mul_comm]
    have hsmall : 256 ^ rest.length ≤ 256 ^ 6 :=
      Nat.pow_le_pow_right (by decide) (Nat.le_of_succ_le_succ hlength)
    rcases Nat.lt_or_ge c.toNat 128 with hc | hc
    · have hrest : ∃ d ∈ rest, 128 ≤ d.toNat := by
        obtain ⟨d, hd, hhigh⟩ := h
        rcases List.mem_cons.1 hd with rfl | hd
        · omega
        · exact ⟨d, hd, hhigh⟩
      have hvalue := ih (Nat.le_of_succ_le hlength) hrest
      have hlt := symbolValue_lt rest
      calc 18446744073709551616 - 256 ^ (c :: rest).length
          ≤ symbolValue rest * 256 % 18446744073709551616 := by omega
        _ ≤ symbolValue (c :: rest) := Nat.left_le_or
    · calc 18446744073709551616 - 256 ^ (c :: rest).length
          ≤ uint64OfChar c := by
            rw [uint64OfChar, if_neg (Nat.not_lt.2 hc), hpow]
            have hpos : 0 < 256 ^ rest.length := Nat.pow_pos (by decide)
            omega
        _ ≤ symbolValue (c :: rest) := Nat.right_le_or

/-! ## Names that are read back -/

theorem symbolToString_symbolValue_iff (hlength : str.length ≤ 6) :
    symbolToString (symbolValue str) = str ↔ PlainName str := by
  rw [symbolToString, symbolBytes_eq (symbolValue_lt str)]
  constructor
  · intro hread
    refine ⟨?_, fun hlast ↦ ?_⟩
    · by_contra hsigned
      push Not at hsigned
      have hvalue := symbolValue_ge_of_signed (by omega) hsigned
      have hdigits : (Nat.digits 256 (symbolValue str)).length = str.length := by
        rw [← List.length_map (f := UInt8.ofNat), hread]
      have hlt : symbolValue str < 256 ^ str.length := by
        rw [← hdigits]
        exact Nat.lt_base_pow_length_digits (by decide)
      have hpow : 256 ^ str.length ≤ 256 ^ 6 := Nat.pow_le_pow_right (by decide) hlength
      omega
    · rw [← hread, List.getLast?_map, Option.map_eq_some_iff] at hlast
      obtain ⟨d, hd, hzero⟩ := hlast
      have hdigit : d < 256 := Nat.digits_lt_base (by decide) (List.mem_of_getLast? hd)
      have hvalue : symbolValue str ≠ 0 := by
        intro hempty
        rw [hempty, Nat.digits_zero] at hd
        cases hd
      have hne : d ≠ 0 := by
        rw [List.getLast?_eq_some_getLast (Nat.digits_ne_nil_iff_ne_zero.2 hvalue)] at hd
        exact Option.some.inj hd ▸ Nat.getLast_digit_ne_zero 256 hvalue
      have hbyte := congrArg UInt8.toNat hzero
      rw [UInt8.toNat_ofNat', Nat.mod_eq_of_lt hdigit] at hbyte
      exact hne hbyte
  · rintro ⟨hplain, hlast⟩
    have hdigits : Nat.digits 256 (symbolValue str) = str.map UInt8.toNat := by
      rw [symbolValue_eq_ofDigits hplain (by omega)]
      refine Nat.digits_ofDigits 256 (by decide) _ ?_ ?_
      · intro d hd
        obtain ⟨c, _, rfl⟩ := List.mem_map.1 hd
        exact c.toNat_lt
      · intro hne hzero
        refine hlast ?_
        have hmap : (str.map UInt8.toNat).getLast? = some 0 := by
          rw [List.getLast?_eq_some_getLast hne, hzero]
        rw [List.getLast?_map, Option.map_eq_some_iff] at hmap
        obtain ⟨c, hc, hzero⟩ := hmap
        have hc' : c = 0 := UInt8.toNat_inj.1 hzero
        rw [hc, hc']
    have hid : UInt8.ofNat ∘ UInt8.toNat = id := funext fun _ ↦ UInt8.ofNat_toNat
    rw [hdigits, List.map_map, hid, List.map_id]

/-- Every name of a set is read back, and no two of them share a symbol. -/
structure ReadBack (names : Set Bytes) : Prop where
  toString_fromString : ∀ str ∈ names, ∀ symbol, symbolFromString str = .ok symbol →
    symbolToString symbol = str
  injective : ∀ str ∈ names, ∀ str' ∈ names, ∀ symbol, symbolFromString str = .ok symbol →
    symbolFromString str' = .ok symbol → str = str'

theorem readBack_iff (names : Set Bytes) : ReadBack names ↔
    ∀ str ∈ names, 3 ≤ str.length ∧ str.length ≤ 6 → PlainName str := by
  constructor
  · intro h str hstr hlength
    refine (symbolToString_symbolValue_iff hlength.2).1 ?_
    exact h.toString_fromString str hstr _ (symbolFromString_eq_ok.2 ⟨hlength, rfl⟩)
  · intro hplain
    have hread : ∀ str ∈ names, ∀ symbol, symbolFromString str = .ok symbol →
        symbolToString symbol = str := by
      intro str hstr symbol hsymbol
      obtain ⟨hlength, rfl⟩ := symbolFromString_eq_ok.1 hsymbol
      exact (symbolToString_symbolValue_iff hlength.2).2 (hplain str hstr hlength)
    refine ⟨hread, ?_⟩
    intro str hstr str' hstr' symbol hsymbol hsymbol'
    rw [← hread str hstr symbol hsymbol, hread str' hstr' symbol hsymbol']

/-- Two names that differ in an accented letter have one symbol. -/
theorem accented_names_share_symbol :
    symbolFromString [97, 195, 169] = symbolFromString [97, 195, 168] ∧
      ¬ ReadBack {[97, 195, 169], [97, 195, 168]} := by
  have hshared : symbolFromString [97, 195, 169] = symbolFromString [97, 195, 168] := by
    decide +kernel
  refine ⟨hshared, fun h ↦ ?_⟩
  have hfirst : symbolFromString [97, 195, 169] = .ok (symbolValue [97, 195, 169]) := rfl
  have hsame := h.injective _ (.inl rfl) _ (.inr rfl) _ hfirst (hshared.symm.trans hfirst)
  exact absurd hsame (by decide)

end SophiaTX.Protocol
