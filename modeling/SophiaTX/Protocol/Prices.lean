import Mathlib.Algebra.Order.Field.Rat
import Mathlib.Algebra.Order.Field.Basic
import Mathlib.Algebra.Order.Ring.Int
import Mathlib.Data.Rat.Cast.CharZero
import Mathlib.Tactic.FieldSimp
import Mathlib.Tactic.Positivity
import SophiaTX.Protocol.Types

/-!
# Prices

A valid price is a positive rate between two symbols. The comparison operators turn the left price
around when it is written the other way: they order the prices of one orientation, and not prices
of both. A conversion rounds down; its result goes through `uint64_t`.
-/

namespace SophiaTX.Protocol

open SophiaTX.Lib

namespace Price

/-- What `validate` accepts, with amounts of 64 bits. -/
structure Valid (p : Price) : Prop where
  base_pos : 0 < p.base.amount
  quote_pos : 0 < p.quote.amount
  symbol_ne : p.base.symbol ≠ p.quote.symbol
  base_le : p.base.amount ≤ int64Max
  quote_le : p.quote.amount ≤ int64Max

variable {a b c p : Price} {S : Set Price}

theorem validate_eq_ok : p.validate = .ok () ↔
    0 < p.base.amount ∧ 0 < p.quote.amount ∧ p.base.symbol ≠ p.quote.symbol := by
  simp [validate]

theorem Valid.validate (h : p.Valid) : p.validate = .ok () :=
  validate_eq_ok.2 ⟨h.base_pos, h.quote_pos, h.symbol_ne⟩

theorem Valid.swap (h : p.Valid) : p.swap.Valid :=
  ⟨h.quote_pos, h.base_pos, h.symbol_ne.symm, h.quote_le, h.base_le⟩

/-! ## Rates -/

/-- The units of the base for one of the quote. -/
def rate (p : Price) : ℚ := p.base.amount / p.quote.amount

theorem Valid.rate_pos (h : p.Valid) : 0 < p.rate :=
  div_pos (Int.cast_pos.2 h.base_pos) (Int.cast_pos.2 h.quote_pos)

@[simp]
theorem rate_swap (p : Price) : p.swap.rate = p.rate⁻¹ := (inv_div _ _).symm

theorem uint128OfInt_of_nonneg {x : ℤ} (hx : 0 ≤ x) (hx' : x ≤ int64Max) :
    (uint128OfInt x : ℤ) = x := by
  rw [int64Max] at hx'
  rw [uint128OfInt]
  omega

/-- Amounts of 64 bits have products of less than 128. -/
theorem uint128Mul_of_nonneg {x y : ℤ} (hx : 0 ≤ x) (hy : 0 ≤ y) (hx' : x ≤ int64Max)
    (hy' : y ≤ int64Max) : (uint128Mul (uint128OfInt x) (uint128OfInt y) : ℤ) = x * y := by
  have hsize : x * y < 340282366920938463463374607431768211456 := by
    calc x * y ≤ int64Max * int64Max := mul_le_mul hx' hy' hy (by decide)
      _ < 340282366920938463463374607431768211456 := by decide
  rw [uint128Mul, uint128Size]
  push_cast
  rw [uint128OfInt_of_nonneg hx hx', uint128OfInt_of_nonneg hy hy',
    Int.emod_eq_of_lt (mul_nonneg hx hy) hsize]

/-- The cross products of two prices of one orientation compare as their rates do. -/
theorem cross_eq {op : ℕ → ℕ → Bool} {r : ℚ → ℚ → Prop} [DecidableRel r]
    (hop : ∀ m n : ℕ, op m n = decide (r m n))
    (hscale : ∀ x y z : ℚ, 0 < z → (r (x * z) (y * z) ↔ r x y)) (ha : a.Valid) (hb : b.Valid) :
    compare.cross op a b = decide (r a.rate b.rate) := by
  have hleft := uint128Mul_of_nonneg hb.quote_pos.le ha.base_pos.le hb.quote_le ha.base_le
  have hright := uint128Mul_of_nonneg ha.quote_pos.le hb.base_pos.le ha.quote_le hb.base_le
  have haq : (0 : ℚ) < a.quote.amount := Int.cast_pos.2 ha.quote_pos
  have hbq : (0 : ℚ) < b.quote.amount := Int.cast_pos.2 hb.quote_pos
  have hcast : ∀ {n : ℕ} {x : ℤ}, (n : ℤ) = x → (n : ℚ) = x := by
    rintro n _ rfl
    exact (Int.cast_natCast n).symm
  rw [compare.cross, hop, decide_eq_decide, hcast hleft, hcast hright,
    ← hscale a.rate b.rate _ (mul_pos haq hbq), rate, rate]
  push_cast
  have hfirst : (b.quote.amount : ℚ) * a.base.amount =
      a.base.amount / a.quote.amount * (a.quote.amount * b.quote.amount) := by
    field_simp
  have hsecond : (a.quote.amount : ℚ) * b.base.amount =
      b.base.amount / b.quote.amount * (a.quote.amount * b.quote.amount) := by
    field_simp
  rw [hfirst, hsecond]

/-- A comparison of prices of one orientation, and of two orientations. -/
theorem compare_eq {op : ℕ → ℕ → Bool} {r : ℚ → ℚ → Prop} [DecidableRel r]
    (hop : ∀ m n : ℕ, op m n = decide (r m n))
    (hscale : ∀ x y z : ℚ, 0 < z → (r (x * z) (y * z) ↔ r x y)) (ha : a.Valid) (hb : b.Valid)
    (hpair : sameSymbols a b ∨ sameSymbols a.swap b) :
    compare op a b =
      .ok (decide (r (if sameSymbols a b then a.rate else a.rate⁻¹) b.rate)) := by
  rw [compare, ha.swap.validate, ok_bind]
  by_cases hsame : sameSymbols a b
  · rw [if_pos hsame, if_pos hsame, cross_eq hop hscale ha hb]
    rfl
  · rw [if_neg hsame, if_neg hsame, if_pos (hpair.resolve_left hsame), ha.swap.swap.validate,
      ok_bind, cross_eq hop hscale ha.swap hb, rate_swap]
    rfl

/-! ## The operators -/

def eq : Price → Price → Exec Bool := compare fun x y ↦ decide (x = y)

def ne : Price → Price → Exec Bool := compare fun x y ↦ decide (x ≠ y)

def le : Price → Price → Exec Bool := compare fun x y ↦ decide (x ≤ y)

def gt : Price → Price → Exec Bool := compare fun x y ↦ decide (x > y)

def ge : Price → Price → Exec Bool := compare fun x y ↦ decide (x ≥ y)

/-- The rate that the operators use for the left price. -/
def rateFor (a b : Price) : ℚ := if sameSymbols a b then a.rate else a.rate⁻¹

section Operators

variable (ha : a.Valid) (hb : b.Valid) (hpair : sameSymbols a b ∨ sameSymbols a.swap b)
include ha hb hpair

theorem lt_eq : a.lt b = .ok (decide (a.rateFor b < b.rate)) :=
  compare_eq (r := fun x y ↦ x < y) (fun _ _ ↦ by simp [Nat.cast_lt])
    (fun _ _ _ hz ↦ mul_lt_mul_iff_left₀ hz) ha hb hpair

theorem le_eq : a.le b = .ok (decide (a.rateFor b ≤ b.rate)) :=
  compare_eq (r := fun x y ↦ x ≤ y) (fun _ _ ↦ by simp [Nat.cast_le])
    (fun _ _ _ hz ↦ mul_le_mul_iff_left₀ hz) ha hb hpair

theorem eq_eq : a.eq b = .ok (decide (a.rateFor b = b.rate)) :=
  compare_eq (r := fun x y ↦ x = y) (fun _ _ ↦ by simp [Nat.cast_inj])
    (fun _ _ _ hz ↦ mul_left_inj' hz.ne') ha hb hpair

theorem ne_eq : a.ne b = .ok (decide (a.rateFor b ≠ b.rate)) :=
  compare_eq (r := fun x y ↦ x ≠ y) (fun _ _ ↦ by simp [Nat.cast_inj])
    (fun _ _ _ hz ↦ (mul_left_inj' hz.ne').not) ha hb hpair

end Operators

theorem sameSymbols_comm : sameSymbols a b ↔ sameSymbols b a :=
  and_congr eq_comm eq_comm

theorem rateFor_of_same (h : sameSymbols a b) : a.rateFor b = a.rate := if_pos h

theorem rateFor_of_turned (h : ¬ sameSymbols a b) : a.rateFor b = a.rate⁻¹ := if_neg h

/-- Turned around, the left price is compared with what stands on the right, whichever that is. -/
theorem rateFor_lt_comm (ha : a.Valid) (hb : b.Valid) (h : ¬ sameSymbols a b) :
    a.rateFor b < b.rate ↔ b.rateFor a < a.rate := by
  rw [rateFor_of_turned h, rateFor_of_turned (mt sameSymbols_comm.1 h)]
  exact inv_lt_comm₀ ha.rate_pos hb.rate_pos

theorem rateFor_eq_iff (hb : b.Valid) (h : ¬ sameSymbols a b) :
    a.rateFor b = b.rate ↔ a.rate * b.rate = 1 := by
  rw [rateFor_of_turned h, inv_eq_iff_eq_inv]
  exact (mul_eq_one_iff_eq_inv₀ hb.rate_pos.ne').symm

/-! ## The order of a set of prices -/

/-- One price is less than, equal to or greater than another, `<` is transitive, `!=` and `<=` are
what their names say, and turning a price around does not change it. -/
structure Ordered (S : Set Price) : Prop where
  trichotomy : ∀ a ∈ S, ∀ b ∈ S, ∃ less equal greater, a.lt b = .ok less ∧ a.eq b = .ok equal ∧
    b.lt a = .ok greater ∧ [less, equal, greater].count true = 1
  trans : ∀ a ∈ S, ∀ b ∈ S, ∀ c ∈ S, a.lt b = .ok true → b.lt c = .ok true → a.lt c = .ok true
  ne : ∀ a ∈ S, ∀ b ∈ S, ∃ equal, a.eq b = .ok equal ∧ a.ne b = .ok !equal
  le : ∀ a ∈ S, ∀ b ∈ S, ∃ greater, b.lt a = .ok greater ∧ a.le b = .ok !greater
  swap : ∀ a ∈ S, a.eq a.swap = .ok true

/-- Valid prices over one pair of symbols, in either orientation. -/
structure OverOnePair (S : Set Price) : Prop where
  valid : ∀ p ∈ S, p.Valid
  pair : ∀ a ∈ S, ∀ b ∈ S, sameSymbols a b ∨ sameSymbols a.swap b

/-- Exactly one of three comparisons holds. -/
theorem count_compare (x y : ℚ) :
    [decide (x < y), decide (x = y), decide (y < x)].count true = 1 := by
  rcases lt_trichotomy x y with h | rfl | h
  · simp [h, h.ne, h.not_gt]
  · simp
  · simp [h, h.ne', h.not_gt]

/-- Prices of both orientations are ordered only where they are all the same. -/
theorem ordered_iff (h : OverOnePair S) : Ordered S ↔
    ∀ a ∈ S, ∀ b ∈ S, sameSymbols a b ∨ a.rate * b.rate = 1 := by
  constructor
  · intro hordered a ha b hb
    by_cases hsame : sameSymbols a b
    · exact .inl hsame
    refine .inr ((rateFor_eq_iff (h.valid b hb) hsame).1 ?_)
    obtain ⟨less, equal, greater, hless, hequal, hgreater, hone⟩ := hordered.trichotomy a ha b hb
    rw [lt_eq (h.valid a ha) (h.valid b hb) (h.pair a ha b hb)] at hless
    rw [eq_eq (h.valid a ha) (h.valid b hb) (h.pair a ha b hb)] at hequal
    rw [lt_eq (h.valid b hb) (h.valid a ha) (h.pair b hb a ha)] at hgreater
    have hboth : less = greater := by
      rw [← Except.ok.inj hless, ← Except.ok.inj hgreater, decide_eq_decide]
      exact rateFor_lt_comm (h.valid a ha) (h.valid b hb) hsame
    have hequalTrue : equal = true := by
      subst hboth
      cases less <;> cases equal <;> simp_all
    exact of_decide_eq_true ((Except.ok.inj hequal).trans hequalTrue)
  · intro hsame
    -- Where the orientations differ, the turned price is equal to the other one.
    have hturned : ∀ a ∈ S, ∀ b ∈ S, ¬ sameSymbols a b → a.rateFor b = b.rate := by
      intro a ha b hb hne
      exact (rateFor_eq_iff (h.valid b hb) hne).2 ((hsame a ha b hb).resolve_left hne)
    have hless : ∀ a ∈ S, ∀ b ∈ S, a.lt b = .ok true → sameSymbols a b ∧ a.rate < b.rate := by
      intro a ha b hb hlt
      rw [lt_eq (h.valid a ha) (h.valid b hb) (h.pair a ha b hb)] at hlt
      have hrates : a.rateFor b < b.rate := of_decide_eq_true (Except.ok.inj hlt)
      by_cases hab : sameSymbols a b
      · exact ⟨hab, rateFor_of_same hab ▸ hrates⟩
      · exact absurd (hturned a ha b hb hab) hrates.ne
    refine ⟨?_, ?_, ?_, ?_, ?_⟩
    · intro a ha b hb
      refine ⟨_, _, _, lt_eq (h.valid a ha) (h.valid b hb) (h.pair a ha b hb),
        eq_eq (h.valid a ha) (h.valid b hb) (h.pair a ha b hb),
        lt_eq (h.valid b hb) (h.valid a ha) (h.pair b hb a ha), ?_⟩
      by_cases hab : sameSymbols a b
      · rw [rateFor_of_same hab, rateFor_of_same (sameSymbols_comm.1 hab)]
        exact count_compare _ _
      · rw [hturned a ha b hb hab, hturned b hb a ha (mt sameSymbols_comm.1 hab)]
        simp
    · intro a ha b hb c hc hab hbc
      obtain ⟨hsymbols, hrates⟩ := hless a ha b hb hab
      obtain ⟨hsymbols', hrates'⟩ := hless b hb c hc hbc
      have hac : sameSymbols a c :=
        ⟨hsymbols.1.trans hsymbols'.1, hsymbols.2.trans hsymbols'.2⟩
      rw [lt_eq (h.valid a ha) (h.valid c hc) (h.pair a ha c hc), rateFor_of_same hac]
      exact congrArg Except.ok (decide_eq_true (hrates.trans hrates'))
    · intro a ha b hb
      refine ⟨_, eq_eq (h.valid a ha) (h.valid b hb) (h.pair a ha b hb), ?_⟩
      rw [ne_eq (h.valid a ha) (h.valid b hb) (h.pair a ha b hb), decide_not]
    · intro a ha b hb
      refine ⟨_, lt_eq (h.valid b hb) (h.valid a ha) (h.pair b hb a ha), ?_⟩
      rw [le_eq (h.valid a ha) (h.valid b hb) (h.pair a ha b hb), ← decide_not, Except.ok.injEq,
        decide_eq_decide, not_lt]
      by_cases hab : sameSymbols a b
      · rw [rateFor_of_same hab, rateFor_of_same (sameSymbols_comm.1 hab)]
      · rw [hturned a ha b hb hab, hturned b hb a ha (mt sameSymbols_comm.1 hab)]
        exact iff_of_true le_rfl le_rfl
    · intro a ha
      have hne : ¬ sameSymbols a a.swap := fun heq ↦ (h.valid a ha).symbol_ne heq.1
      rw [eq_eq (h.valid a ha) (h.valid a ha).swap (.inr ⟨rfl, rfl⟩), rateFor_of_turned hne,
        rate_swap, decide_eq_true rfl]

/-- Two units for one, written from either side. -/
def oppositePrices : Set Price :=
  {⟨⟨2, sophiatxSymbol⟩, ⟨1, sbd1Symbol⟩⟩, ⟨⟨2, sbd1Symbol⟩, ⟨1, sophiatxSymbol⟩⟩}

theorem overOnePair_oppositePrices : OverOnePair oppositePrices := by
  constructor
  · rintro p (rfl | rfl) <;> constructor <;> decide
  · rintro a (rfl | rfl) b (rfl | rfl) <;> decide

theorem oppositePrices_not_ordered : ¬ Ordered oppositePrices ∧
    lt ⟨⟨2, sophiatxSymbol⟩, ⟨1, sbd1Symbol⟩⟩ ⟨⟨2, sbd1Symbol⟩, ⟨1, sophiatxSymbol⟩⟩ = .ok true ∧
    lt ⟨⟨2, sbd1Symbol⟩, ⟨1, sophiatxSymbol⟩⟩ ⟨⟨2, sophiatxSymbol⟩, ⟨1, sbd1Symbol⟩⟩ =
      .ok true := by
  have hless : lt ⟨⟨2, sophiatxSymbol⟩, ⟨1, sbd1Symbol⟩⟩ ⟨⟨2, sbd1Symbol⟩, ⟨1, sophiatxSymbol⟩⟩ =
      .ok true := by decide
  have hgreater : lt ⟨⟨2, sbd1Symbol⟩, ⟨1, sophiatxSymbol⟩⟩
      ⟨⟨2, sophiatxSymbol⟩, ⟨1, sbd1Symbol⟩⟩ = .ok true := by decide
  refine ⟨fun hordered ↦ ?_, hless, hgreater⟩
  obtain ⟨less, equal, greater, h₁, _, h₂, hone⟩ :=
    hordered.trichotomy _ (.inl rfl) _ (.inr rfl)
  obtain rfl := Except.ok.inj (hless.symm.trans h₁)
  obtain rfl := Except.ok.inj (hgreater.symm.trans h₂)
  cases equal <;> cases hone

theorem ordered_iff_opposite : Ordered oppositePrices ↔
    ∀ a ∈ oppositePrices, ∀ b ∈ oppositePrices, sameSymbols a b ∨ a.rate * b.rate = 1 :=
  ordered_iff overOnePair_oppositePrices

end Price

/-! ## Conversion -/

namespace Asset

variable {a : Asset} {p : Price}

/-- The price with the symbol of the asset as its base. -/
def priceOf (a : Asset) (p : Price) : Price := if a.symbol = p.base.symbol then p else p.swap

/-- The amount of the other symbol, rounded down. -/
def converted (a : Asset) (p : Price) : ℤ :=
  a.amount * (a.priceOf p).quote.amount / (a.priceOf p).base.amount

/-- The quotient that a conversion computes in 128 bits. -/
theorem uint128Div_of_nonneg {x y z : ℤ} (hx : 0 ≤ x) (hy : 0 ≤ y) (hz : 0 < z)
    (hx' : x ≤ int64Max) (hy' : y ≤ int64Max) (hz' : z ≤ int64Max) :
    uint128Div (uint128Mul (uint128OfInt x) (uint128OfInt y)) (uint128OfInt z) =
      .ok (x * y / z).toNat := by
  have hproduct := Price.uint128Mul_of_nonneg hx hy hx' hy'
  have hdivisor := Price.uint128OfInt_of_nonneg hz.le hz'
  have hne : uint128OfInt z ≠ 0 := by omega
  rw [uint128Div, if_neg hne]
  congr 1
  have hquotient : ((uint128Mul (uint128OfInt x) (uint128OfInt y) / uint128OfInt z : ℕ) : ℤ) =
      x * y / z := by
    rw [Int.natCast_ediv, hproduct, hdivisor]
  rw [← hquotient, Int.toNat_natCast]

theorem mulPrice_of_base (h : a.symbol = p.base.symbol) (ha : 0 ≤ a.amount)
    (hmax : a.amount ≤ int64Max) (hp : p.Valid) :
    a.mulPrice p = if (a.amount * p.quote.amount / p.base.amount).toNat < 18446744073709551616 then
        .ok ⟨int64OfUint64 (a.amount * p.quote.amount / p.base.amount).toNat, p.quote.symbol⟩
      else .error (.assertion "hi == 0") := by
  rw [mulPrice, if_pos h, fcAssert, if_pos hp.base_pos, ok_bind,
    uint128Div_of_nonneg ha hp.quote_pos.le hp.base_pos hmax hp.quote_le hp.base_le, ok_bind,
    uint128ToUint64]
  split <;> rfl

theorem mulPrice_swap (h : a.symbol = p.quote.symbol) (hp : p.Valid) :
    a.mulPrice p = a.mulPrice p.swap := by
  have hne : a.symbol ≠ p.base.symbol := fun hbase ↦ hp.symbol_ne (hbase.symm.trans h)
  have hswap : a.symbol = p.swap.base.symbol := h
  have hpos : 0 < p.swap.base.amount := hp.quote_pos
  rw [mulPrice, if_neg hne, if_pos h, mulPrice, if_pos hswap, fcAssert, if_pos hp.quote_pos,
    fcAssert, if_pos hpos]
  rfl

theorem priceOf_valid (hp : p.Valid) : (a.priceOf p).Valid := by
  rw [priceOf]
  split
  · exact hp
  · exact hp.swap

/-- A conversion rounds down, throws from 64 bits on, and leaves a sign in 64 bits. -/
theorem mulPrice_eq (hsymbol : a.symbol = p.base.symbol ∨ a.symbol = p.quote.symbol)
    (ha : 0 ≤ a.amount) (hmax : a.amount ≤ int64Max) (hp : p.Valid) :
    a.mulPrice p = if (a.converted p).toNat < 18446744073709551616 then
        .ok ⟨int64OfUint64 (a.converted p).toNat, (a.priceOf p).quote.symbol⟩
      else .error (.assertion "hi == 0") := by
  have hturned : a.mulPrice p = a.mulPrice (a.priceOf p) := by
    rw [priceOf]
    split
    · rfl
    · rename_i hbase
      exact mulPrice_swap (hsymbol.resolve_left hbase) hp
  have hbase : a.symbol = (a.priceOf p).base.symbol := by
    rw [priceOf]
    split
    · assumption
    · rename_i hbase
      exact hsymbol.resolve_left hbase
  rw [hturned, mulPrice_of_base hbase ha hmax (priceOf_valid hp)]
  rfl

/-- The result is the converted amount of the other symbol, and converts back to no more. -/
structure ConvertsTo (a : Asset) (p : Price) (r : Asset) : Prop where
  symbol : r.symbol = (a.priceOf p).quote.symbol
  amount : r.amount = a.converted p
  nonneg : 0 ≤ r.amount
  fits : r.amount ≤ int64Max
  back : ∃ r', r.mulPrice p = .ok r' ∧ r'.symbol = a.symbol ∧ r'.amount ≤ a.amount

theorem converted_nonneg (ha : 0 ≤ a.amount) (hp : p.Valid) : 0 ≤ a.converted p :=
  Int.ediv_nonneg (mul_nonneg ha (priceOf_valid hp).quote_pos.le) (priceOf_valid hp).base_pos.le

/-- Rounding down twice loses, and never gains. -/
theorem converted_back {r : Asset}
    (hsymbol : a.symbol = p.base.symbol ∨ a.symbol = p.quote.symbol) (hp : p.Valid)
    (hr : r.symbol = (a.priceOf p).quote.symbol) (hamount : r.amount = a.converted p) :
    r.converted p ≤ a.amount ∧ (r.priceOf p).quote.symbol = a.symbol ∧
      (r.symbol = p.base.symbol ∨ r.symbol = p.quote.symbol) := by
  have hround : ∀ x y z : ℤ, 0 < y → 0 < z → x * y / z * z / y ≤ x := by
    intro x y z hy hz
    calc x * y / z * z / y ≤ x * y / y := Int.ediv_le_ediv hy (Int.ediv_mul_le _ hz.ne')
      _ = x := Int.mul_ediv_cancel _ hy.ne'
  by_cases hbase : a.symbol = p.base.symbol
  · have hturn : a.priceOf p = p := if_pos hbase
    rw [hturn] at hr
    have hback : r.priceOf p = p.swap := if_neg fun heq ↦ hp.symbol_ne (heq.symm.trans hr)
    rw [converted, hturn] at hamount
    refine ⟨?_, ?_, .inr hr⟩
    · rw [converted, hback, hamount]
      exact hround _ _ _ hp.quote_pos hp.base_pos
    · rw [hback]
      exact hbase.symm
  · have hturn : a.priceOf p = p.swap := if_neg hbase
    rw [hturn] at hr
    have hback : r.priceOf p = p := if_pos hr
    rw [converted, hturn] at hamount
    refine ⟨?_, ?_, .inl hr⟩
    · rw [converted, hback, hamount]
      exact hround _ _ _ hp.base_pos hp.quote_pos
    · rw [hback]
      exact (hsymbol.resolve_left hbase).symm

/-- A result without the 64th bit is right. -/
theorem convertsTo_of_lt {r : Asset}
    (hsymbol : a.symbol = p.base.symbol ∨ a.symbol = p.quote.symbol) (ha : 0 ≤ a.amount)
    (hmax : a.amount ≤ int64Max) (hp : p.Valid) (hr : r.symbol = (a.priceOf p).quote.symbol)
    (hamount : r.amount = a.converted p) (hlt : a.converted p < 9223372036854775808) :
    ConvertsTo a p r := by
  have hnonneg : 0 ≤ r.amount := hamount ▸ converted_nonneg ha hp
  have hfits : r.amount ≤ int64Max := by
    rw [hamount]
    exact Int.lt_add_one_iff.1 hlt
  obtain ⟨hle, hother, hback⟩ := converted_back hsymbol hp hr hamount
  have hsmall : r.converted p < 9223372036854775808 :=
    lt_of_le_of_lt (hle.trans hmax) (by decide)
  have hbackNonneg := converted_nonneg hnonneg hp
  refine ⟨hr, hamount, hnonneg, hfits, ⟨(r.converted p).toNat, (r.priceOf p).quote.symbol⟩, ?_,
    hother, ?_⟩
  · rw [mulPrice_eq hback hnonneg hfits hp, if_pos (by omega), int64OfUint64, if_pos (by omega)]
  · exact (Int.toNat_of_nonneg hbackNonneg).le.trans hle

/-- A conversion is right unless its result has the 64th bit and no higher one. -/
theorem mulPrice_convertsTo_iff
    (hsymbol : a.symbol = p.base.symbol ∨ a.symbol = p.quote.symbol) (ha : 0 ≤ a.amount)
    (hmax : a.amount ≤ int64Max) (hp : p.Valid) :
    (∀ r, a.mulPrice p = .ok r → ConvertsTo a p r) ↔
      a.converted p < 9223372036854775808 ∨ 18446744073709551616 ≤ a.converted p := by
  have hnonneg := converted_nonneg ha hp
  have hsigned : ∀ x : ℤ, 0 ≤ x → x < 9223372036854775808 → int64OfUint64 x.toNat = x := by
    intro x hx hlt
    rw [int64OfUint64, if_pos (by omega), Int.toNat_of_nonneg hx]
  rw [mulPrice_eq hsymbol ha hmax hp]
  constructor
  · intro hright
    by_contra hwrapped
    push Not at hwrapped
    have hsmall : (a.converted p).toNat < 18446744073709551616 := by omega
    have hresult := hright _ (if_pos hsmall)
    have hnegative : int64OfUint64 (a.converted p).toNat < 0 := by
      rw [int64OfUint64, if_neg (by omega), Int.toNat_of_nonneg hnonneg]
      omega
    exact absurd hresult.nonneg (not_le.2 hnegative)
  · intro hsize r hr
    by_cases hthrows : 18446744073709551616 ≤ a.converted p
    · rw [if_neg (by omega)] at hr
      cases hr
    have hlt : a.converted p < 9223372036854775808 := hsize.resolve_right hthrows
    rw [if_pos (by omega), hsigned _ hnonneg hlt] at hr
    have hsymbol' : r.symbol = (a.priceOf p).quote.symbol := by rw [← Except.ok.inj hr]
    have hamount : r.amount = a.converted p := by rw [← Except.ok.inj hr]
    exact convertsTo_of_lt hsymbol ha hmax hp hsymbol' hamount hlt

/-- A price at which three units are worth more than `int64_t` holds. -/
def steepPrice : Price := ⟨⟨1, sophiatxSymbol⟩, ⟨4611686018427387904, sbd1Symbol⟩⟩

theorem mulPrice_convertsTo_iff_steep :
    (∀ r, mulPrice ⟨3, sophiatxSymbol⟩ steepPrice = .ok r →
        ConvertsTo ⟨3, sophiatxSymbol⟩ steepPrice r) ↔
      converted ⟨3, sophiatxSymbol⟩ steepPrice < 9223372036854775808 ∨
        18446744073709551616 ≤ converted ⟨3, sophiatxSymbol⟩ steepPrice :=
  mulPrice_convertsTo_iff (.inl rfl) (by decide) (by decide)
    ⟨by decide, by decide, by decide, by decide, by decide⟩

theorem mulPrice_negative :
    mulPrice ⟨3, sophiatxSymbol⟩ steepPrice = .ok ⟨-4611686018427387904, sbd1Symbol⟩ ∧
      ¬ ∀ r, mulPrice ⟨3, sophiatxSymbol⟩ steepPrice = .ok r →
        ConvertsTo ⟨3, sophiatxSymbol⟩ steepPrice r := by
  have hresult : mulPrice ⟨3, sophiatxSymbol⟩ steepPrice =
      .ok ⟨-4611686018427387904, sbd1Symbol⟩ := by decide
  refine ⟨hresult, fun h ↦ ?_⟩
  exact absurd (h _ hresult).nonneg (by decide)

end Asset

end SophiaTX.Protocol
