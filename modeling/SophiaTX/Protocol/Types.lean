import Mathlib.Data.Int.Basic
import Mathlib.Data.List.Sort
import Mathlib.Tactic.Ring
import SophiaTX.Lib.Partial

/-!
# Protocol types

Machine integers, names, assets, prices and versions of the protocol library. Amounts are
`safe<int64_t>`: every operation on them either has an exact 64-bit result or throws. A
computation of the node that may throw an exception is an `Exec`, whose error drops the state
it had reached; signed overflow outside `safe` has no defined result and stops an `Exec` too.
-/

namespace SophiaTX.Protocol

/-- What a node can throw while it validates or applies something. -/
inductive ChainError where
  | assertion (message : String)
  | overflow
  | divideByZero
  | undefinedBehaviour
  | unknownKey
  | uniquenessViolated
  | tapos
  | expiration
  | missingActiveAuth (name : ℕ)
  | missingOwnerAuth (name : ℕ)
  | missingOtherAuth
  | irrelevantSignature
  | invalidSignature
  | exceededBandwidth
  | undoDatabase
  | unknownHardfork
  | unlinkableBlock
deriving DecidableEq

abbrev Exec := Except ChainError

/-- `FC_ASSERT`. -/
def fcAssert (condition : Prop) [Decidable condition] (message : String) : Exec Unit :=
  if condition then .ok () else .error (.assertion message)

def throwIf (condition : Prop) [Decidable condition] (e : ChainError) : Exec Unit :=
  if condition then .error e else .ok ()

/-- A lookup with `get`, which throws where `find` returns nothing. -/
def orUnknownKey {α : Type*} : Option α → Exec α
  | some row => .ok row
  | none => .error .unknownKey

@[simp]
theorem fcAssert_eq_ok {condition : Prop} [Decidable condition] {message : String} {u : Unit} :
    fcAssert condition message = .ok u ↔ condition := by
  unfold fcAssert
  split <;> simp_all

@[simp]
theorem throwIf_eq_ok {condition : Prop} [Decidable condition] {e : ChainError} {u : Unit} :
    throwIf condition e = .ok u ↔ ¬ condition := by
  unfold throwIf
  split <;> simp_all

@[simp]
theorem orUnknownKey_eq_ok {α : Type*} {o : Option α} {row : α} :
    orUnknownKey o = .ok row ↔ o = some row := by
  cases o <;> simp [orUnknownKey]

/-! ## Machine integers -/

abbrev ShareType := ℤ

def int64Min : ℤ := -9223372036854775808

def int64Max : ℤ := 9223372036854775807

/-- The result of a `safe<int64_t>` operation whose exact value is `x`. -/
def checked (x : ℤ) : Exec ShareType :=
  if int64Min ≤ x ∧ x ≤ int64Max then .ok x else .error .overflow

def safeAdd (a b : ShareType) : Exec ShareType := checked (a + b)

def safeSub (a b : ShareType) : Exec ShareType := checked (a - b)

def safeMul (a b : ShareType) : Exec ShareType := checked (a * b)

def safeNeg (a : ShareType) : Exec ShareType := checked (-a)

/-- Division truncates towards zero. -/
def safeDiv (a b : ShareType) : Exec ShareType :=
  if b = 0 then .error .divideByZero else checked (a.tdiv b)

/-- The remainder has the sign of the dividend. -/
def safeMod (a b : ShareType) : Exec ShareType :=
  if b = 0 then .error .divideByZero
  else if a = int64Min ∧ b = -1 then .error .overflow
  else .ok (a.tmod b)

/-- Product of two plain `int64_t`. -/
def rawMul (a b : ℤ) : Exec ℤ :=
  if int64Min ≤ a * b ∧ a * b ≤ int64Max then .ok (a * b) else .error .undefinedBehaviour

@[simp]
theorem checked_eq_ok {x y : ℤ} :
    checked x = .ok y ↔ (int64Min ≤ x ∧ x ≤ int64Max) ∧ x = y := by
  unfold checked
  split <;> simp_all

/-- A remainder, when it exists, is the truncated one. -/
theorem safeMod_eq_ok {a b c : ShareType} (h : safeMod a b = .ok c) : b ≠ 0 ∧ c = a.tmod b := by
  unfold safeMod at h
  split at h
  · cases h
  · split at h
    · cases h
    · exact ⟨by assumption, by cases h; rfl⟩

theorem safeDiv_eq_ok {a b c : ShareType} (h : safeDiv a b = .ok c) : b ≠ 0 ∧ c = a.tdiv b := by
  unfold safeDiv at h
  split at h
  · cases h
  · rw [checked_eq_ok] at h
    exact ⟨by assumption, h.2.symm⟩

def uint32 (n : ℕ) : ℕ := n % 4294967296

/-- Difference of two `uint32_t`. -/
def uint32Sub (a b : ℕ) : ℕ := (a + 4294967296 - b) % 4294967296

def uint64OfInt (x : ℤ) : ℕ := (x % 18446744073709551616).toNat

/-- A `uint64_t` stored in an `int64_t`. -/
def int64OfUint64 (n : ℕ) : ℤ :=
  if n < 9223372036854775808 then n else (n : ℤ) - 18446744073709551616

def uint128Size : ℕ := 340282366920938463463374607431768211456

def uint128Max : ℕ := 340282366920938463463374607431768211455

/-- `uint128(int64_t)` extends the sign. -/
def uint128OfInt (x : ℤ) : ℕ := (x % 340282366920938463463374607431768211456).toNat

def uint128Mul (a b : ℕ) : ℕ := a * b % uint128Size

def uint128Add (a b : ℕ) : ℕ := (a + b) % uint128Size

def uint128Sub (a b : ℕ) : ℕ := (a + uint128Size - b) % uint128Size

def uint128Div (a b : ℕ) : Exec ℕ :=
  if b = 0 then .error .divideByZero else .ok (a / b)

/-- `uint128::to_uint64` asserts that the high half is zero. -/
def uint128ToUint64 (a : ℕ) : Exec ℕ :=
  if a < 18446744073709551616 then .ok a else .error (.assertion "hi == 0")

/-! ## Names, keys, times -/

/-- The 192 bits of an `account_name_type`; names compare by these bits. -/
abbrev AccountName := ℕ

abbrev PublicKey := ℕ

/-- `public_key_type()`. -/
def nullKey : PublicKey := 0

/-- Seconds, as `time_point_sec`. -/
abbrev Time := ℕ

def maximumTime : Time := 4294967295

def timeAdd (t : Time) (seconds : ℕ) : Time := uint32 (t + seconds)

/-- A byte string. -/
abbrev Bytes := List UInt8

/-- `SOPHIATX_PROXY_TO_SELF_ACCOUNT`, the empty name. -/
def proxyToSelfAccount : AccountName := 0

/-- `SOPHIATX_NULL_ACCOUNT`, the name `none`. -/
def nullAccount : AccountName := 0x9e89de * 2 ^ 168

/-- `SOPHIATX_TEMP_ACCOUNT`, the name `temp`. -/
def tempAccount : AccountName :=
  4460487283068311124489469583430774410514878780576049922048

/-- `SOPHIATX_MINER_ACCOUNT`, the name `miners`. -/
def minerAccount : AccountName :=
  3780079347975482900644442647065771944686626986893485539328

/-- `SOPHIATX_INIT_MINER_NAME`, the name `initminer`. -/
def initMinerName : AccountName :=
  3395308823083177396031440128406248621114235648390830489600

/-! ## Assets and prices -/

/-- An `asset_symbol_type`, by its value. -/
abbrev AssetSymbol := ℕ

def vestsSymbol : AssetSymbol := 357897028950

/-- The compile-time `SOPHIATX_SYMBOL`; a chain uses the symbol of its genesis. -/
def sophiatxSymbol : AssetSymbol := 379371147347

def sbd1Symbol : AssetSymbol := 4477781

def sbd2Symbol : AssetSymbol := 5395781

def sbd3Symbol : AssetSymbol := 4606019

def sbd4Symbol : AssetSymbol := 5852739

def sbd5Symbol : AssetSymbol := 5259847

structure Asset where
  amount : ShareType
  symbol : AssetSymbol
deriving DecidableEq

namespace Asset

/-- `operator >=`, which throws on different symbols. -/
def ge (a b : Asset) : Exec Bool := do
  fcAssert (a.symbol = b.symbol) "a.symbol == b.symbol"
  pure (decide (b.amount ≤ a.amount))

def neg (a : Asset) : Exec Asset := do
  pure ⟨← safeNeg a.amount, a.symbol⟩

def add (a b : Asset) : Exec Asset := do
  fcAssert (a.symbol = b.symbol) "symbol == o.symbol"
  pure ⟨← safeAdd a.amount b.amount, a.symbol⟩

def sub (a b : Asset) : Exec Asset := do
  fcAssert (a.symbol = b.symbol) "symbol == o.symbol"
  pure ⟨← safeSub a.amount b.amount, a.symbol⟩

end Asset

structure Price where
  base : Asset
  quote : Asset
deriving DecidableEq

namespace Price

/-- `price()`. -/
def default : Price := ⟨⟨0, sophiatxSymbol⟩, ⟨0, sophiatxSymbol⟩⟩

def validate (p : Price) : Exec Unit := do
  fcAssert (0 < p.base.amount) "base.amount > share_type(0)"
  fcAssert (0 < p.quote.amount) "quote.amount > share_type(0)"
  fcAssert (p.base.symbol ≠ p.quote.symbol) "base.symbol != quote.symbol"

def swap (p : Price) : Price := ⟨p.quote, p.base⟩

def sameSymbols (a b : Price) : Prop :=
  a.base.symbol = b.base.symbol ∧ a.quote.symbol = b.quote.symbol

instance (a b : Price) : Decidable (sameSymbols a b) :=
  inferInstanceAs (Decidable (_ ∧ _))

/-- A comparison operator of prices, given by the comparison of the cross products. The left
price is turned around first, so that the comparison throws when it is not valid. -/
def compare (op : ℕ → ℕ → Bool) (a b : Price) : Exec Bool := do
  a.swap.validate
  if sameSymbols a b then
    pure (cross a b)
  else if sameSymbols a.swap b then do
    a.swap.swap.validate
    pure (cross a.swap b)
  else
    pure false
where
  cross (a b : Price) : Bool :=
    op (uint128Mul (uint128OfInt b.quote.amount) (uint128OfInt a.base.amount))
      (uint128Mul (uint128OfInt a.quote.amount) (uint128OfInt b.base.amount))

def lt : Price → Price → Exec Bool := compare fun a b ↦ decide (a < b)

def isNull (p : Price) : Exec Bool := compare (fun a b ↦ decide (a = b)) p default

end Price

/-- `asset * price`. -/
def Asset.mulPrice (a : Asset) (p : Price) : Exec Asset :=
  if a.symbol = p.base.symbol then do
    fcAssert (0 < p.base.amount) "b.base.amount.value > 0"
    let result ← uint128Div (uint128Mul (uint128OfInt a.amount) (uint128OfInt p.quote.amount))
      (uint128OfInt p.base.amount)
    pure ⟨int64OfUint64 (← uint128ToUint64 result), p.quote.symbol⟩
  else if a.symbol = p.quote.symbol then do
    fcAssert (0 < p.quote.amount) "b.quote.amount.value > 0"
    let result ← uint128Div (uint128Mul (uint128OfInt a.amount) (uint128OfInt p.base.amount))
      (uint128OfInt p.quote.amount)
    pure ⟨int64OfUint64 (← uint128ToUint64 result), p.base.symbol⟩
  else
    .error (.assertion "invalid asset * price")

/-! ## Versions -/

/-- The number of a `version`: major, hardfork and release parts in 8, 8 and 16 bits. -/
abbrev Version := ℕ

def version (major hardfork release : ℕ) : Version :=
  major * 16777216 + hardfork * 65536 + release

/-- The number of a `hardfork_version`: the release part is dropped. -/
def hardforkVersion (v : Version) : Version := v / 65536 * 65536

end SophiaTX.Protocol
