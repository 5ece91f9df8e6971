import Mathlib.Algebra.Order.Floor.Div
import Mathlib.Algebra.Order.Ring.Int
import SophiaTX.Chain.Genesis

/-!
# The fee of custom operations

A custom operation pays the base fee and once more for every started block of its payload beyond
the part that the base fee covers. The size is rounded up in `uint32_t`, where the sizes in use
leave `payload_size - 1`: an empty payload wraps around to the largest size there is.
-/

namespace SophiaTX.Chain

open SophiaTX.Protocol SophiaTX.Lib

variable {g : GenesisState} {symbol : AssetSymbol} {p q : ℕ}

/-- The base fee for each started block beyond the covered size, and once for that. -/
def customFee (base : Asset) (p : ℕ) : Asset :=
  ⟨base.amount * (1 + (p - sizeCoveredInBaseFee) ⌈/⌉ sizeIncreasePerFee), base.symbol⟩

/-! ## Rounding -/

/-- The multiple of the base fee that is charged. -/
def feeMultiple (p : ℕ) : ℕ :=
  uint32 (1 + uint32 (p + uint32Sub (sizeIncreasePerFee - sizeCoveredInBaseFee) 1) /
    sizeIncreasePerFee)

theorem feeMultiple_zero : feeMultiple 0 = 1048576 := by decide

theorem feeMultiple_of_pos (h : 0 < p) (hp : p < 4294967296) :
    feeMultiple p = 1 + (p - sizeCoveredInBaseFee) ⌈/⌉ sizeIncreasePerFee := by
  have hwrapped : uint32 (p + uint32Sub (sizeIncreasePerFee - sizeCoveredInBaseFee) 1) = p - 1 := by
    simp only [uint32, uint32Sub, sizeIncreasePerFee, sizeCoveredInBaseFee]
    omega
  rw [feeMultiple, hwrapped, Nat.ceilDiv_eq_add_pred_div]
  simp only [uint32, sizeIncreasePerFee, sizeCoveredInBaseFee]
  omega

theorem feeMultiple_le (p : ℕ) : feeMultiple p ≤ 1048576 := by
  have hsize : uint32 (p + uint32Sub (sizeIncreasePerFee - sizeCoveredInBaseFee) 1) < 4294967296 :=
    Nat.mod_lt _ (by decide)
  calc feeMultiple p
      ≤ 1 + uint32 (p + uint32Sub (sizeIncreasePerFee - sizeCoveredInBaseFee) 1) /
          sizeIncreasePerFee := Nat.mod_le _ _
    _ ≤ 1048576 := by
      simp only [sizeIncreasePerFee] at hsize ⊢
      omega

theorem feeMultiple_mono (h : 0 < p) (hpq : p ≤ q) (hq : q < 4294967296) :
    feeMultiple p ≤ feeMultiple q := by
  rw [feeMultiple_of_pos h (by omega), feeMultiple_of_pos (by omega) hq]
  simp only [Nat.ceilDiv_eq_add_pred_div, sizeIncreasePerFee, sizeCoveredInBaseFee]
  omega

theorem feeMultiple_of_covered (h : 0 < p) (hp : p ≤ sizeCoveredInBaseFee) :
    feeMultiple p = 1 := by
  simp only [sizeCoveredInBaseFee] at hp
  rw [feeMultiple_of_pos h (by omega)]
  simp only [Nat.ceilDiv_eq_add_pred_div, sizeIncreasePerFee, sizeCoveredInBaseFee]
  omega

theorem baseFeeIn_nonneg (g : GenesisState) (symbol : AssetSymbol) :
    0 ≤ (g.baseFeeIn symbol).amount := by
  unfold GenesisState.baseFeeIn
  split_ifs <;> exact Int.natCast_nonneg _

/-- No base fee of 32 bits overflows. -/
theorem getCustomFee_eq (hfee : (g.baseFeeIn symbol).amount < 4294967296) (p : ℕ) :
    getCustomFee g p symbol =
      .ok ⟨(g.baseFeeIn symbol).amount * feeMultiple p, (g.baseFeeIn symbol).symbol⟩ := by
  have hnonneg := baseFeeIn_nonneg g symbol
  have hmultiple : (feeMultiple p : ℤ) ≤ 1048576 := by exact_mod_cast feeMultiple_le p
  have hproduct : (g.baseFeeIn symbol).amount * feeMultiple p ≤ 4294967296 * 1048576 :=
    mul_le_mul hfee.le hmultiple (Int.natCast_nonneg _) (by decide)
  have hchecked : safeMul (g.baseFeeIn symbol).amount (feeMultiple p) =
      .ok ((g.baseFeeIn symbol).amount * feeMultiple p) := by
    refine checked_eq_ok.2 ⟨⟨?_, ?_⟩, rfl⟩
    · exact le_trans (by decide) (mul_nonneg hnonneg (Int.natCast_nonneg _))
    · exact hproduct.trans (by decide)
  exact bind_eq_ok.2 ⟨_, hchecked, rfl⟩

/-! ## The charge -/

/-- The payload of a custom operation. -/
def customPayload? : Operation → Option Bytes
  | .custom _ _ _ data => some data
  | .customJson _ _ _ json => some json
  | .customBinary _ _ _ data => some data
  | _ => none

theorem requiredFee_of_customPayload {op : Operation} {payload : Bytes}
    (h : customPayload? op = some payload) (symbol : AssetSymbol) :
    op.requiredFee g symbol = getCustomFee g payload.length symbol := by
  cases op <;> cases h <;> rfl

/-- `process_operation_fee` after it has checked the offered fee. -/
def Database.payOperationFee (g : GenesisState) (s : Database) (op : FeeOperation) :
    Exec Database := do
  let payer := s.sponsorOf op.op.feePayer
  let _ ← s.getAccount payer
  let toPay ← s.feeToPay g op.fee
  fcAssert (toPay.symbol = g.symbol ∧ 0 ≤ toPay.amount)
    "to_pay.symbol == SOPHIATX_SYMBOL && to_pay.amount >= 0"
  s.payFee g payer toPay

theorem Database.processOperationFee_of_required {s : Database} {op : FeeOperation}
    {required : Asset} (hspecial : op.op.hasSpecialFee = false)
    (hnet : s.dgp.privateNet = false)
    (hrequired : op.op.requiredFee g op.fee.symbol = .ok required)
    (hsymbol : op.fee.symbol = required.symbol) (hamount : required.amount ≤ op.fee.amount) :
    s.processOperationFee g op = s.payOperationFee g op := by
  unfold Database.processOperationFee
  rw [if_neg (by simp [hspecial, hnet]), hrequired, ok_bind, fcAssert, if_pos hsymbol, ok_bind,
    fcAssert, if_pos hamount, ok_bind]
  rfl

/-- The required fee is the one for the size, larger payloads do not cost less, and the base fee
is enough for a covered payload. -/
structure ChargedBySize (g : GenesisState) (symbol : AssetSymbol) (op : Operation)
    (payload : Bytes) : Prop where
  fee : op.requiredFee g symbol = .ok (customFee (g.baseFeeIn symbol) payload.length)
  mono : ∀ larger payload', customPayload? larger = some payload' →
    payload'.length < 4294967296 → payload.length ≤ payload'.length →
      ∃ a b, op.requiredFee g symbol = .ok a ∧ larger.requiredFee g symbol = .ok b ∧
        a.symbol = b.symbol ∧ a.amount ≤ b.amount
  covered : payload.length ≤ sizeCoveredInBaseFee → ∀ s : Database, s.dgp.privateNet = false →
    s.processOperationFee g ⟨op, g.baseFeeIn symbol⟩ =
      s.payOperationFee g ⟨op, g.baseFeeIn symbol⟩

theorem chargedBySize_iff {op : Operation} {payload : Bytes}
    (hop : customPayload? op = some payload) (hsize : payload.length < 4294967296)
    (hsymbol : (g.baseFeeIn symbol).symbol = symbol)
    (hfee : (g.baseFeeIn symbol).amount < 4294967296) :
    ChargedBySize g symbol op payload ↔ payload ≠ [] ∨ (g.baseFeeIn symbol).amount = 0 := by
  have hnonneg := baseFeeIn_nonneg g symbol
  have hrequired : op.requiredFee g symbol = .ok ⟨(g.baseFeeIn symbol).amount *
      feeMultiple payload.length, (g.baseFeeIn symbol).symbol⟩ := by
    rw [requiredFee_of_customPayload hop, getCustomFee_eq hfee]
  constructor
  · intro h
    by_contra hempty
    push Not at hempty
    obtain ⟨rfl, hbase⟩ := hempty
    have hsame := hrequired.symm.trans h.fee
    rw [List.length_nil, feeMultiple_zero] at hsame
    have hamount := congrArg Asset.amount (Except.ok.inj hsame)
    simp only [customFee, sizeCoveredInBaseFee, Nat.zero_sub, zero_ceilDiv] at hamount
    have hzero : ∀ x : ℤ, x * (1048576 : ℕ) = x * (1 + (0 : ℕ)) → x = 0 := fun x hx ↦ by omega
    exact hbase (hzero _ hamount)
  · intro hcharged
    -- What is multiplied by the base fee matters only where that is not zero.
    have hscale : ∀ m n : ℕ, (payload ≠ [] → m ≤ n) →
        (g.baseFeeIn symbol).amount * m ≤ (g.baseFeeIn symbol).amount * n := by
      intro m n hle
      rcases hcharged with hpayload | hzero
      · exact mul_le_mul_of_nonneg_left (by exact_mod_cast hle hpayload) hnonneg
      · rw [hzero, zero_mul, zero_mul]
    refine ⟨?_, ?_, ?_⟩
    · rw [hrequired, customFee]
      congr 2
      rcases hcharged with hpayload | hzero
      · rw [feeMultiple_of_pos (List.length_pos_iff.2 hpayload) hsize, Nat.cast_add, Nat.cast_one]
      · simp only [hzero, zero_mul]
    · intro larger payload' hlarger hsize' hle
      have hlargerFee : larger.requiredFee g symbol = .ok ⟨(g.baseFeeIn symbol).amount *
          feeMultiple payload'.length, (g.baseFeeIn symbol).symbol⟩ := by
        rw [requiredFee_of_customPayload hlarger, getCustomFee_eq hfee]
      refine ⟨_, _, hrequired, hlargerFee, rfl, ?_⟩
      · exact hscale _ _ fun hpayload ↦
          feeMultiple_mono (List.length_pos_iff.2 hpayload) hle hsize'
    · intro hcovered s hnet
      have hspecial : op.hasSpecialFee = false := by cases op <;> cases hop <;> rfl
      have hoffered : op.requiredFee g (g.baseFeeIn symbol).symbol =
          .ok ⟨(g.baseFeeIn symbol).amount * feeMultiple payload.length,
            (g.baseFeeIn symbol).symbol⟩ := by
        rw [hsymbol, hrequired, hsymbol]
      refine Database.processOperationFee_of_required hspecial hnet hoffered rfl ?_
      change (g.baseFeeIn symbol).amount * feeMultiple payload.length ≤ (g.baseFeeIn symbol).amount
      calc (g.baseFeeIn symbol).amount * feeMultiple payload.length
          ≤ (g.baseFeeIn symbol).amount * (1 : ℕ) := hscale _ _ fun hpayload ↦
            (feeMultiple_of_covered (List.length_pos_iff.2 hpayload) hcovered).le
        _ = (g.baseFeeIn symbol).amount := by rw [Nat.cast_one, mul_one]

/-- The default base fee. -/
def feeGenesis : GenesisState := { devGenesis with baseFee := 10000 }

theorem chargedBySize_iff_one_byte :
    ChargedBySize feeGenesis sophiatxSymbol (.custom initMinerName [] 1 [7]) [7] ↔
      ([7] : Bytes) ≠ [] ∨ (feeGenesis.baseFeeIn sophiatxSymbol).amount = 0 :=
  chargedBySize_iff rfl (by decide) (by decide) (by decide)

theorem empty_payload_overcharged :
    Operation.requiredFee feeGenesis sophiatxSymbol (.custom initMinerName [] 1 []) =
        .ok ⟨10485760000, sophiatxSymbol⟩ ∧
      ¬ ChargedBySize feeGenesis sophiatxSymbol (.custom initMinerName [] 1 []) [] := by
  have hrequired : Operation.requiredFee feeGenesis sophiatxSymbol
      (.custom initMinerName [] 1 []) = .ok ⟨10485760000, sophiatxSymbol⟩ := by decide +kernel
  refine ⟨hrequired, fun h ↦ ?_⟩
  have hamount := congrArg Asset.amount (Except.ok.inj (hrequired.symm.trans h.fee))
  exact absurd hamount (by decide)

end SophiaTX.Chain
