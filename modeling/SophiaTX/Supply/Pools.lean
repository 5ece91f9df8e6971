import Mathlib.Algebra.Order.Ring.Int
import Mathlib.Tactic.Linarith
import SophiaTX.Chain.Genesis

/-!
# The pools of the economic model

Fees are split over the pools and rewards are taken from them by truncating percentages and
proportions. Whatever is cut off stays in a pool: fees add up exactly, a withdrawal takes what it
returns, no pool is overdrawn, and with weights of a byte no product leaves 64 bits.
-/

namespace SophiaTX.Chain

open SophiaTX.Protocol SophiaTX.Lib

/-! ## Percentages -/

/-- A share in hundredths of a percent, rounded down. -/
def percentageOf (x : ℤ) (percentage : ℕ) : ℤ := x * percentage / 10000

section Percentage

variable {x : ℤ} {percentage percentage' : ℕ}

theorem percentageOf_nonneg (hx : 0 ≤ x) : 0 ≤ percentageOf x percentage :=
  Int.ediv_nonneg (Int.mul_nonneg hx (Int.natCast_nonneg _)) (by decide)

/-- Two shares of the same amount, rounded down, are within the amount. -/
theorem percentageOf_add_le (hx : 0 ≤ x) (h : percentage + percentage' ≤ 10000) :
    percentageOf x percentage + percentageOf x percentage' ≤ x := by
  have hsum : x * percentage + x * percentage' ≤ x * 10000 := by
    rw [← mul_add]
    apply Int.mul_le_mul_of_nonneg_left _ hx
    exact_mod_cast h
  have hfirst := Int.ediv_mul_le (x * percentage) (show (10000 : ℤ) ≠ 0 by decide)
  have hsecond := Int.ediv_mul_le (x * percentage') (show (10000 : ℤ) ≠ 0 by decide)
  unfold percentageOf
  omega

theorem percentageOf_le (hx : 0 ≤ x) (h : percentage ≤ 10000) : percentageOf x percentage ≤ x := by
  calc percentageOf x percentage ≤ percentageOf x percentage + percentageOf x 0 :=
        le_add_of_nonneg_right (percentageOf_nonneg hx)
    _ ≤ x := percentageOf_add_le hx h

/-- An amount that is not negative and fits is the result of a safe operation. -/
theorem checked_ok (hx : 0 ≤ x) (hmax : x ≤ int64Max) : checked x = .ok x :=
  if_pos ⟨le_trans (by decide) hx, hmax⟩

/-- The code computes a percentage where the product fits. -/
theorem percentage_ok {α : Type} (hx : 0 ≤ x) (hmax : x * 10000 ≤ int64Max)
    (h : percentage ≤ 10000) (f : ShareType → Exec α) :
    (do
      let product ← safeMul x percentage
      let share ← safeDiv product hundredPercent
      f share) = f (percentageOf x percentage) := by
  have hproduct : 0 ≤ x * percentage := Int.mul_nonneg hx (Int.natCast_nonneg _)
  have hle : x * percentage ≤ x * 10000 := by
    apply Int.mul_le_mul_of_nonneg_left _ hx
    exact_mod_cast h
  have hdiv : (x * percentage).tdiv hundredPercent = percentageOf x percentage :=
    Int.tdiv_eq_ediv_of_nonneg hproduct
  have hshare : percentageOf x percentage ≤ int64Max := by
    have hwhole : x ≤ x * 10000 := le_mul_of_one_le_right hx (by decide)
    exact (percentageOf_le hx h).trans (hwhole.trans hmax)
  rw [safeMul, checked_ok hproduct (hle.trans hmax), ok_bind, safeDiv, if_neg (by decide), hdiv,
    checked_ok (percentageOf_nonneg hx) hshare, ok_bind]

end Percentage

/-! ## Networks and pools -/

/-- Percentages of a network that are percentages, periods that are not empty, and a total supply
of which percentages can be computed. -/
structure Budget (g : GenesisState) : Prop where
  initialSupply : (0 : ℤ) ≤ g.initialSupply
  totalSupply : (g.initialSupply : ℤ) ≤ g.totalSupply
  supplyMax : (g.totalSupply : ℤ) * 10000 ≤ int64Max
  burnFee : g.burnFeePercentage ≤ 10000
  shares : g.miningPoolPercentage + g.interestPoolPercentage + g.promotionPoolPercentage ≤ 10000
  coinbaseBlocks : g.coinbaseBlocks ≠ 0
  feesTime : interestBlocks ≤ g.interestFeesTime

namespace EconomicModel

/-- No pool is negative, and the pools together are within the total supply. -/
structure Stocked (g : GenesisState) (e : EconomicModel) : Prop where
  miningFromCoinbase : 0 ≤ e.miningPoolFromCoinbase
  miningFromFees : 0 ≤ e.miningPoolFromFees
  interestFromCoinbase : 0 ≤ e.interestPoolFromCoinbase
  interestFromFees : 0 ≤ e.interestPoolFromFees
  promotion : 0 ≤ e.promotionPool
  burn : 0 ≤ e.burnPool
  total : e.poolTotal ≤ g.totalSupply
  blockReward : 0 ≤ e.coinbaseBlockReward
  blockRewardMax : e.coinbaseBlockReward ≤ g.totalSupply
  accumulated : e.accumulatedSupply ≤ int64Max

variable {g : GenesisState} {e e' : EconomicModel}

/-- Every pool is within the total supply. -/
theorem Stocked.pools_le (h : Stocked g e) :
    e.miningPoolFromCoinbase ≤ g.totalSupply ∧ e.miningPoolFromFees ≤ g.totalSupply ∧
      e.interestPoolFromCoinbase ≤ g.totalSupply ∧ e.interestPoolFromFees ≤ g.totalSupply ∧
      e.promotionPool ≤ g.totalSupply ∧ e.burnPool ≤ g.totalSupply ∧
      e.interestPoolFromFees + e.interestPoolFromCoinbase ≤ g.totalSupply := by
  obtain ⟨h₁, h₂, h₃, h₄, h₅, h₆, htotal, _, _, _⟩ := h
  unfold poolTotal at htotal
  refine ⟨?_, ?_, ?_, ?_, ?_, ?_, ?_⟩ <;> linarith

/-! ## Fees -/

/-- A fee is split exactly. -/
theorem addFee_ok (hg : Budget g) (he : Stocked g e) {fee : ℤ} (hfee : 0 ≤ fee)
    (hsupply : e.poolTotal + fee ≤ g.totalSupply) :
    ∃ e', e.addFee g fee = .ok e' ∧ Stocked g e' ∧ e'.poolTotal = e.poolTotal + fee := by
  obtain ⟨hminingCoinbase, hminingFees, hcoinbase, hfees, hpromotion, hburn, htotal, hreward,
    hrewardMax, haccumulated⟩ := he
  have hmax := hg.supplyMax
  have hshares := hg.shares
  -- What is burnt, and what the rest is split into.
  set burnt := percentageOf fee g.burnFeePercentage with hburnt
  set rest := fee - burnt with hrest
  set mining := percentageOf rest g.miningPoolPercentage with hmining
  set promoted := percentageOf rest g.promotionPoolPercentage with hpromoted
  have hburnt0 : 0 ≤ burnt := percentageOf_nonneg hfee
  have hburntLe : burnt ≤ fee := percentageOf_le hfee hg.burnFee
  have hrest0 : 0 ≤ rest := sub_nonneg.2 hburntLe
  have hmining0 : 0 ≤ mining := percentageOf_nonneg hrest0
  have hpromoted0 : 0 ≤ promoted := percentageOf_nonneg hrest0
  have hsplit : mining + promoted ≤ rest := percentageOf_add_le hrest0 (by omega)
  unfold poolTotal at htotal hsupply
  have hfits : ∀ {x : ℤ}, 0 ≤ x → x ≤ g.totalSupply → checked x = .ok x := by
    intro x hx hle
    exact checked_ok hx (by linarith)
  have hfeeMax : fee * 10000 ≤ int64Max := by linarith
  have hrestMax : rest * 10000 ≤ int64Max := by linarith
  let e₁ : EconomicModel := { e with
    miningPoolFromFees := e.miningPoolFromFees + mining
    promotionPool := e.promotionPool + promoted
    burnPool := e.burnPool + burnt
    interestPoolFromFees := e.interestPoolFromFees + (rest - mining - promoted) }
  have htotal₁ : e₁.poolTotal = e.poolTotal + fee := by
    simp only [e₁, poolTotal, hrest]
    ring
  refine ⟨e₁, ?_, ⟨hminingCoinbase, add_nonneg hminingFees hmining0, hcoinbase, ?_,
    add_nonneg hpromotion hpromoted0, add_nonneg hburn hburnt0, ?_, hreward, hrewardMax,
    haccumulated⟩, htotal₁⟩
  · unfold addFee
    rw [percentage_ok hfee hfeeMax hg.burnFee, safeSub, hfits hrest0 (by linarith), ok_bind,
      percentage_ok hrest0 hrestMax (by omega), percentage_ok hrest0 hrestMax (by omega)]
    simp only [safeAdd, safeSub]
    rw [hfits (by linarith) (by linarith), ok_bind, hfits (by linarith) (by linarith), ok_bind,
      hfits (by linarith) (by linarith), ok_bind, hfits (by linarith) (by linarith), ok_bind,
      hfits (by linarith) (by linarith), ok_bind, hfits (by linarith) (by linarith), ok_bind]
    rfl
  · change 0 ≤ e.interestPoolFromFees + (rest - mining - promoted)
    linarith
  · rw [htotal₁]
    unfold poolTotal
    exact hsupply

/-! ## Rewards -/

/-- A weighted reward is within the pool it is capped by. -/
theorem weightedReward_ok {reward pool : ℤ} {nominator denominator : ℕ} (hreward : 0 ≤ reward)
    (hproduct : reward * nominator ≤ int64Max) (hdenominator : denominator ≠ 0) (hpool : 0 ≤ pool) :
    ∃ paid : ℤ, weightedReward reward pool nominator denominator = .ok paid ∧ 0 ≤ paid ∧
      paid ≤ pool := by
  have hproduct0 : 0 ≤ reward * nominator := Int.mul_nonneg hreward (Int.natCast_nonneg _)
  have hquotient : (reward * nominator).tdiv denominator = reward * nominator / denominator :=
    Int.tdiv_eq_ediv_of_nonneg hproduct0
  have hquotient0 : 0 ≤ reward * nominator / denominator :=
    Int.ediv_nonneg hproduct0 (Int.natCast_nonneg _)
  have hquotientLe : reward * nominator / denominator ≤ reward * nominator :=
    Int.ediv_le_self _ hproduct0
  refine ⟨min (reward * nominator / denominator) pool, ?_, le_min hquotient0 hpool,
    min_le_right _ _⟩
  unfold weightedReward
  rw [safeMul, checked_ok hproduct0 hproduct, ok_bind, safeDiv,
    if_neg (Int.natCast_ne_zero.2 hdenominator), hquotient,
    checked_ok hquotient0 (hquotientLe.trans hproduct), ok_bind]
  rfl

/-- A mining reward leaves the mining pools. Weights are bytes of the witness schedule. -/
theorem withdrawMiningReward_ok (hg : Budget g) (he : Stocked g e)
    {blockNumber nominator denominator : ℕ} (hnominator : nominator ≤ 255)
    (hdenominator : denominator ≠ 0) :
    ∃ e' reward, e.withdrawMiningReward g blockNumber nominator denominator = .ok (e', reward) ∧
      Stocked g e' ∧ 0 ≤ reward ∧ e'.poolTotal = e.poolTotal - reward := by
  unfold withdrawMiningReward
  split_ifs with hdelay
  · exact ⟨e, 0, rfl, he, le_rfl, (sub_zero _).symm⟩
  obtain ⟨hminingCoinbase, hminingFees, hcoinbase, hfees, hpromotion, hburn, htotal, hreward,
    hrewardMax, haccumulated⟩ := he
  have hmax := hg.supplyMax
  unfold poolTotal at htotal
  have hproduct : ∀ {x : ℤ}, 0 ≤ x → x ≤ g.totalSupply → x * nominator ≤ int64Max := by
    intro x hx hle
    have hbyte : (nominator : ℤ) ≤ 10000 := by
      exact_mod_cast hnominator.trans (by decide)
    calc x * nominator ≤ x * 10000 := Int.mul_le_mul_of_nonneg_left hbyte hx
      _ ≤ g.totalSupply * 10000 := Int.mul_le_mul_of_nonneg_right hle (by decide)
      _ ≤ int64Max := hmax
  have hfits : ∀ {x : ℤ}, 0 ≤ x → x ≤ g.totalSupply → checked x = .ok x := by
    intro x hx hle
    exact checked_ok hx (by linarith)
  have hweek : uint32 (g.blocksPerDay * 7) ≠ 0 := by
    have hday : interestBlocks ≤ g.blocksPerDay := hg.feesTime
    have hdayMax : g.blocksPerDay ≤ 86400 := Nat.div_le_self _ _
    unfold interestBlocks at hday
    unfold uint32
    omega
  have hperBlock0 : 0 ≤ e.miningPoolFromFees / (uint32 (g.blocksPerDay * 7) : ℤ) :=
    Int.ediv_nonneg hminingFees (Int.natCast_nonneg _)
  have hperBlockLe : e.miningPoolFromFees / (uint32 (g.blocksPerDay * 7) : ℤ) ≤
      e.miningPoolFromFees := Int.ediv_le_self _ hminingFees
  have hperBlock : safeDiv e.miningPoolFromFees (uint32 (g.blocksPerDay * 7)) =
      .ok (e.miningPoolFromFees / (uint32 (g.blocksPerDay * 7) : ℤ)) := by
    rw [safeDiv, if_neg (Int.natCast_ne_zero.2 hweek), Int.tdiv_eq_ediv_of_nonneg hminingFees,
      hfits hperBlock0 (by linarith)]
  obtain ⟨fromCoinbase, hfromCoinbase, hfromCoinbase0, hfromCoinbaseLe⟩ :=
    weightedReward_ok hreward (hproduct hreward hrewardMax) hdenominator hminingCoinbase
  obtain ⟨fromFees, hfromFees, hfromFees0, hfromFeesLe⟩ :=
    weightedReward_ok hperBlock0 (hproduct hperBlock0 (by linarith)) hdenominator hminingFees
  refine ⟨{ e with
      miningPoolFromCoinbase := e.miningPoolFromCoinbase - fromCoinbase
      miningPoolFromFees := e.miningPoolFromFees - fromFees },
    fromCoinbase + fromFees, ?_, ⟨sub_nonneg.2 hfromCoinbaseLe, sub_nonneg.2 hfromFeesLe,
    hcoinbase, hfees, hpromotion, hburn, ?_, hreward, hrewardMax, haccumulated⟩,
    add_nonneg hfromCoinbase0 hfromFees0, ?_⟩
  · rw [hfromCoinbase, ok_bind, hperBlock, ok_bind, hfromFees, ok_bind]
    simp only [safeSub, safeAdd]
    rw [hfits (by linarith) (by linarith), ok_bind, hfits (by linarith) (by linarith), ok_bind,
      hfits (by linarith) (by linarith), ok_bind]
    rfl
  · unfold poolTotal
    linarith
  · unfold poolTotal
    ring

/-! ## Interests -/

theorem Stocked.payable (hg : Budget g) (he : Stocked g e) : e.Payable g where
  coinbase := he.interestFromCoinbase
  fees := he.interestFromFees
  total := by
    obtain ⟨_, _, _, _, _, _, hle⟩ := he.pools_le
    have hmax := hg.supplyMax
    have hinitial := hg.initialSupply
    have htotal := hg.totalSupply
    linarith
  feesMax := by
    obtain ⟨_, _, _, hle, _⟩ := he.pools_le
    have hmax := hg.supplyMax
    have hfees := he.interestFromFees
    unfold interestBlocks
    push_cast
    linarith
  feesTime := by
    have htime := hg.feesTime
    unfold interestBlocks at htime
    omega
  day := .inl hg.feesTime

/-- Interests come out of the interest pools. -/
theorem withdrawInterests_pools {holding interest : ShareType} {period : ℕ}
    (h : e.withdrawInterests g holding period = .ok (e', interest)) :
    e' = { e with
      interestPoolFromFees := e'.interestPoolFromFees
      interestPoolFromCoinbase := e'.interestPoolFromCoinbase } := by
  simp only [withdrawInterests, bind_eq_ok] at h
  obtain ⟨_, _, h⟩ := h
  split at h
  · cases h
    rfl
  · simp only [bind_eq_ok, pure_eq_ok, Prod.mk.injEq] at h
    obtain ⟨_, _, _, _, _, _, _, _, _, _, _, _, _, _, rfl, _⟩ := h
    rfl

theorem withdrawInterests_stocked (hg : Budget g) (he : Stocked g e) {holding : ℤ} {period : ℕ}
    (hholding : 0 ≤ holding) (hle : holding ≤ e.accumulatedSupply) :
    ∃ e' interest, e.withdrawInterests g holding period = .ok (e', interest) ∧ Stocked g e' ∧
      0 ≤ interest ∧ e'.poolTotal = e.poolTotal - interest := by
  obtain ⟨e', interest, hok, hpayable⟩ : ∃ e' interest,
      e.withdrawInterests g holding period = .ok (e', interest) ∧ e'.Payable g :=
    withdrawInterests_ok hg.coinbaseBlocks (he.payable hg) hholding hle he.accumulated
  obtain ⟨hinterest, htotal, _⟩ := withdrawInterests_eq_ok he.accumulated hok
  have hpools := withdrawInterests_pools hok
  refine ⟨e', interest, hok, ?_, hinterest, htotal⟩
  have htotal' : e'.poolTotal ≤ g.totalSupply := by
    rw [htotal]
    exact (sub_le_self _ hinterest).trans he.total
  have hcoinbase := hpayable.coinbase
  have hfees := hpayable.fees
  rw [hpools] at htotal' hcoinbase hfees ⊢
  exact ⟨he.miningFromCoinbase, he.miningFromFees, hcoinbase, hfees, he.promotion, he.burn, htotal',
    he.blockReward, he.blockRewardMax, he.accumulated⟩

/-- The unsigned products of `withdraw_interests`, which would wrap around silently. -/
theorem totalInterests_fits (hg : Budget g) {period : ℕ} (hperiod : period ≤ interestBlocks) :
    uint64OfInt (g.totalSupply - g.initialSupply) * g.interestPoolPercentage <
        18446744073709551616 ∧
      totalInterests g * period < 18446744073709551616 := by
  have hmax := hg.supplyMax
  have hinitial := hg.initialSupply
  have hcoinbase0 : (0 : ℤ) ≤ g.totalSupply - g.initialSupply := sub_nonneg.2 hg.totalSupply
  have hcoinbaseMax : (g.totalSupply - g.initialSupply : ℤ) ≤ int64Max := by linarith
  have hcoinbase := uint64OfInt_of_nonneg hcoinbase0 hcoinbaseMax
  have hscaled : uint64OfInt (g.totalSupply - g.initialSupply) * 10000 ≤ 9223372036854775807 := by
    have hscaledInt : (uint64OfInt (g.totalSupply - g.initialSupply) : ℤ) * 10000 ≤ int64Max := by
      rw [hcoinbase]
      linarith
    unfold int64Max at hscaledInt
    exact_mod_cast hscaledInt
  have hpercentage : g.interestPoolPercentage ≤ 10000 := by
    have hshares := hg.shares
    omega
  have hproduct : uint64OfInt (g.totalSupply - g.initialSupply) * g.interestPoolPercentage ≤
      uint64OfInt (g.totalSupply - g.initialSupply) * 10000 := Nat.mul_le_mul_left _ hpercentage
  refine ⟨by omega, ?_⟩
  have htotal : totalInterests g ≤ uint64OfInt (g.totalSupply - g.initialSupply) := by
    rw [totalInterests, Nat.mod_eq_of_lt (by omega)]
    apply Nat.div_le_of_le_mul
    rw [Nat.mul_comm hundredPercent]
    exact hproduct
  calc totalInterests g * period
      ≤ uint64OfInt (g.totalSupply - g.initialSupply) * 10000 :=
        Nat.mul_le_mul htotal (hperiod.trans (by decide))
    _ < 18446744073709551616 := by omega

end EconomicModel

/-! ## Calls -/

/-- Calls that put into the pools or take from them. -/
inductive PoolCall where
  | addFee (fee : ShareType)
  | withdrawMiningReward (blockNumber nominator denominator : ℕ)
  | withdrawInterests (holding : ShareType) (period : ℕ)

namespace PoolCall

open EconomicModel

/-- The object after a call, with the amount a withdrawal returns. -/
def run (g : GenesisState) (e : EconomicModel) : PoolCall → Exec (EconomicModel × ShareType)
  | addFee fee => do
    let e ← e.addFee g fee
    pure (e, 0)
  | withdrawMiningReward blockNumber nominator denominator =>
    e.withdrawMiningReward g blockNumber nominator denominator
  | withdrawInterests holding period => e.withdrawInterests g holding period

/-- What a call puts into the pools. -/
def fee : PoolCall → ShareType
  | addFee fee => fee
  | withdrawMiningReward _ _ _ | withdrawInterests _ _ => 0

/-- Arguments as the callers give them: a fee out of what is not in the pools, weights of a byte,
holdings within the accumulated supply for a period. -/
def Within (g : GenesisState) (e : EconomicModel) : PoolCall → Prop
  | addFee fee => 0 ≤ fee ∧ e.poolTotal + fee ≤ g.totalSupply
  | withdrawMiningReward _ nominator denominator => nominator ≤ 255 ∧ denominator ≠ 0
  | withdrawInterests holding period =>
    0 ≤ holding ∧ holding ≤ e.accumulatedSupply ∧ period ≤ interestBlocks

/-- No 64-bit product of a call overflows silently: the signed ones are checked. -/
def Fits (g : GenesisState) : PoolCall → Prop
  | withdrawInterests _ period =>
    uint64OfInt (g.totalSupply - g.initialSupply) * g.interestPoolPercentage <
        18446744073709551616 ∧
      totalInterests g * period < 18446744073709551616
  | _ => True

variable {g : GenesisState} {e : EconomicModel}

/-- A call goes through, keeps the pools and changes their total by what is put in and taken. -/
theorem run_ok (hg : Budget g) (he : Stocked g e) {c : PoolCall} (hc : c.Within g e) :
    c.Fits g ∧ ∃ e' returned, c.run g e = .ok (e', returned) ∧ Stocked g e' ∧ 0 ≤ returned ∧
      e'.poolTotal = e.poolTotal + c.fee - returned := by
  cases c with
  | addFee fee =>
    obtain ⟨e', hok, he', htotal⟩ := addFee_ok hg he hc.1 hc.2
    refine ⟨trivial, e', 0, ?_, he', le_rfl, ?_⟩
    · simp only [run, hok, ok_bind]
      rfl
    · rw [htotal, sub_zero]
      rfl
  | withdrawMiningReward blockNumber nominator denominator =>
    obtain ⟨e', reward, hok, he', hreward, htotal⟩ := withdrawMiningReward_ok hg he hc.1 hc.2
    refine ⟨trivial, e', reward, hok, he', hreward, ?_⟩
    rw [htotal, fee, add_zero]
  | withdrawInterests holding period =>
    obtain ⟨hholding, hle, hperiod⟩ := hc
    obtain ⟨e', interest, hok, he', hinterest, htotal⟩ :=
      withdrawInterests_stocked hg he hholding hle
    refine ⟨totalInterests_fits hg hperiod, e', interest, hok, he', hinterest, ?_⟩
    rw [htotal, fee, add_zero]

/-- Calls one after another, each within what its callers give. -/
inductive Runs (g : GenesisState) (e₀ : EconomicModel) : EconomicModel → Prop
  | start : Runs g e₀ e₀
  | call {e e' : EconomicModel} {c : PoolCall} {returned : ShareType} (h : Runs g e₀ e)
      (hc : c.Within g e) (hok : c.run g e = .ok (e', returned)) : Runs g e₀ e'

end PoolCall

open PoolCall in
/-- In every sequence of calls no pool becomes negative; every call goes through without an
overflow, a fee adds up exactly and a withdrawal takes exactly what it returns. -/
theorem pools_kept {g : GenesisState} {e₀ e : EconomicModel} (hg : Budget g)
    (he₀ : e₀.Stocked g) (h : Runs g e₀ e) :
    e.Stocked g ∧ ∀ c : PoolCall, c.Within g e → c.Fits g ∧
      ∃ e' returned, c.run g e = .ok (e', returned) ∧ e'.Stocked g ∧ 0 ≤ returned ∧
        e'.poolTotal = e.poolTotal + c.fee - returned := by
  have he : e.Stocked g := by
    induction h with
    | start => exact he₀
    | call _ hc hok ih =>
      obtain ⟨_, e', returned, hok', he', _⟩ := run_ok hg ih hc
      rw [hok] at hok'
      cases hok'
      exact he'
  exact ⟨he, fun c hc ↦ run_ok hg he hc⟩

/-- The development network with the supply of the live one. -/
def liveSupplyGenesis : GenesisState :=
  { devGenesis with initialSupply := 350000000000000, totalSupply := 500000000000000 }

theorem liveSupplyGenesis_budget : Budget liveSupplyGenesis := by
  refine ⟨?_, ?_, ?_, ?_, ?_, ?_, ?_⟩ <;> decide +kernel

/-- Fees that were collected for the miners, and nothing else. -/
def collectedFees (fees : ShareType) : EconomicModel where
  miningPoolFromCoinbase := 0
  miningPoolFromFees := fees
  interestPoolFromCoinbase := 0
  interestPoolFromFees := 0
  promotionPool := 0
  burnPool := 0
  initialPromotionPool := 0
  initSupply := 350000000000000
  totalSupply := 500000000000000
  historicSupply := fun _ ↦ 0
  accumulatedSupply := 1000
  coinbaseBlockReward := 0

theorem collectedFees_stocked : (collectedFees 450000000000000).Stocked liveSupplyGenesis := by
  refine ⟨?_, ?_, ?_, ?_, ?_, ?_, ?_, ?_, ?_, ?_⟩ <;> decide +kernel

open PoolCall in
/-- A fee, and a reward of the highest weight. -/
theorem pools_kept_after_fee :
    ∃ e e' reward, (collectedFees 450000000000000).addFee liveSupplyGenesis 1000000 = .ok e ∧
      e.withdrawMiningReward liveSupplyGenesis 30000 255 1 = .ok (e', reward) ∧
      e'.Stocked liveSupplyGenesis := by
  have hwithin : Within liveSupplyGenesis (collectedFees 450000000000000) (.addFee 1000000) :=
    ⟨by decide, by decide +kernel⟩
  obtain ⟨_, e, _, hfee, _⟩ := run_ok liveSupplyGenesis_budget collectedFees_stocked hwithin
  have hrun := Runs.start.call hwithin hfee
  obtain ⟨_, hcalls⟩ := pools_kept liveSupplyGenesis_budget collectedFees_stocked hrun
  obtain ⟨_, e', reward, hreward, he', _⟩ :=
    hcalls (.withdrawMiningReward 30000 255 1) ⟨by decide, by decide⟩
  simp only [run, bind_eq_ok, pure_eq_ok, Prod.mk.injEq] at hfee
  obtain ⟨_, hfee, rfl, _⟩ := hfee
  exact ⟨_, e', reward, hfee, hreward, he'⟩

/-- A weight of four bytes overflows the product with the reward from fees, and a period of four
bytes that with the total interests; a supply near the largest amount overflows the percentages of
a fee, and a burn percentage over a hundred makes the pools negative. -/
theorem mining_reward_overflows :
    (collectedFees 450000000000000).Stocked liveSupplyGenesis ∧ Budget liveSupplyGenesis ∧
      (collectedFees 450000000000000).withdrawMiningReward liveSupplyGenesis 30000 4294967295 1 =
        .error .overflow ∧
      18446744073709551616 ≤ EconomicModel.totalInterests liveSupplyGenesis * 4294967295 ∧
      (collectedFees 0).addFee { liveSupplyGenesis with totalSupply := 9000000000000000000 }
        1000000000000000000 = .error .overflow ∧
      ∃ e, (collectedFees 0).addFee { liveSupplyGenesis with burnFeePercentage := 20000 } 100 =
        .ok e ∧ e.miningPoolFromFees < 0 := by
  have hnegative : okAnd ((collectedFees 0).addFee
      { liveSupplyGenesis with burnFeePercentage := 20000 } 100)
      (fun e ↦ decide (e.miningPoolFromFees < 0)) = true := by decide +kernel
  obtain ⟨e, hfee, he⟩ := exists_of_okAnd hnegative
  refine ⟨collectedFees_stocked, liveSupplyGenesis_budget, eq_error_of_errorOf ?_, ?_,
    eq_error_of_errorOf ?_, e, hfee, of_decide_eq_true he⟩ <;> decide +kernel

end SophiaTX.Chain
