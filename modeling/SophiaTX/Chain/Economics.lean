import SophiaTX.Chain.Objects

/-!
# Economic model

The methods of `economic_model_object`. A method that takes from a pool returns the changed
object together with the amount taken.
-/

namespace SophiaTX.Chain.EconomicModel

open SophiaTX.Protocol SophiaTX.Lib

/-- `init_economics`, on a freshly constructed object. -/
def initEconomics (g : GenesisState) (initSupply totalSupply : ShareType) : Exec EconomicModel := do
  let coinbase ← safeSub totalSupply initSupply
  let share (percentage : ℕ) : Exec ShareType := do
    safeDiv (← safeMul coinbase percentage) hundredPercent
  let miningPool ← share g.miningPoolPercentage
  let interestPool ← share g.interestPoolPercentage
  let promotionPool ← share g.promotionPoolPercentage
  let coinbaseBlockReward ← safeDiv miningPool g.coinbaseBlocks
  pure {
    miningPoolFromCoinbase := miningPool
    miningPoolFromFees := 0
    interestPoolFromCoinbase := interestPool
    interestPoolFromFees := 0
    promotionPool := promotionPool
    burnPool := 0
    initialPromotionPool := promotionPool
    initSupply := initSupply
    totalSupply := totalSupply
    historicSupply := fun _ ↦ 0
    accumulatedSupply := 0
    coinbaseBlockReward := coinbaseBlockReward }

/-- The share of a reward that goes to a witness of weight `nominator / denominator`, capped by
the pool it is paid from. -/
def weightedReward (reward pool : ShareType) (nominator denominator : ℕ) : Exec ShareType := do
  let weighted ← safeDiv (← safeMul reward nominator) denominator
  pure (min weighted pool)

def withdrawMiningReward (g : GenesisState) (e : EconomicModel)
    (blockNumber nominator denominator : ℕ) : Exec (EconomicModel × ShareType) :=
  if blockNumber ≤ g.interestDelay then
    pure (e, 0)
  else do
    let rewardFromCoinbase ← weightedReward e.coinbaseBlockReward e.miningPoolFromCoinbase
      nominator denominator
    let feesPerBlock ← safeDiv e.miningPoolFromFees (uint32 (g.blocksPerDay * 7))
    let rewardFromFees ← weightedReward feesPerBlock e.miningPoolFromFees nominator denominator
    let miningPoolFromCoinbase ← safeSub e.miningPoolFromCoinbase rewardFromCoinbase
    let miningPoolFromFees ← safeSub e.miningPoolFromFees rewardFromFees
    let reward ← safeAdd rewardFromCoinbase rewardFromFees
    pure ({ e with
      miningPoolFromCoinbase := miningPoolFromCoinbase
      miningPoolFromFees := miningPoolFromFees }, reward)

def recordBlock (e : EconomicModel) (generatedBlock : ℕ) (currentSupply : ShareType) :
    Exec EconomicModel := do
  let slot := generatedBlock % interestBlocks
  let accumulated ← (if interestBlocks ≤ generatedBlock then
      safeSub e.accumulatedSupply (e.historicSupply slot)
    else pure e.accumulatedSupply)
  let accumulated ← safeAdd accumulated currentSupply
  pure { e with
    historicSupply := Function.update e.historicSupply slot currentSupply
    accumulatedSupply := accumulated }

/-- `SOPHIATX_TOTAL_INTERESTS`, in `uint64_t` arithmetic. -/
def totalInterests (g : GenesisState) : ℕ :=
  uint64OfInt (g.totalSupply - g.initialSupply) * g.interestPoolPercentage %
    18446744073709551616 / hundredPercent

/-- `holding * amount / accumulated` in 128 bits. -/
def proportionalShare (amount holding accumulated : ℕ) : Exec ShareType := do
  let quotient ← uint128Div (uint128Mul holding amount) accumulated
  pure (int64OfUint64 (← uint128ToUint64 quotient))

def withdrawInterests (g : GenesisState) (e : EconomicModel) (holding : ShareType)
    (period : ℕ) : Exec (EconomicModel × ShareType) := do
  fcAssert (0 ≤ holding ∧ 0 ≤ e.interestPoolFromCoinbase ∧ 0 ≤ e.interestPoolFromFees ∧
    holding ≤ e.accumulatedSupply)
    "holding >= 0 && pools >= 0 && accumulated_supply >= holding"
  if holding = 0 then
    pure (e, 0)
  else do
    throwIf (g.coinbaseBlocks = 0 ∨ g.interestFeesTime = 0) .divideByZero
    let totalCoinbaseForPeriod := min (uint64OfInt e.interestPoolFromCoinbase)
      (totalInterests g * period % 18446744073709551616 / g.coinbaseBlocks)
    let coinbaseReward ← proportionalShare totalCoinbaseForPeriod (uint128OfInt holding)
      (uint128OfInt e.accumulatedSupply)
    let feesForPeriod ← rawMul e.interestPoolFromFees interestBlocks
    let feesReward ← proportionalShare (uint64OfInt feesForPeriod / g.interestFeesTime)
      (uint128OfInt holding) (uint128OfInt e.accumulatedSupply)
    let interestPoolFromFees ← safeSub e.interestPoolFromFees feesReward
    let interestPoolFromCoinbase ← safeSub e.interestPoolFromCoinbase coinbaseReward
    let interest ← safeAdd feesReward coinbaseReward
    pure ({ e with
      interestPoolFromFees := interestPoolFromFees
      interestPoolFromCoinbase := interestPoolFromCoinbase }, interest)

def addFee (g : GenesisState) (e : EconomicModel) (fee : ShareType) : Exec EconomicModel := do
  let toBurn ← safeDiv (← safeMul fee g.burnFeePercentage) hundredPercent
  let fee ← safeSub fee toBurn
  let toMiningPool ← safeDiv (← safeMul fee g.miningPoolPercentage) hundredPercent
  let toPromotionPool ← safeDiv (← safeMul fee g.promotionPoolPercentage) hundredPercent
  let miningPoolFromFees ← safeAdd e.miningPoolFromFees toMiningPool
  let promotionPool ← safeAdd e.promotionPool toPromotionPool
  let burnPool ← safeAdd e.burnPool toBurn
  let toInterests ← safeSub (← safeSub fee toMiningPool) toPromotionPool
  let interestPoolFromFees ← safeAdd e.interestPoolFromFees toInterests
  pure { e with
    miningPoolFromFees := miningPoolFromFees
    promotionPool := promotionPool
    burnPool := burnPool
    interestPoolFromFees := interestPoolFromFees }

def getAvailablePromotionPool (g : GenesisState) (e : EconomicModel) (blockNumber : ℕ) :
    Exec ShareType := do
  let blocksToCoinbaseEnd := uint128Sub g.coinbaseBlocks blockNumber
  let perBlock ← uint128Div (uint128Mul (uint128OfInt e.initialPromotionPool) 262144)
    g.coinbaseBlocks
  let locked ← uint128Div (uint128Mul perBlock blocksToCoinbaseEnd) 262144
  let lockedPool := int64OfUint64 (← uint128ToUint64 locked)
  fcAssert (lockedPool ≤ e.promotionPool) "promotion_pool >= locked_pool"
  safeSub e.promotionPool lockedPool

def withdrawFromPromotionPool (g : GenesisState) (e : EconomicModel) (amount : ShareType)
    (blockNumber : ℕ) : Exec (EconomicModel × ShareType) := do
  let freePool ← e.getAvailablePromotionPool g blockNumber
  let toWithdraw := min freePool amount
  let promotionPool ← safeSub e.promotionPool toWithdraw
  fcAssert (0 < toWithdraw) "to_withdraw.value > 0"
  pure ({ e with promotionPool := promotionPool }, toWithdraw)

/-! ## Effect on the pools -/

/-- Everything outside the supply. -/
def poolTotal (e : EconomicModel) : ShareType :=
  e.interestPoolFromFees + e.interestPoolFromCoinbase + e.miningPoolFromFees +
    e.miningPoolFromCoinbase + e.promotionPool + e.burnPool

structure SameHistory (e e' : EconomicModel) : Prop where
  historicSupply : e'.historicSupply = e.historicSupply
  accumulatedSupply : e'.accumulatedSupply = e.accumulatedSupply

theorem SameHistory.refl (e : EconomicModel) : SameHistory e e := ⟨rfl, rfl⟩

variable {g : GenesisState} {e e' : EconomicModel}

theorem addFee_eq_ok {fee : ShareType} (h : e.addFee g fee = .ok e') :
    e'.poolTotal = e.poolTotal + fee ∧ SameHistory e e' := by
  simp only [addFee, safeAdd, safeSub, bind_eq_ok, checked_eq_ok, pure_eq_ok] at h
  obtain ⟨_, _, toBurn, _, _, ⟨_, rfl⟩, _, _, toMining, _, _, _, toPromotion, _, _, ⟨_, rfl⟩,
    _, ⟨_, rfl⟩, _, ⟨_, rfl⟩, _, ⟨_, rfl⟩, _, ⟨_, rfl⟩, _, ⟨_, rfl⟩, rfl⟩ := h
  refine ⟨?_, rfl, rfl⟩
  simp only [poolTotal]
  ring

theorem withdrawMiningReward_eq_ok {blockNumber nominator denominator : ℕ} {reward : ShareType}
    (h : e.withdrawMiningReward g blockNumber nominator denominator = .ok (e', reward)) :
    e'.poolTotal = e.poolTotal - reward ∧ SameHistory e e' := by
  unfold withdrawMiningReward at h
  split at h
  · cases h
    exact ⟨(sub_zero _).symm, .refl e⟩
  · simp only [safeAdd, safeSub, bind_eq_ok, checked_eq_ok, pure_eq_ok, Prod.mk.injEq] at h
    obtain ⟨fromCoinbase, _, _, _, fromFees, _, _, ⟨_, rfl⟩, _, ⟨_, rfl⟩, _, ⟨_, rfl⟩,
      rfl, rfl⟩ := h
    refine ⟨?_, rfl, rfl⟩
    simp only [poolTotal]
    ring

theorem withdrawFromPromotionPool_eq_ok {amount withdrawn : ShareType} {blockNumber : ℕ}
    (h : e.withdrawFromPromotionPool g amount blockNumber = .ok (e', withdrawn)) :
    0 < withdrawn ∧ e'.poolTotal = e.poolTotal - withdrawn ∧ SameHistory e e' := by
  simp only [withdrawFromPromotionPool, safeSub, bind_eq_ok, checked_eq_ok, fcAssert_eq_ok,
    pure_eq_ok, Prod.mk.injEq] at h
  obtain ⟨_, _, _, ⟨_, rfl⟩, _, hpos, rfl, rfl⟩ := h
  refine ⟨hpos, ?_, rfl, rfl⟩
  simp only [poolTotal]
  ring

theorem recordBlock_eq_ok {num : ℕ} {currentSupply : ShareType}
    (h : e.recordBlock num currentSupply = .ok e') :
    e'.poolTotal = e.poolTotal ∧
      e'.historicSupply = Function.update e.historicSupply (num % interestBlocks) currentSupply ∧
      e'.accumulatedSupply = e.accumulatedSupply + currentSupply -
        (if interestBlocks ≤ num then e.historicSupply (num % interestBlocks) else 0) ∧
      e'.accumulatedSupply ≤ int64Max := by
  simp only [recordBlock, safeAdd, safeSub, bind_eq_ok, checked_eq_ok, pure_eq_ok] at h
  obtain ⟨accumulated, haccumulated, _, ⟨hrange, rfl⟩, rfl⟩ := h
  refine ⟨rfl, rfl, ?_, hrange.2⟩
  split at haccumulated
  · rename_i hnum
    rw [checked_eq_ok] at haccumulated
    simp only [if_pos hnum, ← haccumulated.2]
    ring
  · rename_i hnum
    rw [pure_eq_ok] at haccumulated
    simp only [if_neg hnum, haccumulated]
    ring

/-! ## Interests -/

/-- A holding within the accumulated supply gets no more than the whole amount. -/
theorem proportionalShare_eq {amount : ℕ} {holding accumulated : ℤ}
    (hamount : amount < 18446744073709551616) (hholding : 0 ≤ holding)
    (hle : holding ≤ accumulated) (hpos : 0 < accumulated) (hmax : accumulated ≤ int64Max) :
    ∃ quotient ≤ amount, proportionalShare amount (uint128OfInt holding)
      (uint128OfInt accumulated) = .ok (int64OfUint64 quotient) := by
  obtain ⟨held, rfl⟩ := Int.eq_ofNat_of_zero_le hholding
  obtain ⟨total, rfl⟩ := Int.eq_ofNat_of_zero_le hpos.le
  unfold int64Max at hmax
  have hheld : held ≤ total := by omega
  have htotal : total < 9223372036854775808 := by omega
  have hheld128 : uint128OfInt (held : ℤ) = held := by
    unfold uint128OfInt
    omega
  have htotal128 : uint128OfInt (total : ℤ) = total := by
    unfold uint128OfInt
    omega
  have hproduct : held * amount ≤ total * amount := Nat.mul_le_mul_right amount hheld
  have hsmall : held * amount < uint128Size := by
    calc held * amount ≤ 9223372036854775808 * 18446744073709551616 :=
          Nat.mul_le_mul (by omega) hamount.le
      _ < uint128Size := by decide
  have hquotient : held * amount / total ≤ amount :=
    Nat.div_le_of_le_mul hproduct
  refine ⟨held * amount / total, hquotient, ?_⟩
  have htotal0 : total ≠ 0 := by omega
  rw [hheld128, htotal128, proportionalShare, uint128Mul, Nat.mod_eq_of_lt hsmall, uint128Div,
    if_neg htotal0]
  simp only [uint128ToUint64, bind, Except.bind, pure, Except.pure,
    if_pos (hquotient.trans_lt hamount)]

/-- The interests paid from fees are computed from an amount within 63 bits. -/
theorem feesShare_nonneg {fees : ℤ} {amount : ℕ} {holding accumulated reward : ℤ}
    (hamount : amount ≤ uint64OfInt fees) (hfees : 0 ≤ fees) (hfeesMax : fees ≤ int64Max)
    (hholding : 0 ≤ holding) (hle : holding ≤ accumulated) (hpos : 0 < accumulated)
    (hmax : accumulated ≤ int64Max)
    (h : proportionalShare amount (uint128OfInt holding) (uint128OfInt accumulated) =
      .ok reward) : 0 ≤ reward := by
  unfold uint64OfInt at hamount
  unfold int64Max at hfeesMax
  have hsmall : amount < 18446744073709551616 := by omega
  obtain ⟨quotient, hquotient, hshare⟩ := proportionalShare_eq hsmall hholding hle hpos hmax
  rw [hshare] at h
  cases h
  unfold int64OfUint64
  split <;> omega

/-- A share of the coinbase pool that wrapped around would overflow the pool it is taken from. -/
theorem coinbaseShare_nonneg {pool : ℤ} {amount : ℕ} {holding accumulated reward : ℤ}
    (hamount : amount ≤ uint64OfInt pool) (hpool : 0 ≤ pool) (hholding : 0 ≤ holding)
    (hle : holding ≤ accumulated) (hpos : 0 < accumulated) (hmax : accumulated ≤ int64Max)
    (h : proportionalShare amount (uint128OfInt holding) (uint128OfInt accumulated) = .ok reward)
    (hrest : pool - reward ≤ int64Max) : 0 ≤ reward := by
  unfold uint64OfInt at hamount
  unfold int64Max at hrest
  have hsmall : amount < 18446744073709551616 := by omega
  obtain ⟨quotient, hquotient, hshare⟩ := proportionalShare_eq hsmall hholding hle hpos hmax
  rw [hshare] at h
  cases h
  unfold int64OfUint64 at hrest ⊢
  split at hrest <;> split <;> omega

/-- Interests are not negative, and leave the interest pools. -/
theorem withdrawInterests_eq_ok {holding interest : ShareType} {period : ℕ}
    (hmax : e.accumulatedSupply ≤ int64Max)
    (h : e.withdrawInterests g holding period = .ok (e', interest)) :
    0 ≤ interest ∧ e'.poolTotal = e.poolTotal - interest ∧ SameHistory e e' := by
  simp only [withdrawInterests, bind_eq_ok, fcAssert_eq_ok] at h
  obtain ⟨_, ⟨hholding, hcoinbase, hfees, hle⟩, h⟩ := h
  split at h
  · rw [pure_eq_ok, Prod.mk.injEq] at h
    obtain ⟨rfl, rfl⟩ := h
    exact ⟨le_rfl, (sub_zero _).symm, .refl e⟩
  · simp only [rawMul, safeAdd, safeSub, bind_eq_ok, throwIf_eq_ok, checked_eq_ok, pure_eq_ok,
      Prod.mk.injEq] at h
    obtain ⟨_, _, coinbaseReward, hcoinbaseReward, feesForPeriod, hfeesForPeriod, feesReward,
      hfeesReward, _, ⟨_, rfl⟩, _, ⟨hrest, rfl⟩, _, ⟨_, rfl⟩, rfl, rfl⟩ := h
    have hpos : 0 < e.accumulatedSupply := by
      rcases hle.eq_or_lt with heq | hlt
      · rw [← heq]
        exact lt_of_le_of_ne hholding (Ne.symm ‹_›)
      · exact hholding.trans_lt hlt
    have hcoinbase0 : 0 ≤ coinbaseReward :=
      coinbaseShare_nonneg (min_le_left _ _) hcoinbase hholding hle hpos hmax hcoinbaseReward
        hrest.2
    have hfees0 : 0 ≤ feesReward := by
      split at hfeesForPeriod
      · rename_i hproduct
        cases hfeesForPeriod
        exact feesShare_nonneg (Nat.div_le_self _ _) (Int.mul_nonneg hfees (by decide)) hproduct.2
          hholding hle hpos hmax hfeesReward
      · cases hfeesForPeriod
    refine ⟨add_nonneg hfees0 hcoinbase0, ?_, rfl, rfl⟩
    simp only [poolTotal]
    ring

/-- Pools that interests can be paid from. A period takes its part of the fees of a day, so fees
need a day of at least one period. -/
structure Payable (e : EconomicModel) (g : GenesisState) : Prop where
  coinbase : 0 ≤ e.interestPoolFromCoinbase
  fees : 0 ≤ e.interestPoolFromFees
  total : e.interestPoolFromFees + e.interestPoolFromCoinbase ≤ int64Max
  feesMax : e.interestPoolFromFees * interestBlocks ≤ int64Max
  feesTime : g.interestFeesTime ≠ 0
  day : interestBlocks ≤ g.interestFeesTime ∨ e.interestPoolFromFees = 0

instance (e : EconomicModel) (g : GenesisState) : Decidable (e.Payable g) :=
  decidable_of_iff (0 ≤ e.interestPoolFromCoinbase ∧ 0 ≤ e.interestPoolFromFees ∧
    e.interestPoolFromFees + e.interestPoolFromCoinbase ≤ int64Max ∧
    e.interestPoolFromFees * interestBlocks ≤ int64Max ∧ g.interestFeesTime ≠ 0 ∧
    (interestBlocks ≤ g.interestFeesTime ∨ e.interestPoolFromFees = 0))
    ⟨fun ⟨h₁, h₂, h₃, h₄, h₅, h₆⟩ ↦ ⟨h₁, h₂, h₃, h₄, h₅, h₆⟩,
      fun ⟨h₁, h₂, h₃, h₄, h₅, h₆⟩ ↦ ⟨h₁, h₂, h₃, h₄, h₅, h₆⟩⟩

theorem uint64OfInt_of_nonneg {x : ℤ} (h : 0 ≤ x) (hmax : x ≤ int64Max) :
    (uint64OfInt x : ℤ) = x := by
  unfold int64Max at hmax
  unfold uint64OfInt
  omega

/-- A share of at most `limit`, which fits 63 bits, does not wrap around. -/
theorem proportionalShare_le {amount : ℕ} {holding accumulated limit : ℤ} (hlimit : amount ≤ limit)
    (hlimitMax : limit ≤ int64Max) (hholding : 0 ≤ holding) (hle : holding ≤ accumulated)
    (hpos : 0 < accumulated) (hmax : accumulated ≤ int64Max) :
    ∃ share : ℤ, 0 ≤ share ∧ share ≤ limit ∧
      proportionalShare amount (uint128OfInt holding) (uint128OfInt accumulated) = .ok share := by
  unfold int64Max at hlimitMax
  have hamount : amount < 18446744073709551616 := by omega
  obtain ⟨quotient, hquotient, hshare⟩ := proportionalShare_eq hamount hholding hle hpos hmax
  refine ⟨_, ?_, ?_, hshare⟩
  all_goals
    unfold int64OfUint64
    split <;> omega

theorem Payable.coinbaseMax (h : e.Payable g) : e.interestPoolFromCoinbase ≤ int64Max :=
  (le_add_of_nonneg_left h.fees).trans h.total

theorem Payable.feesPoolMax (h : e.Payable g) : e.interestPoolFromFees ≤ int64Max :=
  (le_add_of_nonneg_right h.coinbase).trans h.total

/-- With a day of at least one interest period, a period takes no more than the pool. -/
theorem feesAmount_le {pool : ℤ} {time : ℕ} (hpool : 0 ≤ pool)
    (hmax : pool * interestBlocks ≤ int64Max) (htime : interestBlocks ≤ time ∨ pool = 0) :
    ((uint64OfInt (pool * interestBlocks) / time : ℕ) : ℤ) ≤ pool := by
  rcases htime with htime | rfl
  swap
  · simp [uint64OfInt]
  obtain ⟨fees, rfl⟩ := Int.eq_ofNat_of_zero_le hpool
  have hamount : uint64OfInt (fees * interestBlocks) = fees * interestBlocks := by
    unfold int64Max at hmax
    unfold uint64OfInt
    omega
  rw [hamount, Int.ofNat_le]
  refine Nat.div_le_of_le_mul ?_
  rw [Nat.mul_comm]
  exact Nat.mul_le_mul_right fees htime

/-- Interests on a holding within the accumulated supply can be paid, and leave pools that the
next ones can be paid from. -/
theorem withdrawInterests_ok {holding : ℤ} {period : ℕ} (hcoinbaseBlocks : g.coinbaseBlocks ≠ 0)
    (hpools : e.Payable g) (hholding : 0 ≤ holding) (hle : holding ≤ e.accumulatedSupply)
    (hmax : e.accumulatedSupply ≤ int64Max) :
    ∃ e' interest, e.withdrawInterests g holding period = .ok (e', interest) ∧ e'.Payable g := by
  have hassert : 0 ≤ holding ∧ 0 ≤ e.interestPoolFromCoinbase ∧ 0 ≤ e.interestPoolFromFees ∧
      holding ≤ e.accumulatedSupply := ⟨hholding, hpools.coinbase, hpools.fees, hle⟩
  rcases eq_or_ne holding 0 with rfl | hne
  · refine ⟨e, 0, ?_, hpools⟩
    simp [withdrawInterests, fcAssert, hassert, bind, Except.bind]
  · have hpos : 0 < e.accumulatedSupply := (lt_of_le_of_ne hholding hne.symm).trans_le hle
    have hcoinbaseAmount : (min (uint64OfInt e.interestPoolFromCoinbase) (totalInterests g *
        period % 18446744073709551616 / g.coinbaseBlocks) : ℕ) ≤ e.interestPoolFromCoinbase := by
      refine le_trans ?_ (uint64OfInt_of_nonneg hpools.coinbase hpools.coinbaseMax).le
      exact_mod_cast min_le_left _ _
    obtain ⟨coinbaseReward, hcoinbase0, hcoinbaseLe, hcoinbaseReward⟩ := proportionalShare_le
      hcoinbaseAmount hpools.coinbaseMax hholding hle hpos hmax
    obtain ⟨feesReward, hfees0, hfeesLe, hfeesReward⟩ := proportionalShare_le
      (feesAmount_le hpools.fees hpools.feesMax hpools.day) hpools.feesPoolMax hholding
      hle hpos hmax
    have hrawMul : rawMul e.interestPoolFromFees interestBlocks =
        .ok (e.interestPoolFromFees * interestBlocks) := by
      rw [rawMul, if_pos ⟨le_trans (by decide) (Int.mul_nonneg hpools.fees (by decide)),
        hpools.feesMax⟩]
    have hfeesRest : safeSub e.interestPoolFromFees feesReward =
        .ok (e.interestPoolFromFees - feesReward) := by
      refine checked_eq_ok.2 ⟨⟨?_, ?_⟩, rfl⟩
      · exact le_trans (by decide) (sub_nonneg.2 hfeesLe)
      · exact (sub_le_self _ hfees0).trans hpools.feesPoolMax
    have hcoinbaseRest : safeSub e.interestPoolFromCoinbase coinbaseReward =
        .ok (e.interestPoolFromCoinbase - coinbaseReward) := by
      refine checked_eq_ok.2 ⟨⟨?_, ?_⟩, rfl⟩
      · exact le_trans (by decide) (sub_nonneg.2 hcoinbaseLe)
      · exact (sub_le_self _ hcoinbase0).trans hpools.coinbaseMax
    have hinterest : safeAdd feesReward coinbaseReward = .ok (feesReward + coinbaseReward) := by
      refine checked_eq_ok.2 ⟨⟨?_, ?_⟩, rfl⟩
      · exact le_trans (by decide) (add_nonneg hfees0 hcoinbase0)
      · exact (add_le_add hfeesLe hcoinbaseLe).trans hpools.total
    refine ⟨{ e with
      interestPoolFromFees := e.interestPoolFromFees - feesReward
      interestPoolFromCoinbase := e.interestPoolFromCoinbase - coinbaseReward },
      feesReward + coinbaseReward, ?_, ?_⟩
    · simp only [withdrawInterests, fcAssert, if_pos hassert, if_neg hne, throwIf,
        hcoinbaseBlocks, hpools.feesTime, or_self, if_false, hcoinbaseReward, hrawMul, hfeesReward,
        hfeesRest, hcoinbaseRest, hinterest, bind, Except.bind, pure, Except.pure]
    · refine ⟨sub_nonneg.2 hcoinbaseLe, sub_nonneg.2 hfeesLe, ?_, ?_, hpools.feesTime, ?_⟩
      · exact (add_le_add (sub_le_self _ hfees0) (sub_le_self _ hcoinbase0)).trans hpools.total
      · exact (Int.mul_le_mul_of_nonneg_right (sub_le_self _ hfees0) (by decide)).trans
          hpools.feesMax
      · refine hpools.day.imp_right fun hzero ↦ ?_
        rw [hzero] at hfeesLe ⊢
        exact sub_eq_zero.2 (le_antisymm hfees0 hfeesLe)

end SophiaTX.Chain.EconomicModel
