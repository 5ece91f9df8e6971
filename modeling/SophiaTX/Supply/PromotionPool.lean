import SophiaTX.Chain.Genesis

/-!
# The lock of the promotion pool

The initial promotion pool is released block by block over the coinbase period. What is locked is
computed from the blocks left to the end of the period, without a guard for blocks after it: there
the difference wraps around and nothing can be withdrawn any more.
-/

namespace SophiaTX.Chain

open SophiaTX.Protocol SophiaTX.Lib

namespace EconomicModel

/-! ## The release schedule -/

/-- The amount released by each block, in units of `2 ^ 18`. -/
def releasedPerBlock (g : GenesisState) (initialPool : ℕ) : ℕ :=
  initialPool * 262144 / g.coinbaseBlocks

/-- The amount that is locked at a block up to the end of the coinbase period. -/
def lockedAmount (g : GenesisState) (initialPool blockNumber : ℕ) : ℕ :=
  releasedPerBlock g initialPool * (g.coinbaseBlocks - blockNumber) / 262144

variable {g : GenesisState} {initialPool blockNumber : ℕ}

theorem releasedPerBlock_mul_le :
    releasedPerBlock g initialPool * g.coinbaseBlocks ≤ initialPool * 262144 :=
  Nat.div_mul_le_self _ _

theorem lockedAmount_le : lockedAmount g initialPool blockNumber ≤ initialPool := by
  apply Nat.div_le_of_le_mul
  calc releasedPerBlock g initialPool * (g.coinbaseBlocks - blockNumber)
      ≤ releasedPerBlock g initialPool * g.coinbaseBlocks :=
        Nat.mul_le_mul_left _ (Nat.sub_le _ _)
    _ ≤ initialPool * 262144 := releasedPerBlock_mul_le
    _ = 262144 * initialPool := Nat.mul_comm _ _

/-- The lock only ever opens. -/
theorem lockedAmount_antitone : Antitone (lockedAmount g initialPool) := by
  intro first later hle
  apply Nat.div_le_div_right
  exact Nat.mul_le_mul_left _ (Nat.sub_le_sub_left hle _)

theorem lockedAmount_of_end (h : g.coinbaseBlocks ≤ blockNumber) :
    lockedAmount g initialPool blockNumber = 0 := by
  rw [lockedAmount, Nat.sub_eq_zero_of_le h, Nat.mul_zero, Nat.zero_div]

theorem releasedPerBlock_eq_zero_iff (hcoinbase : g.coinbaseBlocks ≠ 0) :
    releasedPerBlock g initialPool = 0 ↔ initialPool * 262144 < g.coinbaseBlocks :=
  Nat.div_eq_zero_iff_lt (Nat.pos_of_ne_zero hcoinbase)

/-! ## The lock as it is computed -/

/-- `locked_pool` in `get_available_promotion_pool`. -/
def lockedPool (g : GenesisState) (e : EconomicModel) (blockNumber : ℕ) : Exec ShareType := do
  let blocksToCoinbaseEnd := uint128Sub g.coinbaseBlocks blockNumber
  let perBlock ← uint128Div (uint128Mul (uint128OfInt e.initialPromotionPool) 262144)
    g.coinbaseBlocks
  let locked ← uint128Div (uint128Mul perBlock blocksToCoinbaseEnd) 262144
  pure (int64OfUint64 (← uint128ToUint64 locked))

theorem getAvailablePromotionPool_eq (e : EconomicModel) :
    e.getAvailablePromotionPool g blockNumber = (do
      let locked ← e.lockedPool g blockNumber
      fcAssert (locked ≤ e.promotionPool) "promotion_pool >= locked_pool"
      safeSub e.promotionPool locked) := by
  simp only [getAvailablePromotionPool, lockedPool, bind_assoc, pure_bind]

variable {e e' : EconomicModel}

/-- The initial pool is an amount, and there is a coinbase period. -/
structure WellFunded (g : GenesisState) (e : EconomicModel) : Prop where
  nonneg : 0 ≤ e.initialPromotionPool
  inRange : e.initialPromotionPool ≤ int64Max
  period : g.coinbaseBlocks ≠ 0

theorem coinbaseBlocks_lt (g : GenesisState) : g.coinbaseBlocks < 4294967296 :=
  Nat.mod_lt _ (by decide)

/-- An amount keeps its value in 128 bits. -/
theorem uint128OfInt_amount {x : ℤ} (hnonneg : 0 ≤ x) (hrange : x ≤ int64Max) :
    uint128OfInt x = x.toNat ∧ x.toNat < 9223372036854775808 := by
  unfold int64Max at hrange
  unfold uint128OfInt
  omega

theorem WellFunded.pool_lt (h : WellFunded g e) :
    e.initialPromotionPool.toNat < 9223372036854775808 :=
  (uint128OfInt_amount h.nonneg h.inRange).2

/-- The scaled pool fits into 128 bits. -/
theorem WellFunded.perBlock (h : WellFunded g e) :
    uint128Div (uint128Mul (uint128OfInt e.initialPromotionPool) 262144) g.coinbaseBlocks =
      .ok (releasedPerBlock g e.initialPromotionPool.toNat) := by
  have hlt := h.pool_lt
  have hsmall : e.initialPromotionPool.toNat * 262144 < uint128Size :=
    (Nat.mul_lt_mul_of_pos_right hlt (by decide)).trans (by decide)
  rw [(uint128OfInt_amount h.nonneg h.inRange).1, uint128Mul, Nat.mod_eq_of_lt hsmall, uint128Div,
    if_neg h.period, releasedPerBlock]

theorem WellFunded.scaled_lt (h : WellFunded g e) :
    e.initialPromotionPool.toNat * 262144 < 2417851639229258349412352 := by
  have hlt := h.pool_lt
  omega

theorem uint128Div_scale (scaled : ℕ) : uint128Div scaled 262144 = .ok (scaled / 262144) :=
  if_neg (Nat.succ_ne_zero _)

theorem lockedPool_of_scaled (h : WellFunded g e) {scaled : ℕ}
    (hscaled : uint128Mul (releasedPerBlock g e.initialPromotionPool.toNat)
      (uint128Sub g.coinbaseBlocks blockNumber) = scaled) :
    e.lockedPool g blockNumber = (do
      let locked ← uint128ToUint64 (scaled / 262144)
      pure (int64OfUint64 locked)) := by
  rw [lockedPool, h.perBlock, ok_bind, hscaled, uint128Div_scale, ok_bind]

/-- Up to the end of the coinbase period the lock is what is not released yet; where every block
releases less than a unit, nothing is ever locked. -/
theorem lockedPool_eq (h : WellFunded g e)
    (hblock : blockNumber ≤ g.coinbaseBlocks ∨
      releasedPerBlock g e.initialPromotionPool.toNat = 0) :
    e.lockedPool g blockNumber = .ok (lockedAmount g e.initialPromotionPool.toNat blockNumber) := by
  have hscaled : uint128Mul (releasedPerBlock g e.initialPromotionPool.toNat)
      (uint128Sub g.coinbaseBlocks blockNumber) =
        releasedPerBlock g e.initialPromotionPool.toNat * (g.coinbaseBlocks - blockNumber) := by
    by_cases hreleased : releasedPerBlock g e.initialPromotionPool.toNat = 0
    · simp [uint128Mul, hreleased]
    · have hle := hblock.resolve_right hreleased
      have hblocks := coinbaseBlocks_lt g
      have hsub : uint128Sub g.coinbaseBlocks blockNumber = g.coinbaseBlocks - blockNumber := by
        unfold uint128Sub uint128Size
        omega
      have hproduct : releasedPerBlock g e.initialPromotionPool.toNat *
          (g.coinbaseBlocks - blockNumber) ≤ e.initialPromotionPool.toNat * 262144 :=
        (Nat.mul_le_mul_left _ (Nat.sub_le _ _)).trans releasedPerBlock_mul_le
      rw [hsub, uint128Mul, Nat.mod_eq_of_lt]
      exact (hproduct.trans_lt h.scaled_lt).trans (by decide)
  have hsmall : lockedAmount g e.initialPromotionPool.toNat blockNumber < 9223372036854775808 :=
    lockedAmount_le.trans_lt h.pool_lt
  rw [lockedPool_of_scaled h hscaled, ← lockedAmount, uint128ToUint64,
    if_pos (hsmall.trans (by decide))]
  simp only [bind, Except.bind, pure, Except.pure, int64OfUint64, if_pos hsmall]

/-- After the end the blocks left wrap around, and the lock has no 64-bit value. -/
theorem lockedPool_of_end (h : WellFunded g e) (hblock : g.coinbaseBlocks < blockNumber)
    (hnumber : blockNumber < 4294967296)
    (hreleased : releasedPerBlock g e.initialPromotionPool.toNat ≠ 0) :
    ∃ err, e.lockedPool g blockNumber = .error err := by
  have hblocks := coinbaseBlocks_lt g
  have hsub : uint128Sub g.coinbaseBlocks blockNumber =
      uint128Size - (blockNumber - g.coinbaseBlocks) := by
    unfold uint128Sub uint128Size
    omega
  have hperBlock : releasedPerBlock g e.initialPromotionPool.toNat < 2417851639229258349412352 :=
    (Nat.div_le_self _ _).trans_lt h.scaled_lt
  have hgap : releasedPerBlock g e.initialPromotionPool.toNat * (blockNumber - g.coinbaseBlocks) <
      2417851639229258349412352 * 4294967296 :=
    Nat.mul_lt_mul'' hperBlock (by omega)
  have hgap0 : 0 < releasedPerBlock g e.initialPromotionPool.toNat *
      (blockNumber - g.coinbaseBlocks) :=
    Nat.mul_pos (Nat.pos_of_ne_zero hreleased) (Nat.sub_pos_of_lt hblock)
  -- The product is that many units short of a multiple of `2 ^ 128`.
  have hscaled : uint128Mul (releasedPerBlock g e.initialPromotionPool.toNat)
      (uint128Sub g.coinbaseBlocks blockNumber) =
        uint128Size - releasedPerBlock g e.initialPromotionPool.toNat *
          (blockNumber - g.coinbaseBlocks) := by
    have hdifference : blockNumber - g.coinbaseBlocks ≤ uint128Size := by
      unfold uint128Size
      omega
    have hsplit : releasedPerBlock g e.initialPromotionPool.toNat *
        (uint128Size - (blockNumber - g.coinbaseBlocks)) =
          (uint128Size - releasedPerBlock g e.initialPromotionPool.toNat *
            (blockNumber - g.coinbaseBlocks)) +
          uint128Size * (releasedPerBlock g e.initialPromotionPool.toNat - 1) := by
      obtain ⟨released, hsucc⟩ := Nat.exists_eq_succ_of_ne_zero hreleased
      rw [hsucc] at hgap ⊢
      rw [Nat.mul_sub, Nat.succ_sub_one, Nat.succ_mul released uint128Size,
        Nat.mul_comm released uint128Size]
      unfold uint128Size at *
      omega
    rw [hsub, uint128Mul, hsplit, Nat.add_mul_mod_self_left, Nat.mod_eq_of_lt]
    exact Nat.sub_lt (by decide) hgap0
  have hlarge : ¬ (uint128Size - releasedPerBlock g e.initialPromotionPool.toNat *
      (blockNumber - g.coinbaseBlocks)) / 262144 < 18446744073709551616 := by
    unfold uint128Size
    omega
  refine ⟨.assertion "hi == 0", ?_⟩
  rw [lockedPool_of_scaled h hscaled, uint128ToUint64, if_neg hlarge]
  rfl

theorem WellFunded.lockedPool_eq_ok (h : WellFunded g e) (hnumber : blockNumber < 4294967296)
    {locked : ShareType} (hlocked : e.lockedPool g blockNumber = .ok locked) :
    locked = lockedAmount g e.initialPromotionPool.toNat blockNumber ∧
      (blockNumber ≤ g.coinbaseBlocks ∨
        e.initialPromotionPool.toNat * 262144 < g.coinbaseBlocks) := by
  rw [← releasedPerBlock_eq_zero_iff h.period]
  by_cases hblock : blockNumber ≤ g.coinbaseBlocks ∨
      releasedPerBlock g e.initialPromotionPool.toNat = 0
  · rw [lockedPool_eq h hblock] at hlocked
    exact ⟨(Except.ok.inj hlocked).symm, hblock⟩
  · rw [not_or, not_le] at hblock
    obtain ⟨err, herror⟩ := lockedPool_of_end h hblock.1 hnumber hblock.2
    rw [herror] at hlocked
    cases hlocked

/-! ## Calls -/

/-- A fee adds to the promotion pool. -/
theorem addFee_promotionPool {fee : ShareType} (hburn : g.burnFeePercentage ≤ 10000)
    (hfee : 0 ≤ fee) (h : e.addFee g fee = .ok e') :
    e'.initialPromotionPool = e.initialPromotionPool ∧ e.promotionPool ≤ e'.promotionPool ∧
      e'.promotionPool ≤ int64Max := by
  simp only [addFee, safeAdd, safeSub, safeMul, bind_eq_ok, checked_eq_ok, pure_eq_ok] at h
  obtain ⟨burned, ⟨_, rfl⟩, toBurn, hburned, rest, ⟨_, rfl⟩, _, _, toMining, _, promoted,
    ⟨_, rfl⟩, toPromotion, hpromoted, _, _, _, ⟨hrange, rfl⟩, _, _, _, _, _, _, _, _, rfl⟩ := h
  have htoBurn : toBurn ≤ fee := by
    rw [(safeDiv_eq_ok hburned).2, Int.tdiv_eq_ediv_of_nonneg
      (Int.mul_nonneg hfee (Int.natCast_nonneg _))]
    apply Int.ediv_le_of_le_mul (by decide)
    exact Int.mul_le_mul_of_nonneg_left (by exact_mod_cast hburn) hfee
  have htoPromotion : 0 ≤ toPromotion := by
    rw [(safeDiv_eq_ok hpromoted).2]
    apply Int.tdiv_nonneg
    · exact Int.mul_nonneg (sub_nonneg.2 htoBurn) (Int.natCast_nonneg _)
    · decide
  exact ⟨rfl, le_add_of_nonneg_right htoPromotion, hrange.2⟩

/-- A withdrawal leaves what is locked at its block. -/
theorem withdrawFromPromotionPool_locked {amount withdrawn : ShareType}
    (h : e.withdrawFromPromotionPool g amount blockNumber = .ok (e', withdrawn)) :
    e'.initialPromotionPool = e.initialPromotionPool ∧ e'.promotionPool ≤ int64Max ∧
      ∃ locked, e.lockedPool g blockNumber = .ok locked ∧ locked ≤ e'.promotionPool := by
  simp only [withdrawFromPromotionPool, getAvailablePromotionPool_eq, safeSub, bind_eq_ok,
    checked_eq_ok, fcAssert_eq_ok, pure_eq_ok, Prod.mk.injEq] at h
  obtain ⟨free, ⟨locked, hlocked, _, _, _, rfl⟩, _, ⟨hrange, rfl⟩, _, _, rfl, _⟩ := h
  refine ⟨rfl, hrange.2, locked, hlocked, ?_⟩
  have hmin : min (e.promotionPool - locked) amount ≤ e.promotionPool - locked := min_le_left _ _
  exact le_sub_comm.1 hmin

/-- Calls of `add_fee` and `withdraw_from_promotion_pool` at block numbers that do not go back. A
call that throws changes nothing. -/
inductive PoolRun (g : GenesisState) (e₀ : EconomicModel) : ℕ → EconomicModel → Prop
  | start : PoolRun g e₀ 0 e₀
  | addFee {blockNumber : ℕ} {e e' : EconomicModel} {fee : ShareType}
      (h : PoolRun g e₀ blockNumber e) (hburn : g.burnFeePercentage ≤ 10000) (hfee : 0 ≤ fee)
      (hcall : e.addFee g fee = .ok e') : PoolRun g e₀ blockNumber e'
  | withdraw {blockNumber later : ℕ} {e e' : EconomicModel} {amount withdrawn : ShareType}
      (h : PoolRun g e₀ blockNumber e) (hlater : blockNumber ≤ later) (hnumber : later < 4294967296)
      (hcall : e.withdrawFromPromotionPool g amount later = .ok (e', withdrawn)) :
      PoolRun g e₀ later e'

/-- What is locked at a block is in the pool. -/
structure CoversLock (g : GenesisState) (initialPool : ShareType) (blockNumber : ℕ)
    (e : EconomicModel) : Prop where
  initial : e.initialPromotionPool = initialPool
  covered : (lockedAmount g initialPool.toNat blockNumber : ℤ) ≤ e.promotionPool
  inRange : e.promotionPool ≤ int64Max

theorem CoversLock.later {later : ℕ} {pool : ShareType} (h : CoversLock g pool blockNumber e)
    (hle : blockNumber ≤ later) : CoversLock g pool later e := by
  refine ⟨h.initial, le_trans ?_ h.covered, h.inRange⟩
  exact_mod_cast lockedAmount_antitone hle

theorem PoolRun.coversLock {e₀ : EconomicModel} (hfunded : WellFunded g e₀)
    (hstart : e₀.promotionPool = e₀.initialPromotionPool) (h : PoolRun g e₀ blockNumber e) :
    CoversLock g e₀.initialPromotionPool blockNumber e := by
  induction h with
  | start =>
    refine ⟨rfl, ?_, hstart ▸ hfunded.inRange⟩
    rw [hstart, ← Int.toNat_of_nonneg hfunded.nonneg]
    exact_mod_cast lockedAmount_le
  | addFee _ hburn hfee hcall ih =>
    obtain ⟨hinitial, hle, hrange⟩ := addFee_promotionPool hburn hfee hcall
    exact ⟨hinitial.trans ih.initial, ih.covered.trans hle, hrange⟩
  | @withdraw _ later e e' _ _ _ _ hnumber hcall ih =>
    obtain ⟨hinitial, hrange, locked, hlocked, hleft⟩ := withdrawFromPromotionPool_locked hcall
    have he : WellFunded g e :=
      ⟨ih.initial ▸ hfunded.nonneg, ih.initial ▸ hfunded.inRange, hfunded.period⟩
    have hamount := (he.lockedPool_eq_ok hnumber hlocked).1
    rw [ih.initial] at hamount
    exact ⟨hinitial.trans ih.initial, hamount ▸ hleft, hrange⟩

/-! ## The lock over runs -/

/-- At a block the lock can be computed and is in the pool, the rest is available, and after the
coinbase period that is the whole pool. -/
def Opens (g : GenesisState) (e : EconomicModel) (blockNumber : ℕ) : Prop :=
  ∃ locked, e.lockedPool g blockNumber = .ok locked ∧ locked ≤ e.promotionPool ∧
    e.getAvailablePromotionPool g blockNumber = .ok (e.promotionPool - locked) ∧
    (g.coinbaseBlocks ≤ blockNumber → locked = 0)

/-- In a run of calls the pool opens up to the end of the coinbase period, and after it where every
block releases less than a unit; and the lock never increases. -/
theorem promotion_pool_opens_iff {e₀ : EconomicModel} (hfunded : WellFunded g e₀)
    (hstart : e₀.promotionPool = e₀.initialPromotionPool) (h : PoolRun g e₀ blockNumber e) :
    (∀ later, blockNumber ≤ later → later < 4294967296 →
      (Opens g e later ↔ later ≤ g.coinbaseBlocks ∨
        e₀.initialPromotionPool.toNat * 262144 < g.coinbaseBlocks)) ∧
    ∀ first later locked locked', first ≤ later → later < 4294967296 →
      e.lockedPool g first = .ok locked → e.lockedPool g later = .ok locked' →
        locked' ≤ locked := by
  have hcovers := h.coversLock hfunded hstart
  have he : WellFunded g e := ⟨hcovers.initial ▸ hfunded.nonneg,
    hcovers.initial ▸ hfunded.inRange, hfunded.period⟩
  refine ⟨fun later hlater hnumber ↦ ⟨?_, fun hblock ↦ ?_⟩, fun first later locked locked' hle
    hnumber hfirst hlater ↦ ?_⟩
  · rintro ⟨locked, hlocked, _⟩
    rw [← hcovers.initial]
    exact (he.lockedPool_eq_ok hnumber hlocked).2
  · rw [← hcovers.initial, ← releasedPerBlock_eq_zero_iff hfunded.period] at hblock
    have hlocked := lockedPool_eq he hblock
    have hcovered := (hcovers.later hlater).covered
    rw [← hcovers.initial] at hcovered
    refine ⟨_, hlocked, hcovered, ?_, fun hend ↦ ?_⟩
    · have hrange : int64Min ≤ e.promotionPool -
            (lockedAmount g e.initialPromotionPool.toNat later : ℤ) ∧
          e.promotionPool - (lockedAmount g e.initialPromotionPool.toNat later : ℤ) ≤ int64Max :=
        ⟨le_trans (by decide) (sub_nonneg.2 hcovered),
          (sub_le_self _ (Int.natCast_nonneg _)).trans hcovers.inRange⟩
      rw [getAvailablePromotionPool_eq, hlocked]
      simp only [bind, Except.bind, fcAssert, if_pos hcovered, safeSub, checked, if_pos hrange]
    · rw [lockedAmount_of_end hend, Nat.cast_zero]
  · rw [(he.lockedPool_eq_ok (hle.trans_lt hnumber) hfirst).1,
      (he.lockedPool_eq_ok hnumber hlater).1]
    exact_mod_cast lockedAmount_antitone hle

/-- A fee and a withdrawal, and then all that is left at the end of the coinbase period. -/
theorem promotion_pool_opens_at_end :
    ∃ e₀ e₁ e withdrawn, initEconomics devGenesis 350 20350 = .ok e₀ ∧
      e₀.addFee devGenesis 1000 = .ok e₁ ∧
      e₁.withdrawFromPromotionPool devGenesis 500 1000 = .ok (e, withdrawn) ∧
      Opens devGenesis e devGenesis.coinbaseBlocks := by
  have hok : okAnd (initEconomics devGenesis 350 20350) (fun e₀ ↦
      decide (0 ≤ e₀.initialPromotionPool ∧ e₀.initialPromotionPool ≤ int64Max ∧
        e₀.promotionPool = e₀.initialPromotionPool) &&
      okAnd (e₀.addFee devGenesis 1000) fun e₁ ↦
        okAnd (e₁.withdrawFromPromotionPool devGenesis 500 1000) fun _ ↦ true) = true := by
    decide +kernel
  obtain ⟨e₀, hinit, he₀⟩ := exists_of_okAnd hok
  rw [Bool.and_eq_true, decide_eq_true_eq] at he₀
  obtain ⟨⟨hnonneg, hrange, hstart⟩, he₀⟩ := he₀
  obtain ⟨e₁, hfee, he₁⟩ := exists_of_okAnd he₀
  obtain ⟨⟨e, withdrawn⟩, hwithdraw, _⟩ := exists_of_okAnd he₁
  have hrun : PoolRun devGenesis e₀ 1000 e :=
    .withdraw (.addFee .start (by decide) (by decide) hfee) (by decide) (by decide) hwithdraw
  have hopens := (promotion_pool_opens_iff ⟨hnonneg, hrange, by decide +kernel⟩ hstart hrun).1
    devGenesis.coinbaseBlocks (by decide +kernel) (coinbaseBlocks_lt devGenesis)
  exact ⟨e₀, e₁, e, withdrawn, hinit, hfee, hwithdraw, hopens.2 (.inl le_rfl)⟩

/-- In the block after the coinbase period the pool is closed for good. -/
theorem promotion_pool_closed_after_end :
    ∃ e₀, initEconomics devGenesis 350 20350 = .ok e₀ ∧ PoolRun devGenesis e₀ 0 e₀ ∧
      e₀.promotionPool = 2000 ∧
      e₀.getAvailablePromotionPool devGenesis (devGenesis.coinbaseBlocks + 1) =
        .error (.assertion "hi == 0") := by
  have hok : okAnd (initEconomics devGenesis 350 20350) (fun e₀ ↦
      decide (e₀.promotionPool = 2000 ∧
        errorOf (e₀.getAvailablePromotionPool devGenesis (devGenesis.coinbaseBlocks + 1)) =
          some (.assertion "hi == 0"))) = true := by
    decide +kernel
  obtain ⟨e₀, hinit, he₀⟩ := exists_of_okAnd hok
  obtain ⟨hpool, herror⟩ := of_decide_eq_true he₀
  exact ⟨e₀, hinit, .start, hpool, eq_error_of_errorOf herror⟩

end EconomicModel

end SophiaTX.Chain
