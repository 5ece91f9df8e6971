import SophiaTX.Supply.Identity

/-!
# No negative money

Balances, vesting shares and escrow amounts stay non-negative as long as no account schedules a
withdrawal of a negative amount that leaves a remainder. `withdraw_vesting_operation::validate`
accepts such amounts, and the payout of the remainder does not look at the balance.
-/

namespace SophiaTX.Chain

open SophiaTX.Protocol SophiaTX.Lib

/-- The remainder that the first payout of a withdrawal of `amount` may be. -/
def withdrawalRemainder (amount : ShareType) : ShareType :=
  amount.tmod (if amount.tdiv vestingWithdrawIntervals = 0 then 1
    else amount.tdiv vestingWithdrawIntervals)

/-- What is scheduled on an account never takes more than its vesting shares, and never less
than nothing. -/
def AccountHoldings.WellScheduled (a : AccountHoldings) : Prop :=
  a.vestingWithdrawRate = 0 ∨ (0 ≤ a.toWithdraw ∧ 0 < a.vestingWithdrawRate) ∨
    (a.toWithdraw < 0 ∧ a.withdrawn = 0 ∧ a.toWithdraw < a.vestingWithdrawRate ∧
      a.toWithdraw.tmod a.vestingWithdrawRate = 0)

/-- An account without debts. -/
structure AccountHoldings.Solvent (a : AccountHoldings) : Prop where
  balance : 0 ≤ a.balance
  vestingShares : 0 ≤ a.vestingShares
  scheduled : a.WellScheduled

structure Solvent (s : Database) : Prop where
  accounts : s.accounts.Forall fun _ a ↦ a.toAccountHoldings.Solvent
  escrows : s.escrows.Forall fun _ e ↦ e.NonNegative

theorem AccountHoldings.solvent_iff_money (a : AccountHoldings) : a.Solvent ↔ a.money.Solvent :=
  ⟨fun h ↦ ⟨h.balance, h.vestingShares, h.scheduled⟩,
    fun h ↦ ⟨h.balance, h.vestingShares, h.scheduled⟩⟩

theorem SameMoney.solvent {s s' : Database} (h : SameMoney s s') (hs : Solvent s) :
    Solvent s' := by
  refine ⟨?_, ?_⟩
  · rw [h.accounts.forall_iff (fun _ a ↦ a.Solvent) fun _ a ↦ a.solvent_iff_money]
    exact hs.accounts
  · rw [h.escrows]
    exact hs.escrows

/-! ## Withdrawals -/

/-- A withdrawal of a non-negative amount, or one without a remainder. -/
def Harmless (amount : ShareType) : Prop := 0 ≤ amount ∨ withdrawalRemainder amount = 0

theorem lt_withdrawRate_of_neg {amount : ℤ} (hneg : amount < 0) :
    amount < if amount.tdiv vestingWithdrawIntervals = 0 then 1
      else amount.tdiv vestingWithdrawIntervals := by
  have hquotient : amount.tdiv vestingWithdrawIntervals = -(-amount / 27) := by
    rw [← Int.tdiv_eq_ediv_of_nonneg (by omega), Int.neg_tdiv, neg_neg]
    rfl
  split <;> omega

/-- The schedule the evaluator writes for a harmless amount. -/
theorem wellScheduled_of_harmless {amount rate : ℤ} (hharmless : Harmless amount)
    (hzero : amount = 0 → rate = 0)
    (hrate : amount ≠ 0 → Database.vestingWithdrawRate amount = .ok rate) :
    rate = 0 ∨ (0 ≤ amount ∧ 0 < rate) ∨ (amount < 0 ∧ amount < rate ∧ amount.tmod rate = 0) := by
  rcases eq_or_ne amount 0 with rfl | hne
  · exact .inl (hzero rfl)
  · have hrate := hrate hne
    simp only [Database.vestingWithdrawRate, bind_eq_ok, pure_eq_ok] at hrate
    obtain ⟨quotient, hquotient, rfl⟩ := hrate
    obtain ⟨_, rfl⟩ := safeDiv_eq_ok hquotient
    rcases lt_or_gt_of_ne hne with hneg | hpos
    · have hremainder := hharmless.resolve_left (not_le.2 hneg)
      exact .inr (.inr ⟨hneg, lt_withdrawRate_of_neg hneg, hremainder⟩)
    · have hquotient : 0 ≤ amount.tdiv vestingWithdrawIntervals :=
        Int.tdiv_nonneg hpos.le (by decide)
      refine .inr (.inl ⟨hpos.le, ?_⟩)
      split
      · decide
      · exact lt_of_le_of_ne hquotient (Ne.symm ‹_›)

theorem AccountHoldings.Solvent.withdrawalAmount {a : Account} {toWithdraw : ShareType}
    (ha : a.toAccountHoldings.Solvent) (h : Database.withdrawalAmount a = .ok toWithdraw) :
    0 ≤ toWithdraw ∧ toWithdraw ≤ a.vestingShares := by
  have hvesting := ha.vestingShares
  rcases Database.withdrawalAmount_eq_ok h with ⟨_, hrate, rfl⟩ | ⟨hrest, rfl⟩
  · refine ⟨le_min hvesting ?_, min_le_left _ _⟩
    rcases ha.scheduled with hzero | ⟨hamount, _⟩ | ⟨_, _, _, hremainder⟩
    · exact absurd hzero hrate
    · exact Int.tmod_nonneg _ hamount
    · exact hremainder.ge
  · refine ⟨le_min hvesting ?_, min_le_left _ _⟩
    rcases ha.scheduled with hzero | ⟨_, hpos⟩ | ⟨_, hwithdrawn, hlt, _⟩
    · exact hzero.ge
    · exact hpos.le
    · rw [hwithdrawn, sub_zero] at hrest
      exact absurd hlt (not_lt.2 hrest)

/-! ## Moves -/

theorem Move.Direct.solvent {s t : Database} {m : Move} (h : m.Direct s t)
    (hamount : ∀ account amount, m = .setWithdrawal account amount → Harmless amount)
    (hs : Solvent s) : Solvent t := by
  cases m with
  | adjustBalance account amount =>
    obtain ⟨a, ha, hbalance, rfl⟩ := h
    refine ⟨hs.accounts.modify account fun _ _ _ ↦ ?_, hs.escrows⟩
    have hsolvent := hs.accounts account a ha
    exact ⟨hbalance, by simpa [Account.credit] using hsolvent.vestingShares, hsolvent.scheduled⟩
  | createVesting account amount =>
    obtain ⟨a, ha, hamount, rfl⟩ := h
    refine ⟨hs.accounts.modify account fun _ _ _ ↦ ?_, hs.escrows⟩
    have hsolvent := hs.accounts account a ha
    exact ⟨by simpa [Account.credit] using hsolvent.balance,
      add_nonneg hsolvent.vestingShares hamount, hsolvent.scheduled⟩
  | vest account amount =>
    obtain ⟨a, ha, hamount, hbalance, rfl⟩ := h
    refine ⟨hs.accounts.modify account fun _ _ _ ↦ ?_, hs.escrows⟩
    have hsolvent := hs.accounts account a ha
    exact ⟨sub_nonneg.2 hbalance, add_nonneg hsolvent.vestingShares hamount, hsolvent.scheduled⟩
  | createEscrow key e =>
    obtain ⟨escrows, _, hnonneg, hescrows, rfl⟩ := h
    exact ⟨hs.accounts, hs.escrows.emplace? hescrows hnonneg⟩
  | changeEscrow key e e' =>
    obtain ⟨he, _, hnonneg, rfl⟩ := h
    exact ⟨hs.accounts, hs.escrows.modify key fun _ _ _ ↦ hnonneg (hs.escrows key e he)⟩
  | removeEscrow key e =>
    obtain ⟨_, rfl⟩ := h
    exact ⟨hs.accounts, hs.escrows.erase key⟩
  | createAccount name =>
    obtain ⟨a, accounts, ha, haccounts, rfl⟩ := h
    refine ⟨hs.accounts.emplace? haccounts ?_, hs.escrows⟩
    rw [ha]
    exact ⟨le_rfl, le_rfl, .inl rfl⟩
  | setWithdrawal account amount =>
    obtain ⟨a, rate, next, ha, _, hzero, hrate, rfl⟩ := h
    refine ⟨hs.accounts.modify account fun b _ hsolvent ↦ ?_, hs.escrows⟩
    refine ⟨hsolvent.balance, hsolvent.vestingShares, ?_⟩
    rcases wellScheduled_of_harmless (hamount account amount rfl) hzero hrate with
      hnone | hpos | ⟨hneg, hlt, hremainder⟩
    · exact .inl hnone
    · exact .inr (.inl hpos)
    · exact .inr (.inr ⟨hneg, rfl, hlt, hremainder⟩)
  | payInterest account amount =>
    obtain ⟨a, economics, ha, hinterest, _, _, _, rfl⟩ := h
    refine ⟨hs.accounts.modify account fun _ _ _ ↦ ?_, hs.escrows⟩
    have hsolvent := hs.accounts account a ha
    exact ⟨add_nonneg hsolvent.balance hinterest, hsolvent.vestingShares, hsolvent.scheduled⟩
  | burnVesting amount =>
    obtain ⟨_, _, _, rfl⟩ := h
    refine ⟨hs.accounts.modify nullAccount fun b _ hsolvent ↦ ?_, hs.escrows⟩
    exact ⟨hsolvent.balance, le_rfl, hsolvent.scheduled⟩
  | payWithdrawal account =>
    obtain ⟨a, toWithdraw, rate, next, ha, hpaid, hrate, rfl⟩ := h
    refine ⟨hs.accounts.modify account fun _ _ _ ↦ ?_, hs.escrows⟩
    have hsolvent := hs.accounts account a ha
    obtain ⟨hnonneg, hle⟩ := hsolvent.withdrawalAmount hpaid
    refine ⟨add_nonneg hsolvent.balance hnonneg, sub_nonneg.2 hle, ?_⟩
    rcases hrate with rfl | ⟨rfl, hmore⟩
    · exact .inl rfl
    · -- A negative withdrawal ends with its first payout.
      rcases hsolvent.scheduled with hzero | hpos | ⟨hneg, hwithdrawn, _, _⟩
      · exact .inl hzero
      · exact .inr (.inl hpos)
      · rw [hwithdrawn, zero_add] at hmore
        exact absurd (hnonneg.trans_lt (hmore.trans hneg)) (lt_irrefl _)
  | changePools amount =>
    obtain ⟨_, _, _, rfl⟩ := h
    exact ⟨hs.accounts, hs.escrows⟩
  | recordBlock num =>
    obtain ⟨_, _, rfl⟩ := h
    exact ⟨hs.accounts, hs.escrows⟩
  | adjustSupply _ | mintVesting _ =>
    obtain ⟨_, rfl⟩ := h
    exact ⟨hs.accounts, hs.escrows⟩
  | advanceHead _ =>
    obtain ⟨_, _, rfl⟩ := h
    exact ⟨hs.accounts, hs.escrows⟩
  | setIrreversible _ | bookkeeping | createWitness _
  | changeProxy _ _ | changeVote _ _ _ | confirmBlock _ _ | applyHardfork _ =>
    obtain rfl := h
    exact ⟨hs.accounts, hs.escrows⟩

/-- Every withdrawal that a stage schedules is harmless. -/
def HarmlessWithdrawal (_ : Database) (stage : Stage) : Prop :=
  ∀ trx op account vestingShares, stage = .operation trx op →
    op.op = .withdrawVesting account vestingShares → Harmless vestingShares.amount

theorem Explained.solvent {g : GenesisState} {stage : Stage} {s s' : Database}
    {effect : ShareType × ShareType × ShareType} (h : Explained g stage effect s s')
    (hstage : HarmlessWithdrawal s stage) (hs : Sound s) (hsolvent : Solvent s) : Solvent s' := by
  obtain ⟨ms, hms, hallowed, _⟩ := h
  refine (hms.invariant (I := fun s ↦ Sound s ∧ Solvent s) ?_ ⟨hs, hsolvent⟩).2
  rintro s₁ m s₂ hm hstep ⟨hs₁, hsolvent₁⟩
  refine ⟨Move.Step.sound hstep hs₁, ?_⟩
  obtain ⟨t, hdirect, hmoney⟩ := Move.Step.direct hstep hs₁.accumulated
  refine hmoney.solvent (hdirect.solvent ?_ hsolvent₁)
  rintro account amount rfl
  obtain ⟨trx, op, hoperation, hop⟩ := hallowed _ hm
  exact hstage trx op account _ hoperation hop

theorem GenesisBooks.solvent {g : GenesisState} {s : Database} (h : GenesisBooks g s)
    (hbalance : 0 ≤ g.initialBalance) (haccounts : ∀ acc ∈ g.initialAccounts, 0 ≤ acc.balance) :
    Solvent s := by
  refine ⟨?_, ?_⟩
  · intro name a ha
    obtain ⟨balance, hgrant, hholdings⟩ := h.rows name a ha
    have hnonneg : 0 ≤ balance := by
      rcases hgrant with rfl | rfl | ⟨acc, hacc, rfl⟩
      · exact le_rfl
      · exact hbalance
      · exact haccounts acc hacc
    rw [hholdings]
    exact ⟨hnonneg, le_rfl, .inl rfl⟩
  · rw [h.escrows]
    exact fun _ _ h ↦ (by cases h)

/-- No balance, no vesting shares and no escrow amount is negative in a run whose withdrawals are
harmless. -/
theorem no_negative_money {ctx : Context} (hskip : ctx.skip.validate = false) {s₀ s : Database}
    {pending : Option (List Stage)} (hgenesis : initGenesis ctx.genesis = .ok s₀)
    (hbalance : 0 ≤ ctx.genesis.initialBalance)
    (haccounts : ∀ acc ∈ ctx.genesis.initialAccounts, 0 ≤ acc.balance)
    (h : RunsFrom ctx HarmlessWithdrawal s₀ pending s) :
    (∀ name a, s.accounts.find? name = some a → 0 ≤ a.balance ∧ 0 ≤ a.vestingShares) ∧
      ∀ key e, s.escrows.find? key = some e →
        0 ≤ e.sophiatxBalance.amount ∧ 0 ≤ e.pendingFee.amount := by
  have hs₀ := initGenesis_books hgenesis
  have hinvariant := h.invariant (I := fun s ↦ Sound s ∧ Solvent s) hskip ?_
    ⟨hs₀.sound, hs₀.solvent hbalance haccounts⟩
  · refine ⟨fun name a ha ↦ ?_, hinvariant.2.escrows⟩
    exact ⟨(hinvariant.2.accounts name a ha).balance,
      (hinvariant.2.accounts name a ha).vestingShares⟩
  · rintro s stage s' hharmless hvalid hrun ⟨hs, hsolvent⟩
    exact ⟨Stage.sound hs hvalid hrun,
      (Stage.explained hs hvalid hrun).solvent hharmless hs hsolvent⟩

theorem no_negative_money_after_transfer :
    ∃ s₀ s, initGenesis devGenesis = .ok s₀ ∧
      applyBlock (devContext devGenesis) s₀ (transferBlock initMinerName) = .ok s ∧
      ((∀ name a, s.accounts.find? name = some a → 0 ≤ a.balance ∧ 0 ≤ a.vestingShares) ∧
        ∀ key e, s.escrows.find? key = some e →
          0 ≤ e.sophiatxBalance.amount ∧ 0 ≤ e.pendingFee.amount) := by
  have hok : okAnd (initGenesis devGenesis) (fun s₀ ↦ okAnd (applyBlock (devContext devGenesis) s₀
      (transferBlock initMinerName)) fun _ ↦ true) = true := by decide +kernel
  obtain ⟨s₀, hgenesis, hs₀⟩ := exists_of_okAnd hok
  obtain ⟨s, hblock, _⟩ := exists_of_okAnd hs₀
  refine ⟨s₀, s, hgenesis, hblock, no_negative_money rfl hgenesis (by decide) (by decide)
    (RunsFrom.refl.applyBlock ?_ hblock)⟩
  rintro stage hmem s trx op account vestingShares rfl hop
  obtain ⟨_, rfl⟩ : trx = _ ∧ op = _ := by
    simpa [SignedBlock.stages, SignedBlock.stagesBeforeCommit, SignedBlock.stagesAfterCommit,
      transferBlock, devBlock, devTransaction, transactionStages] using hmem
  cases hop

/-! ## A negative withdrawal -/

/-- The hourly network with an account that holds nothing. -/
def pennilessGenesis : GenesisState :=
  { hourlyGenesis with initialBalance := 350, initialAccounts := [⟨1000, 8, 0⟩] }

/-- The penniless account withdraws -100 vesting shares. A day later it is paid the remainder of
-100 by the daily rate of -3. -/
def negativeWithdrawal : List SignedBlock :=
  let first := devBlock .null 1531515600
    [devTransaction 1531516000 8 (.withdrawVesting 1000 ⟨-100, vestsSymbol⟩)]
  [first, devBlock (devEnv.blockId first) 1531598400 []]

theorem negative_balance_after_withdrawal :
    ∃ s a, (initGenesis pennilessGenesis >>= fun s₀ ↦
        applyBlocks (devContext pennilessGenesis) s₀ negativeWithdrawal) = .ok s ∧
      Reachable (devContext pennilessGenesis) s ∧ s.accounts.find? 1000 = some a ∧
      a.balance = -1 := by
  have hok : okAnd (initGenesis pennilessGenesis) (fun s₀ ↦
      okAnd (applyBlocks (devContext pennilessGenesis) s₀ negativeWithdrawal) fun s ↦
        decide ((s.accounts.find? 1000).map (fun a ↦ a.balance) = some (-1))) = true := by
    decide +kernel
  obtain ⟨s₀, hgenesis, hs₀⟩ := exists_of_okAnd hok
  obtain ⟨s, hblocks, hbalance⟩ := exists_of_okAnd hs₀
  obtain ⟨a, ha, hnegative⟩ := Option.map_eq_some_iff.1 (of_decide_eq_true hbalance)
  exact ⟨s, a, bind_eq_ok.2 ⟨s₀, hgenesis, hblocks⟩,
    ⟨s₀, none, hgenesis, RunsFrom.refl.applyBlocks (fun _ _ _ _ _ ↦ trivial) hblocks⟩, ha,
    hnegative⟩

end SophiaTX.Chain
