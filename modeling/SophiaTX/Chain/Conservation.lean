import SophiaTX.Chain.Moves

/-!
# Effect of moves on the books

Each move has a fixed effect on three balances: the supply against what backs it, the recorded
total of vesting shares against the accounts' own, and the supply together with the pools. A run
of moves has the sum of their effects.
-/

namespace SophiaTX.Chain

open SophiaTX.Protocol SophiaTX.Lib

namespace Database

/-! ## The three balances -/

/-- The supply less everything that backs it. -/
def supplyGap (s : Database) : ShareType :=
  s.dgp.currentSupply - s.accountBalances - s.accountVestingShares - s.escrowBalances

/-- The recorded total of vesting shares less the accounts' own. -/
def vestingGap (s : Database) : ShareType := s.dgp.totalVestingShares - s.accountVestingShares

/-- The supply and the pools together. -/
def supplyAndPools (s : Database) : ShareType := s.dgp.currentSupply + s.economics.poolTotal

def gaps (s : Database) : ShareType × ShareType × ShareType :=
  (s.supplyGap, s.vestingGap, s.supplyAndPools)

end Database

/-- Effect of a move on the three balances. -/
def Move.effect : Move → ShareType × ShareType × ShareType
  | adjustBalance _ amount => (-amount, 0, 0)
  | createVesting _ amount => (-amount, -amount, 0)
  | adjustSupply amount => (amount, 0, amount)
  | mintVesting amount => (amount, amount, amount)
  | changePools amount => (0, 0, amount)
  | createEscrow _ e => (-e.total, 0, 0)
  | changeEscrow _ e e' => (e.total - e'.total, 0, 0)
  | removeEscrow _ e => (e.total, 0, 0)
  | payInterest _ amount => (-amount, 0, -amount)
  | burnVesting amount => (amount, 0, 0)
  | _ => 0

theorem SameMoney.gaps_eq {s s' : Database} (h : SameMoney s s') : s'.gaps = s.gaps := by
  have hbalances : s'.accountBalances = s.accountBalances :=
    h.accounts.sum_eq (fun _ a ↦ a.balance) fun _ _ ↦ rfl
  have hvesting : s'.accountVestingShares = s.accountVestingShares :=
    h.accounts.sum_eq (fun _ a ↦ a.vestingShares) fun _ _ ↦ rfl
  simp only [Database.gaps, Database.supplyGap, Database.vestingGap, Database.supplyAndPools,
    Database.escrowBalances, hbalances, hvesting, h.escrows, h.economics, h.currentSupply,
    h.totalVestingShares]

namespace Database

variable {s : Database}

/-- One account, the supply and the pools change. -/
theorem gaps_updateAccount {name : AccountName} {a : Account}
    (ha : s.accounts.find? name = some a) (f : Account → Account)
    (dgp : DynamicGlobalProperties) (economics : EconomicModel) :
    ({ s with dgp := dgp, economics := economics }.modifyAccount name f).gaps = s.gaps +
      (dgp.currentSupply - s.dgp.currentSupply - ((f a).total - a.total),
        dgp.totalVestingShares - s.dgp.totalVestingShares - ((f a).vestingShares - a.vestingShares),
        dgp.currentSupply - s.dgp.currentSupply +
          (economics.poolTotal - s.economics.poolTotal)) := by
  simp only [gaps, supplyGap, vestingGap, supplyAndPools, accountBalances, accountVestingShares,
    escrowBalances, modifyAccount, Table.sum_modify ha, AccountHoldings.total, Prod.mk_add_mk,
    Prod.mk.injEq]
  refine ⟨?_, ?_, ?_⟩ <;> ring

/-- The supply and the pools change. -/
theorem gaps_updateSupply (s : Database) (dgp : DynamicGlobalProperties)
    (economics : EconomicModel) :
    { s with dgp := dgp, economics := economics }.gaps = s.gaps +
      (dgp.currentSupply - s.dgp.currentSupply,
        dgp.totalVestingShares - s.dgp.totalVestingShares,
        dgp.currentSupply - s.dgp.currentSupply +
          (economics.poolTotal - s.economics.poolTotal)) := by
  simp only [gaps, supplyGap, vestingGap, supplyAndPools, accountBalances, accountVestingShares,
    escrowBalances, Prod.mk_add_mk, Prod.mk.injEq]
  refine ⟨?_, ?_, ?_⟩ <;> ring

theorem gaps_updateEscrows (s : Database) (escrows : Table (AccountName × ℕ) Escrow) :
    { s with escrows := escrows }.gaps = s.gaps +
      (s.escrowBalances - escrows.sum fun _ e ↦ e.total, 0, 0) := by
  simp only [gaps, supplyGap, vestingGap, supplyAndPools, accountBalances, accountVestingShares,
    escrowBalances, Escrow.total, Prod.mk_add_mk, Prod.mk.injEq]
  refine ⟨?_, ?_, ?_⟩ <;> ring

end Database

theorem Move.Direct.gaps_eq {s t : Database} {m : Move} (h : m.Direct s t) :
    t.gaps = s.gaps + m.effect := by
  cases m with
  | adjustBalance account amount =>
    obtain ⟨a, ha, _, rfl⟩ := h
    refine (Database.gaps_updateAccount ha _ s.dgp s.economics).trans ?_
    simp [Account.credit, AccountHoldings.total, effect]
  | createVesting account amount =>
    obtain ⟨a, ha, _, rfl⟩ := h
    refine (Database.gaps_updateAccount ha _ s.dgp s.economics).trans ?_
    simp [Account.credit, AccountHoldings.total, effect]
  | vest account amount =>
    obtain ⟨a, ha, _, _, rfl⟩ := h
    refine (Database.gaps_updateAccount ha _ _ s.economics).trans ?_
    simp [AccountHoldings.total, effect]
  | adjustSupply amount =>
    obtain ⟨_, rfl⟩ := h
    refine (Database.gaps_updateSupply s _ s.economics).trans ?_
    simp [effect]
  | mintVesting amount =>
    obtain ⟨_, rfl⟩ := h
    refine (Database.gaps_updateSupply s _ s.economics).trans ?_
    simp [effect]
  | changePools amount =>
    obtain ⟨economics, hpools, _, rfl⟩ := h
    refine (Database.gaps_updateSupply s s.dgp economics).trans ?_
    simp [effect, hpools]
  | createEscrow key e =>
    obtain ⟨escrows, _, _, hescrows, rfl⟩ := h
    rw [Database.gaps_updateEscrows, Table.sum_emplace? hescrows]
    simp [effect, Database.escrowBalances, Escrow.total]
  | changeEscrow key e e' =>
    obtain ⟨he, _, _, rfl⟩ := h
    refine (Database.gaps_updateEscrows s _).trans ?_
    rw [Table.sum_modify he]
    simp [effect, Database.escrowBalances, Escrow.total]
  | removeEscrow key e =>
    obtain ⟨he, rfl⟩ := h
    rw [Database.gaps_updateEscrows, Table.sum_erase he]
    simp [effect, Database.escrowBalances, Escrow.total]
  | createAccount name =>
    obtain ⟨a, accounts, ha, haccounts, rfl⟩ := h
    have hbalance : a.balance = 0 := congrArg AccountHoldings.balance ha
    have hvesting : a.vestingShares = 0 := congrArg AccountHoldings.vestingShares ha
    simp [Database.gaps, Database.supplyGap, Database.vestingGap, Database.supplyAndPools,
      Database.accountBalances, Database.accountVestingShares, Database.escrowBalances,
      Table.sum_emplace? haccounts, hbalance, hvesting, effect]
  | setWithdrawal account amount =>
    obtain ⟨a, rate, next, ha, _, _, _, rfl⟩ := h
    refine (Database.gaps_updateAccount ha _ s.dgp s.economics).trans ?_
    simp [AccountHoldings.total, effect]
  | advanceHead num =>
    obtain ⟨id, _, rfl⟩ := h
    refine (Database.gaps_updateSupply s _ s.economics).trans ?_
    simp [effect]
  | setIrreversible num =>
    obtain rfl := h
    refine (Database.gaps_updateSupply s _ s.economics).trans ?_
    simp [effect]
  | payInterest account amount =>
    obtain ⟨a, economics, ha, _, _, hpools, _, rfl⟩ := h
    refine (Database.gaps_updateAccount ha _ s.dgp economics).trans ?_
    simp [Account.afterTurn, AccountHoldings.total, effect, hpools]
  | burnVesting amount =>
    obtain ⟨a, ha, rfl, rfl⟩ := h
    refine (Database.gaps_updateAccount ha _ _ s.economics).trans ?_
    simp [AccountHoldings.total, effect]
  | payWithdrawal account =>
    obtain ⟨a, toWithdraw, rate, next, ha, _, _, rfl⟩ := h
    refine (Database.gaps_updateAccount ha _ _ s.economics).trans ?_
    simp [AccountHoldings.total, effect]
  | recordBlock num =>
    obtain ⟨economics, heconomics, rfl⟩ := h
    refine (Database.gaps_updateSupply s s.dgp economics).trans ?_
    simp [effect, (EconomicModel.recordBlock_eq_ok heconomics).1]
  | bookkeeping | createWitness _ | changeProxy _ _ | changeVote _ _ _ | confirmBlock _ _
  | applyHardfork _ =>
    obtain rfl := h
    exact (add_zero _).symm

/-! ## What the effects rely on -/

/-- The agent's fee of an approved escrow is paid, and the accumulated supply fits 64 bits. -/
structure Sound (s : Database) : Prop where
  settled : s.escrows.Forall fun _ e ↦ e.Settled
  accumulated : s.economics.accumulatedSupply ≤ int64Max

theorem SameMoney.sound {s s' : Database} (h : SameMoney s s') (hs : Sound s) : Sound s' := by
  refine ⟨?_, ?_⟩
  · rw [h.escrows]
    exact hs.settled
  · rw [h.economics]
    exact hs.accumulated

theorem Move.Direct.sound {s t : Database} {m : Move} (h : m.Direct s t) (hs : Sound s) :
    Sound t := by
  cases m with
  | createEscrow key e =>
    obtain ⟨escrows, hfresh, _, hescrows, rfl⟩ := h
    refine ⟨hs.settled.emplace? hescrows ?_, hs.accumulated⟩
    intro happroved
    rw [hfresh] at happroved
    cases happroved
  | changeEscrow key e e' =>
    obtain ⟨he, hsettled, _, rfl⟩ := h
    exact ⟨hs.settled.modify key fun _ _ _ ↦ hsettled (hs.settled key e he), hs.accumulated⟩
  | removeEscrow key e =>
    obtain ⟨_, rfl⟩ := h
    exact ⟨hs.settled.erase key, hs.accumulated⟩
  | changePools amount =>
    obtain ⟨economics, _, hhistory, rfl⟩ := h
    exact ⟨hs.settled, hhistory.accumulatedSupply.trans_le hs.accumulated⟩
  | payInterest account amount =>
    obtain ⟨a, economics, _, _, _, _, hhistory, rfl⟩ := h
    exact ⟨hs.settled, hhistory.accumulatedSupply.trans_le hs.accumulated⟩
  | recordBlock num =>
    obtain ⟨economics, heconomics, rfl⟩ := h
    exact ⟨hs.settled, (EconomicModel.recordBlock_eq_ok heconomics).2.2.2⟩
  | adjustBalance _ _ | createVesting _ _ =>
    obtain ⟨_, _, _, rfl⟩ := h
    exact ⟨hs.settled, hs.accumulated⟩
  | vest _ _ =>
    obtain ⟨_, _, _, _, rfl⟩ := h
    exact ⟨hs.settled, hs.accumulated⟩
  | createAccount _ =>
    obtain ⟨_, _, _, _, rfl⟩ := h
    exact ⟨hs.settled, hs.accumulated⟩
  | setWithdrawal _ _ =>
    obtain ⟨_, _, _, _, _, _, _, rfl⟩ := h
    exact ⟨hs.settled, hs.accumulated⟩
  | burnVesting _ =>
    obtain ⟨_, _, _, rfl⟩ := h
    exact ⟨hs.settled, hs.accumulated⟩
  | payWithdrawal _ =>
    obtain ⟨_, _, _, _, _, _, _, rfl⟩ := h
    exact ⟨hs.settled, hs.accumulated⟩
  | adjustSupply _ | mintVesting _ =>
    obtain ⟨_, rfl⟩ := h
    exact ⟨hs.settled, hs.accumulated⟩
  | advanceHead _ =>
    obtain ⟨_, _, rfl⟩ := h
    exact ⟨hs.settled, hs.accumulated⟩
  | setIrreversible _ | bookkeeping | createWitness _
  | changeProxy _ _ | changeVote _ _ _ | confirmBlock _ _ | applyHardfork _ =>
    obtain rfl := h
    exact ⟨hs.settled, hs.accumulated⟩

theorem Move.Step.sound {g : GenesisState} {s s' : Database} {m : Move} (h : m.Step g s s')
    (hs : Sound s) : Sound s' := by
  obtain ⟨t, hdirect, hmoney⟩ := h.direct hs.accumulated
  exact hmoney.sound (hdirect.sound hs)

theorem Move.Step.gaps_eq {g : GenesisState} {s s' : Database} {m : Move} (h : m.Step g s s')
    (hs : Sound s) : s'.gaps = s.gaps + m.effect := by
  obtain ⟨t, hdirect, hmoney⟩ := h.direct hs.accumulated
  rw [hmoney.gaps_eq, hdirect.gaps_eq]

theorem Moves.sound {g : GenesisState} {s s' : Database} {ms : List Move}
    (h : Moves g s ms s') (hs : Sound s) : Sound s' :=
  h.invariant (fun _ _ _ _ hstep hs ↦ Move.Step.sound hstep hs) hs

/-- A run of moves has the sum of their effects. -/
theorem Moves.gaps_eq {g : GenesisState} {s s' : Database} {ms : List Move}
    (h : Moves g s ms s') (hs : Sound s) : s'.gaps = s.gaps + (ms.map Move.effect).sum :=
  Run.measure (I := Sound) (fun _ _ _ hstep hs ↦ Move.Step.sound hstep hs)
    (fun _ _ _ hstep hs ↦ Move.Step.gaps_eq hstep hs) h hs

end SophiaTX.Chain
