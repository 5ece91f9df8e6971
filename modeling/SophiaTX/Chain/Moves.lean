import SophiaTX.Chain.Specs

/-!
# Moves

What a step of the chain can do, said once. Every stage of a block is a run of moves: payments
between accounts, the supply and the pools, escrow bookkeeping, changes of proxies and votes, and
bookkeeping that touches neither.
-/

namespace SophiaTX.Chain

open SophiaTX.Protocol SophiaTX.Lib

def Escrow.total (e : Escrow) : ShareType := e.sophiatxBalance.amount + e.pendingFee.amount

/-- The agent's fee of an approved escrow has been paid. -/
def Escrow.Settled (e : Escrow) : Prop := e.isApproved = true → e.pendingFee.amount = 0

def Escrow.NonNegative (e : Escrow) : Prop :=
  0 ≤ e.sophiatxBalance.amount ∧ 0 ≤ e.pendingFee.amount

inductive Move where
  | bookkeeping
  | adjustBalance (account : AccountName) (amount : ShareType)
  | createVesting (account : AccountName) (amount : ShareType)
  | vest (account : AccountName) (amount : ShareType)
  | adjustSupply (amount : ShareType)
  | mintVesting (amount : ShareType)
  | changePools (amount : ShareType)
  | createEscrow (key : AccountName × ℕ) (e : Escrow)
  | changeEscrow (key : AccountName × ℕ) (e e' : Escrow)
  | removeEscrow (key : AccountName × ℕ) (e : Escrow)
  | createAccount (name : AccountName)
  | createWitness (name : AccountName)
  | setWithdrawal (account : AccountName) (amount : ShareType)
  | changeProxy (account proxy : AccountName)
  | changeVote (account witness : AccountName) (approve : Bool)
  | advanceHead (num : ℕ)
  | confirmBlock (witness : AccountName) (num : ℕ)
  | setIrreversible (num : ℕ)
  | payInterest (account : AccountName) (amount : ShareType)
  | burnVesting (amount : ShareType)
  | payWithdrawal (account : AccountName)
  | applyHardfork (hardfork : ℕ)
  | recordBlock (num : ℕ)

/-- One move from a state to the next. -/
def Move.Step (g : GenesisState) (s : Database) (m : Move) (s' : Database) : Prop :=
  match m with
  | bookkeeping => Frame s s'
  | adjustBalance account amount => s.adjustBalance g account ⟨amount, g.symbol⟩ = .ok s'
  | createVesting account amount => s.createVesting account ⟨amount, vestsSymbol⟩ = .ok s'
  | vest account amount => 0 ≤ amount ∧ s.vest account amount = .ok s'
  | adjustSupply amount => s.adjustSupply g ⟨amount, g.symbol⟩ = .ok s'
  | mintVesting amount =>
    0 ≤ amount ∧ s' = { s with dgp := { s.dgp with
      currentSupply := s.dgp.currentSupply + amount
      totalVestingShares := s.dgp.totalVestingShares + amount } }
  | changePools amount =>
    s' = { s with economics := s'.economics } ∧
      s'.economics.poolTotal = s.economics.poolTotal + amount ∧
      s.economics.SameHistory s'.economics
  | createEscrow key e =>
    e.isApproved = false ∧ e.NonNegative ∧ s.escrows.emplace? key e = some s'.escrows ∧
      s' = { s with escrows := s'.escrows }
  | changeEscrow key e e' =>
    s.escrows.find? key = some e ∧ (e.Settled → e'.Settled) ∧ (e.NonNegative → e'.NonNegative) ∧
      s' = s.modifyEscrow key fun _ ↦ e'
  | removeEscrow key e =>
    s.escrows.find? key = some e ∧ s' = { s with escrows := s.escrows.erase key }
  | createAccount name =>
    ∃ a : Account, a.toAccountHoldings = (Account.fresh s.accounts.size).toAccountHoldings ∧
      s.accounts.emplace? name a = some s'.accounts ∧
      s' = { s with accounts := s'.accounts, authorities := s'.authorities }
  | createWitness name =>
    ∃ w : Witness, w.record = (0, 0) ∧ s.witnesses.emplace? name w = some s'.witnesses ∧
      s' = { s with witnesses := s'.witnesses }
  | setWithdrawal account amount =>
    s.withdrawVestingEvaluator account ⟨amount, vestsSymbol⟩ = .ok s'
  | changeProxy account proxy => s.accountWitnessProxyEvaluator account proxy = .ok s'
  | changeVote account witness approve =>
    s.accountWitnessVoteEvaluator g account witness approve = .ok s'
  | advanceHead num =>
    ∃ id : BlockId, id.num = num ∧ s'.dgp.headBlockNumber = num ∧ s'.dgp.headBlockId = id ∧
      Frame s { s' with dgp := { s'.dgp with
        headBlockNumber := s.dgp.headBlockNumber
        headBlockId := s.dgp.headBlockId } }
  | confirmBlock witness num =>
    ∃ aslot, s' = s.modifyWitness witness fun w ↦
      { w with lastAslot := aslot, lastConfirmedBlockNum := num }
  | setIrreversible num =>
    s' = { s with dgp := { s.dgp with lastIrreversibleBlockNum := num } }
  | payInterest account amount =>
    ∃ a, s.accounts.find? account = some a ∧
      a.id % interestBlocks = s.dgp.headBlockNumber % interestBlocks ∧
      s.payInterest g account a = .ok (s', amount)
  | burnVesting amount =>
    ∃ a, s.accounts.find? nullAccount = some a ∧ a.vestingShares = amount ∧
      s' = { s with dgp := { s.dgp with
        totalVestingShares := s.dgp.totalVestingShares - amount } }.modifyAccount nullAccount
          fun a ↦ { a with vestingShares := 0 }
  | payWithdrawal account =>
    ∃ a, s.accounts.find? account = some a ∧ s.processVestingWithdrawal account a = .ok s'
  | applyHardfork hardfork => s.applyHardfork g hardfork = .ok s'
  | recordBlock num => s.recordBlock num = .ok s'

/-- A run of moves. -/
abbrev Moves (g : GenesisState) : Database → List Move → Database → Prop := Run (Move.Step g)

/-- The state a move makes, up to votes. -/
def Move.Direct (s : Database) (m : Move) (t : Database) : Prop :=
  match m with
  | adjustBalance account amount =>
    ∃ a, s.accounts.find? account = some a ∧ 0 ≤ a.balance + amount ∧
      t = s.modifyAccount account fun _ ↦ a.credit amount 0 s.dgp.headBlockNumber
  | createVesting account amount =>
    ∃ a, s.accounts.find? account = some a ∧ 0 ≤ amount ∧
      t = s.modifyAccount account fun _ ↦ a.credit 0 amount s.dgp.headBlockNumber
  | vest account amount =>
    ∃ a, s.accounts.find? account = some a ∧ 0 ≤ amount ∧ amount ≤ a.balance ∧
      t = { s with dgp := { s.dgp with
        totalVestingShares := s.dgp.totalVestingShares + amount } }.modifyAccount account fun _ ↦
          { a with
            balance := a.balance - amount
            vestingShares := a.vestingShares + amount }
  | adjustSupply amount =>
    0 ≤ s.dgp.currentSupply + amount ∧
      t = { s with dgp := { s.dgp with currentSupply := s.dgp.currentSupply + amount } }
  | mintVesting amount =>
    0 ≤ amount ∧ t = { s with dgp := { s.dgp with
      currentSupply := s.dgp.currentSupply + amount
      totalVestingShares := s.dgp.totalVestingShares + amount } }
  | changePools amount =>
    ∃ economics, economics.poolTotal = s.economics.poolTotal + amount ∧
      s.economics.SameHistory economics ∧ t = { s with economics := economics }
  | createEscrow key e =>
    ∃ escrows, e.isApproved = false ∧ e.NonNegative ∧ s.escrows.emplace? key e = some escrows ∧
      t = { s with escrows := escrows }
  | changeEscrow key e e' =>
    s.escrows.find? key = some e ∧ (e.Settled → e'.Settled) ∧ (e.NonNegative → e'.NonNegative) ∧
      t = s.modifyEscrow key fun _ ↦ e'
  | removeEscrow key e =>
    s.escrows.find? key = some e ∧ t = { s with escrows := s.escrows.erase key }
  | createAccount name =>
    ∃ (a : Account) (accounts : _), a.toAccountHoldings =
      (Account.fresh s.accounts.size).toAccountHoldings ∧
      s.accounts.emplace? name a = some accounts ∧ t = { s with accounts := accounts }
  | setWithdrawal account amount =>
    ∃ a rate next, s.accounts.find? account = some a ∧ amount ≤ a.vestingShares ∧
      (amount = 0 → rate = 0) ∧
      (amount ≠ 0 → Database.vestingWithdrawRate amount = .ok rate) ∧
      t = s.modifyAccount account fun a ↦ { a with
        vestingWithdrawRate := rate
        nextVestingWithdrawal := next
        toWithdraw := amount
        withdrawn := 0 }
  | advanceHead num =>
    ∃ id : BlockId, id.num = num ∧
      t = { s with dgp := { s.dgp with headBlockNumber := num, headBlockId := id } }
  | setIrreversible num => t = { s with dgp := { s.dgp with lastIrreversibleBlockNum := num } }
  | payInterest account amount =>
    ∃ a economics, s.accounts.find? account = some a ∧ 0 ≤ amount ∧
      a.id % interestBlocks = s.dgp.headBlockNumber % interestBlocks ∧
      economics.poolTotal = s.economics.poolTotal - amount ∧ s.economics.SameHistory economics ∧
      t = { s with economics := economics }.modifyAccount account fun _ ↦ a.afterTurn amount
  | burnVesting amount =>
    ∃ a, s.accounts.find? nullAccount = some a ∧ a.vestingShares = amount ∧
      t = { s with dgp := { s.dgp with
        totalVestingShares := s.dgp.totalVestingShares - amount } }.modifyAccount nullAccount
          fun a ↦ { a with vestingShares := 0 }
  | payWithdrawal account =>
    ∃ a toWithdraw rate next, s.accounts.find? account = some a ∧
      Database.withdrawalAmount a = .ok toWithdraw ∧
      (rate = 0 ∨ rate = a.vestingWithdrawRate ∧ a.withdrawn + toWithdraw < a.toWithdraw) ∧
      t = { s with dgp := { s.dgp with
        totalVestingShares := s.dgp.totalVestingShares - toWithdraw } }.modifyAccount account
          fun _ ↦ { a with
            vestingShares := a.vestingShares - toWithdraw
            balance := a.balance + toWithdraw
            withdrawn := a.withdrawn + toWithdraw
            vestingWithdrawRate := rate
            nextVestingWithdrawal := next }
  | recordBlock num =>
    ∃ economics, s.economics.recordBlock num s.dgp.currentSupply = .ok economics ∧
      t = { s with economics := economics }
  | bookkeeping | createWitness _ | changeProxy _ _ | changeVote _ _ _ | confirmBlock _ _ |
    applyHardfork _ => t = s

/-- The escrow a move is about. -/
def Move.escrow : Move → Option (AccountName × ℕ)
  | createEscrow key _ | changeEscrow key _ _ | removeEscrow key _ => some key
  | _ => none

theorem Move.Direct.escrows_eq {s t : Database} {m : Move} (h : m.Direct s t)
    (hm : m.escrow = none) : t.escrows = s.escrows := by
  cases m with
  | createEscrow _ _ | changeEscrow _ _ _ | removeEscrow _ _ => cases hm
  | _ =>
    simp only [Move.Direct, Database.modifyAccount] at h
    grind

/-- Every move makes its direct change, and then at most moves votes. -/
theorem Move.Step.direct {g : GenesisState} {s s' : Database} {m : Move} (h : m.Step g s s')
    (hmax : s.economics.accumulatedSupply ≤ int64Max) : ∃ t, m.Direct s t ∧ SameMoney t s' := by
  cases m with
  | bookkeeping => exact ⟨s, rfl, h.sameMoney⟩
  | adjustBalance account amount =>
    obtain ⟨_, a, ha, hbalance, hvotes⟩ := Database.adjustBalance_eq_ok h
    exact ⟨_, ⟨a, ha, hbalance, rfl⟩, (Database.adjustProxiedWitnessVotes_frame hvotes).sameMoney⟩
  | createVesting account amount =>
    obtain ⟨_, hamount, a, ha, hvotes⟩ := Database.createVesting_eq_ok h
    exact ⟨_, ⟨a, ha, hamount, rfl⟩, (Database.adjustProxiedWitnessVotes_frame hvotes).sameMoney⟩
  | vest account amount =>
    obtain ⟨a, ha, hbalance, hs'⟩ := Database.vest_eq_ok h.2
    exact ⟨s', ⟨a, ha, h.1, hbalance, hs'⟩, .refl _⟩
  | adjustSupply amount => exact ⟨s', (Database.adjustSupply_eq_ok h).2, .refl _⟩
  | mintVesting amount => exact ⟨s', h, .refl _⟩
  | changePools amount => exact ⟨s', ⟨s'.economics, h.2.1, h.2.2, h.1⟩, .refl _⟩
  | createEscrow key e => exact ⟨s', ⟨s'.escrows, h⟩, .refl _⟩
  | changeEscrow key e e' => exact ⟨s', h, .refl _⟩
  | removeEscrow key e => exact ⟨s', h, .refl _⟩
  | createAccount name =>
    obtain ⟨a, hholdings, haccounts, hs'⟩ := h
    refine ⟨{ s with accounts := s'.accounts }, ⟨a, _, hholdings, haccounts, rfl⟩, ?_⟩
    rw [hs']
    exact ⟨.refl _, rfl, rfl, rfl⟩
  | createWitness name =>
    obtain ⟨w, _, _, hs'⟩ := h
    refine ⟨s, rfl, ?_⟩
    rw [hs']
    exact ⟨.refl _, rfl, rfl, rfl⟩
  | setWithdrawal account amount =>
    obtain ⟨_, hspec⟩ := Database.withdrawVestingEvaluator_eq_ok h
    exact ⟨s', hspec, .refl _⟩
  | changeProxy account proxy =>
    exact ⟨s, rfl, Database.accountWitnessProxyEvaluator_sameMoney h⟩
  | changeVote account witness approve =>
    exact ⟨s, rfl, Database.accountWitnessVoteEvaluator_sameMoney h⟩
  | advanceHead num =>
    obtain ⟨id, hid, hhead, hheadId, hframe⟩ := h
    refine ⟨_, ⟨id, hid, rfl⟩, hframe.sameMoney.accounts, hframe.escrows, hframe.economics, ?_⟩
    have hcore := hframe.dgp
    simp only [DynamicGlobalProperties.core, Prod.mk.injEq] at hcore ⊢
    simp only [hcore, hhead, hheadId, and_self]
  | confirmBlock witness num =>
    obtain ⟨aslot, hs'⟩ := h
    refine ⟨s, rfl, ?_⟩
    rw [hs']
    exact ⟨.refl _, rfl, rfl, rfl⟩
  | setIrreversible num => exact ⟨s', h, .refl _⟩
  | payInterest account amount =>
    obtain ⟨a, ha, hturn, hpay⟩ := h
    obtain ⟨hamount, economics, hpools, hhistory, hmoney⟩ :=
      Database.payInterest_money ha hmax hpay
    exact ⟨_, ⟨a, economics, ha, hamount, hturn, hpools, hhistory, rfl⟩, hmoney⟩
  | burnVesting amount => exact ⟨s', h, .refl _⟩
  | payWithdrawal account =>
    obtain ⟨a, ha, hpay⟩ := h
    obtain ⟨toWithdraw, rate, next, hspec⟩ := Database.processVestingWithdrawal_eq_ok hpay
    exact ⟨s', ⟨a, toWithdraw, rate, next, ha, hspec⟩, .refl _⟩
  | applyHardfork hardfork => exact ⟨s, rfl, Database.applyHardfork_sameMoney h⟩
  | recordBlock num => exact ⟨s', Database.recordBlock_eq_ok h, .refl _⟩

end SophiaTX.Chain
