import Mathlib.Algebra.Notation.Pi.Basic
import SophiaTX.Chain.Frames

/-!
# What the payment functions do

One lemma for each function that moves money: what it checked, and the account row it wrote.
The propagation of votes that may follow is left as a frame.
-/

namespace SophiaTX.Chain

open SophiaTX.Protocol SophiaTX.Lib

theorem Account.updateConsideredHolding_eq_ok {a a' : Account} {inserted : ShareType}
    {blockNo : ℕ} (h : a.updateConsideredHolding inserted blockNo = .ok a') :
    a' = { a with holdingsConsideredForInterests :=
      a.holdingsConsideredForInterests + inserted * a.toMyTurn blockNo } := by
  simp only [updateConsideredHolding, safeMul, safeAdd, bind_eq_ok, checked_eq_ok, pure_eq_ok] at h
  obtain ⟨_, ⟨_, rfl⟩, _, ⟨_, rfl⟩, rfl⟩ := h
  rfl

/-- An account that holds `balance` more liquid and `vesting` more vesting shares. -/
def Account.credit (a : Account) (balance vesting : ShareType) (blockNo : ℕ) : Account :=
  { a with
    balance := a.balance + balance
    vestingShares := a.vestingShares + vesting
    holdingsConsideredForInterests :=
      a.holdingsConsideredForInterests + (balance + vesting) * a.toMyTurn blockNo }

/-- An account after its turn in the interest period. -/
def Account.afterTurn (a : Account) (interest : ShareType) : Account :=
  { a with
    balance := a.balance + interest
    holdingsConsideredForInterests :=
      (a.balance + interest + a.vestingShares) * interestBlocks }

namespace Database

variable {g : GenesisState} {s s' : Database}

theorem adjustBalance_eq_ok {account : AccountName} {delta : Asset}
    (h : s.adjustBalance g account delta = .ok s') :
    delta.symbol = g.symbol ∧ ∃ a, s.accounts.find? account = some a ∧
      0 ≤ a.balance + delta.amount ∧
      (s.modifyAccount account fun _ ↦
        a.credit delta.amount 0 s.dgp.headBlockNumber).adjustProxiedWitnessVotes account
          delta.amount = .ok s' := by
  simp only [adjustBalance, getAccount, safeAdd, bind_eq_ok, orUnknownKey_eq_ok, fcAssert_eq_ok,
    checked_eq_ok] at h
  obtain ⟨a, ha, _, hsymbol, balance, ⟨_, rfl⟩, a', hupdate, _, hbalance, h⟩ := h
  rw [Account.updateConsideredHolding_eq_ok hupdate] at h
  refine ⟨hsymbol, a, ha, hbalance, ?_⟩
  simpa only [Account.credit, AccountHoldings.toMyTurn, add_zero] using h

theorem adjustBalance_escrows {account : AccountName} {delta : Asset}
    (h : s.adjustBalance g account delta = .ok s') : s'.escrows = s.escrows := by
  obtain ⟨_, _, _, _, hvotes⟩ := adjustBalance_eq_ok h
  exact (adjustProxiedWitnessVotes_frame hvotes).sameMoney.escrows

theorem createVesting_eq_ok {account : AccountName} {delta : Asset}
    (h : s.createVesting account delta = .ok s') :
    delta.symbol = vestsSymbol ∧ 0 ≤ delta.amount ∧ ∃ a, s.accounts.find? account = some a ∧
      (s.modifyAccount account fun _ ↦
        a.credit 0 delta.amount s.dgp.headBlockNumber).adjustProxiedWitnessVotes account
          delta.amount = .ok s' := by
  simp only [createVesting, getAccount, safeAdd, bind_eq_ok, orUnknownKey_eq_ok, fcAssert_eq_ok,
    checked_eq_ok] at h
  obtain ⟨a, ha, _, hsymbol, _, hamount, _, ⟨_, rfl⟩, a', hupdate, h⟩ := h
  rw [Account.updateConsideredHolding_eq_ok hupdate] at h
  refine ⟨hsymbol, hamount, a, ha, ?_⟩
  simpa only [Account.credit, AccountHoldings.toMyTurn, zero_add, add_zero] using h

theorem vest_eq_ok {account : AccountName} {delta : ShareType}
    (h : s.vest account delta = .ok s') :
    ∃ a, s.accounts.find? account = some a ∧ delta ≤ a.balance ∧
      s' = { s with dgp := { s.dgp with
        totalVestingShares := s.dgp.totalVestingShares + delta } }.modifyAccount account fun _ ↦
          { a with
            balance := a.balance - delta
            vestingShares := a.vestingShares + delta } := by
  simp only [vest, getAccount, safeAdd, safeSub, bind_eq_ok, orUnknownKey_eq_ok, fcAssert_eq_ok,
    checked_eq_ok, pure_eq_ok] at h
  obtain ⟨a, ha, _, hdelta, _, ⟨_, rfl⟩, _, ⟨_, rfl⟩, _, ⟨_, rfl⟩, rfl⟩ := h
  exact ⟨a, ha, hdelta, rfl⟩

theorem adjustSupply_eq_ok {delta : Asset} (h : s.adjustSupply g delta = .ok s') :
    delta.symbol = g.symbol ∧ 0 ≤ s.dgp.currentSupply + delta.amount ∧
      s' = { s with dgp := { s.dgp with
        currentSupply := s.dgp.currentSupply + delta.amount } } := by
  simp only [adjustSupply, safeAdd, bind_eq_ok, fcAssert_eq_ok, checked_eq_ok, pure_eq_ok] at h
  obtain ⟨_, hsymbol, _, ⟨_, rfl⟩, _, hsupply, rfl⟩ := h
  exact ⟨hsymbol, hsupply, rfl⟩

/-- The turn of an account: votes follow the interest before the balance does. -/
theorem payInterest_eq_ok {name : AccountName} {a : Account} {interest : ShareType}
    (h : s.payInterest g name a = .ok (s', interest)) :
    ∃ economics s₁ a₁, (if g.interestDelay < s.dgp.headBlockNumber then
        s.economics.withdrawInterests g a.holdingsConsideredForInterests
          (min interestBlocks s.dgp.headBlockNumber)
      else pure (s.economics, 0)) = .ok (economics, interest) ∧
      (if 0 < interest ∧ s.hasHardfork 1 then
          { s with economics := economics }.adjustProxiedWitnessVotes name interest
        else pure { s with economics := economics }) = .ok s₁ ∧
      s₁.accounts.find? name = some a₁ ∧
      s' = s₁.modifyAccount name fun a ↦ { a with
        balance := a₁.balance + interest
        holdingsConsideredForInterests :=
          (a₁.balance + interest + a₁.vestingShares) * interestBlocks } := by
  simp only [payInterest, getAccount, safeAdd, safeMul, bind_eq_ok, orUnknownKey_eq_ok,
    checked_eq_ok, pure_eq_ok, Prod.exists, Prod.mk.injEq] at h
  obtain ⟨economics, _, hwithdraw, s₁, hvotes, a₁, ha₁, _, ⟨_, rfl⟩, _, ⟨_, rfl⟩, _, ⟨_, rfl⟩,
    rfl, rfl⟩ := h
  exact ⟨economics, s₁, a₁, hwithdraw, hvotes, ha₁, rfl⟩

theorem payInterest_money {name : AccountName} {a : Account} {interest : ShareType}
    (ha : s.accounts.find? name = some a) (hmax : s.economics.accumulatedSupply ≤ int64Max)
    (h : s.payInterest g name a = .ok (s', interest)) :
    0 ≤ interest ∧ ∃ economics, economics.poolTotal = s.economics.poolTotal - interest ∧
      s.economics.SameHistory economics ∧
      SameMoney ({ s with economics := economics }.modifyAccount name fun _ ↦
        a.afterTurn interest) s' := by
  obtain ⟨economics, s₁, a₁, hwithdraw, hvotes, ha₁, rfl⟩ := payInterest_eq_ok h
  have hpools : 0 ≤ interest ∧ economics.poolTotal = s.economics.poolTotal - interest ∧
      s.economics.SameHistory economics := by
    split at hwithdraw
    · exact EconomicModel.withdrawInterests_eq_ok hmax hwithdraw
    · cases hwithdraw
      exact ⟨le_rfl, (sub_zero _).symm, .refl _⟩
  have hs₁ : SameMoney { s with economics := economics } s₁ := by
    split at hvotes
    · exact (adjustProxiedWitnessVotes_frame hvotes).sameMoney
    · exact pure_eq_ok.1 hvotes ▸ .refl _
  refine ⟨hpools.1, economics, hpools.2.1, hpools.2.2, hs₁.modifyAccount_both name ?_⟩
  intro b b₁ hb hb₁ hmoney
  rw [ha] at hb
  rw [ha₁] at hb₁
  cases hb
  cases hb₁
  simp only [AccountHoldings.money, AccountHoldings.mk.injEq, Account.afterTurn] at hmoney ⊢
  simp only [hmoney, and_self]

/-- A withdrawal as the evaluator schedules it. -/
theorem withdrawVestingEvaluator_eq_ok {account : AccountName} {vestingShares : Asset}
    (h : s.withdrawVestingEvaluator account vestingShares = .ok s') :
    vestingShares.symbol = vestsSymbol ∧ ∃ a rate next, s.accounts.find? account = some a ∧
      vestingShares.amount ≤ a.vestingShares ∧
      (vestingShares.amount = 0 → rate = 0) ∧
      (vestingShares.amount ≠ 0 → vestingWithdrawRate vestingShares.amount = .ok rate) ∧
      s' = s.modifyAccount account fun a ↦ { a with
        vestingWithdrawRate := rate
        nextVestingWithdrawal := next
        toWithdraw := vestingShares.amount
        withdrawn := 0 } := by
  simp only [withdrawVestingEvaluator, getAccount, bind_eq_ok, orUnknownKey_eq_ok,
    fcAssert_eq_ok] at h
  obtain ⟨_, _, a, ha, _, _, _, hsymbol, _, hamount, h⟩ := h
  refine ⟨hsymbol, ?_⟩
  split at h
  · rename_i hzero
    simp only [bind_eq_ok, fcAssert_eq_ok, pure_eq_ok] at h
    obtain ⟨_, _, rfl⟩ := h
    refine ⟨a, 0, maximumTime, ha, hamount, fun _ ↦ rfl, fun hne ↦ absurd hzero hne, ?_⟩
    rw [hzero]
  · rename_i hne
    simp only [bind_eq_ok, fcAssert_eq_ok] at h
    obtain ⟨rate, hrate, _, _, _, _, h⟩ := h
    exact ⟨a, rate, _, ha, hamount, fun hzero ↦ absurd hzero hne, fun _ ↦ hrate,
      (pure_eq_ok.1 h).symm⟩

/-- What is paid out of an account: the daily rate or, when less than that is left, a remainder;
never more than its vesting shares. -/
theorem withdrawalAmount_eq_ok {a : Account} {toWithdraw : ShareType}
    (h : withdrawalAmount a = .ok toWithdraw) :
    (a.toWithdraw - a.withdrawn < a.vestingWithdrawRate ∧ a.vestingWithdrawRate ≠ 0 ∧
      toWithdraw = min a.vestingShares (a.toWithdraw.tmod a.vestingWithdrawRate)) ∨
    (a.vestingWithdrawRate ≤ a.toWithdraw - a.withdrawn ∧
      toWithdraw = min a.vestingShares a.vestingWithdrawRate) := by
  simp only [withdrawalAmount, safeSub, bind_eq_ok, checked_eq_ok] at h
  obtain ⟨_, ⟨_, rfl⟩, h⟩ := h
  split at h
  · rename_i hrest
    simp only [bind_eq_ok, pure_eq_ok] at h
    obtain ⟨last, hlast, rfl⟩ := h
    obtain ⟨hrate, rfl⟩ := safeMod_eq_ok hlast
    exact .inl ⟨hrest, hrate, rfl⟩
  · rename_i hrest
    rw [pure_eq_ok] at h
    exact .inr ⟨not_lt.1 hrest, h.symm⟩

theorem processVestingWithdrawal_eq_ok {name : AccountName} {a : Account}
    (h : s.processVestingWithdrawal name a = .ok s') :
    ∃ toWithdraw rate next, withdrawalAmount a = .ok toWithdraw ∧
      (rate = 0 ∨ rate = a.vestingWithdrawRate ∧ a.withdrawn + toWithdraw < a.toWithdraw) ∧
      s' = { s with dgp := { s.dgp with
        totalVestingShares := s.dgp.totalVestingShares - toWithdraw } }.modifyAccount name
          fun _ ↦ { a with
            vestingShares := a.vestingShares - toWithdraw
            balance := a.balance + toWithdraw
            withdrawn := a.withdrawn + toWithdraw
            vestingWithdrawRate := rate
            nextVestingWithdrawal := next } := by
  simp only [processVestingWithdrawal, withdrawFromAccount, safeAdd, safeSub, bind_eq_ok,
    checked_eq_ok, pure_eq_ok] at h
  obtain ⟨toWithdraw, hamount, paid, ⟨_, ⟨_, rfl⟩, _, ⟨_, rfl⟩, _, ⟨_, rfl⟩, hpaid⟩, _, ⟨_, rfl⟩,
    rfl⟩ := h
  split at hpaid
  · cases hpaid
    exact ⟨toWithdraw, 0, _, hamount, .inl rfl, rfl⟩
  · rename_i hcontinue
    cases hpaid
    exact ⟨toWithdraw, a.vestingWithdrawRate, _, hamount,
      .inr ⟨rfl, not_le.1 fun hdone ↦ hcontinue (.inl hdone)⟩, rfl⟩

theorem recordBlock_eq_ok {num : ℕ} (h : s.recordBlock num = .ok s') :
    ∃ economics, s.economics.recordBlock num s.dgp.currentSupply = .ok economics ∧
      s' = { s with economics := economics } := by
  simp only [recordBlock, bind_eq_ok, pure_eq_ok] at h
  obtain ⟨economics, heconomics, rfl⟩ := h
  exact ⟨economics, heconomics, rfl⟩

/-! ## Balances and vesting shares by name -/

/-- The balance of an account, zero if there is none. -/
def balanceOf (s : Database) (name : AccountName) : ℤ :=
  (s.accounts.find? name).elim 0 fun a ↦ a.balance

def vestingOf (s : Database) (name : AccountName) : ℤ :=
  (s.accounts.find? name).elim 0 fun a ↦ a.vestingShares

@[simp]
theorem balanceOf_modifyEscrow (key : AccountName × ℕ) (f : Escrow → Escrow) :
    (s.modifyEscrow key f).balanceOf = s.balanceOf := rfl

theorem balanceOf_congr (h : SameMoney s s') : s'.balanceOf = s.balanceOf := by
  funext name
  exact h.accounts.elim_eq name 0 (fun a ↦ a.balance) fun _ ↦ rfl

theorem vestingOf_congr (h : SameMoney s s') : s'.vestingOf = s.vestingOf := by
  funext name
  exact h.accounts.elim_eq name 0 (fun a ↦ a.vestingShares) fun _ ↦ rfl

theorem adjustBalance_balanceOf {account : AccountName} {delta : Asset}
    (h : s.adjustBalance g account delta = .ok s') :
    s'.balanceOf = s.balanceOf + Pi.single account delta.amount := by
  obtain ⟨_, a, ha, _, hvotes⟩ := adjustBalance_eq_ok h
  rw [balanceOf_congr (adjustProxiedWitnessVotes_frame hvotes).sameMoney]
  funext name
  by_cases hname : name = account
  · subst hname
    simp [Database.balanceOf, modifyAccount, Table.find?_modify_self, ha, Account.credit]
  · simp [Database.balanceOf, modifyAccount, Table.find?_modify_of_ne _ _ hname, hname]

theorem adjustBalance_vestingOf {account : AccountName} {delta : Asset}
    (h : s.adjustBalance g account delta = .ok s') : s'.vestingOf = s.vestingOf := by
  obtain ⟨_, a, ha, _, hvotes⟩ := adjustBalance_eq_ok h
  rw [vestingOf_congr (adjustProxiedWitnessVotes_frame hvotes).sameMoney]
  funext name
  by_cases hname : name = account
  · subst hname
    simp [Database.vestingOf, modifyAccount, Table.find?_modify_self, ha, Account.credit]
  · simp [Database.vestingOf, modifyAccount, Table.find?_modify_of_ne _ _ hname]

theorem vest_balanceOf {account : AccountName} {delta : ShareType}
    (h : s.vest account delta = .ok s') :
    s'.balanceOf = s.balanceOf + Pi.single account (-delta) ∧
      s'.vestingOf = s.vestingOf + Pi.single account delta := by
  obtain ⟨a, ha, _, rfl⟩ := vest_eq_ok h
  refine ⟨?_, ?_⟩
  · funext name
    by_cases hname : name = account
    · subst hname
      simp [balanceOf, modifyAccount, Table.find?_modify_self, ha, sub_eq_add_neg]
    · simp [balanceOf, modifyAccount, Table.find?_modify_of_ne _ _ hname, hname]
  · funext name
    by_cases hname : name = account
    · subst hname
      simp [vestingOf, modifyAccount, Table.find?_modify_self, ha]
    · simp [vestingOf, modifyAccount, Table.find?_modify_of_ne _ _ hname, hname]

/-- A payment touches balances and votes only. -/
theorem adjustBalance_rest {account : AccountName} {delta : Asset}
    (h : s.adjustBalance g account delta = .ok s') :
    s' = { s with accounts := s'.accounts, witnesses := s'.witnesses } ∧
      s.witnesses.AgreeOn Witness.withoutVotes s'.witnesses := by
  obtain ⟨_, _, _, _, hvotes⟩ := adjustBalance_eq_ok h
  have hframe := adjustProxiedWitnessVotes_frame hvotes
  exact ⟨hframe.rest, hframe.witnesses⟩

theorem adjustBalance_dgp {account : AccountName} {delta : Asset}
    (h : s.adjustBalance g account delta = .ok s') : s'.dgp = s.dgp := by
  rw [(adjustBalance_rest h).1]

theorem mem_unratifiedEscrows {entry : (AccountName × ℕ) × Escrow} :
    entry ∈ s.unratifiedEscrows ↔ s.escrows.find? entry.1 = some entry.2 ∧
      entry.2.isApproved = false ∧ entry.2.ratificationDeadline ≤ s.dgp.time := by
  rw [unratifiedEscrows, List.mem_insertionSort, List.mem_filter, Table.find?_eq_some_iff,
    Bool.and_eq_true, Bool.not_eq_true', decide_eq_true_eq]

theorem nodup_unratifiedEscrows (s : Database) : (s.unratifiedEscrows.map Prod.fst).Nodup := by
  have hperm := List.perm_insertionSort
    (fun a b : (AccountName × ℕ) × Escrow ↦ a.2.ratificationDeadline ≤ b.2.ratificationDeadline)
    (s.escrows.entries.filter fun entry ↦
      !entry.2.isApproved && decide (entry.2.ratificationDeadline ≤ s.dgp.time))
  rw [unratifiedEscrows, (hperm.map Prod.fst).nodup_iff]
  exact s.escrows.nodup.sublist (List.filter_sublist.map Prod.fst)

end Database

end SophiaTX.Chain
