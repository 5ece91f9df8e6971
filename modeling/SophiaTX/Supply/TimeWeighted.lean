import SophiaTX.Supply.Interest
import SophiaTX.Chain.Chronicle

/-!
# Time-weighted holdings

Between two turns of an account its considered holdings should be the sum of its totals over the
blocks of the period. The sum is kept by adding a change for the blocks left to the turn. In the
block of the turn itself the number of blocks left is computed as zero instead of a whole period,
and vesting shares that are burnt are not taken off at all; all else is counted exactly.
-/

open scoped BigOperators

namespace SophiaTX.Chain

open SophiaTX.Protocol SophiaTX.Lib

/-! ## The period of an account -/

/-- What happens to the holdings of an account between its turns. -/
inductive HoldingsEvent where
  | adjustBalance (amount : ShareType)
  | createVesting (amount : ShareType)
  | vest (amount : ShareType)
  | payWithdrawal (amount : ShareType)
  | burnVesting
  | newBlock

/-- An account at a head number. -/
structure Period where
  head : ℕ
  account : Account

namespace Period

/-- The change an event makes. -/
def step (p : Period) : HoldingsEvent → Period
  | .adjustBalance amount => { p with account := p.account.credit amount 0 p.head }
  | .createVesting amount => { p with account := p.account.credit 0 amount p.head }
  | .vest amount => { p with account := { p.account with
      balance := p.account.balance - amount
      vestingShares := p.account.vestingShares + amount } }
  | .payWithdrawal amount => { p with account := { p.account with
      vestingShares := p.account.vestingShares - amount
      balance := p.account.balance + amount } }
  | .burnVesting => { p with account := { p.account with vestingShares := 0 } }
  | .newBlock => { p with head := p.head + 1 }

def run (p : Period) (events : List HoldingsEvent) : Period := events.foldl step p

/-- The totals of the account at the moments the head number changes, added up. -/
def totals (p : Period) : List HoldingsEvent → ℤ
  | [] => 0
  | .newBlock :: rest => p.account.total + (p.step .newBlock).totals rest
  | event :: rest => (p.step event).totals rest

/-- The total of the account at the moment the head number changes from `h` to `h + 1`. -/
def totalAt (h : ℕ) (p : Period) : List HoldingsEvent → ℤ
  | [] => 0
  | .newBlock :: rest => if p.head = h then p.account.total else (p.step .newBlock).totalAt h rest
  | event :: rest => (p.step event).totalAt h rest

/-- The weighted changes that are left out: credits while the head is still at the turn, for the
whole period, and burnt vesting shares for the blocks left. -/
def uncounted (turn : ℕ) (p : Period) : List HoldingsEvent → ℤ
  | [] => 0
  | .adjustBalance amount :: rest =>
    (if p.head = turn then amount * interestBlocks else 0) +
      (p.step (.adjustBalance amount)).uncounted turn rest
  | .createVesting amount :: rest =>
    (if p.head = turn then amount * interestBlocks else 0) +
      (p.step (.createVesting amount)).uncounted turn rest
  | .burnVesting :: rest =>
    -(p.account.vestingShares * (turn + interestBlocks - p.head : ℤ)) +
      (p.step .burnVesting).uncounted turn rest
  | event :: rest => (p.step event).uncounted turn rest

/-- The account is right after its turn. -/
def Starts (p : Period) : Prop :=
  p.account.OnTurn p.head ∧
    p.account.holdingsConsideredForInterests = p.account.total * interestBlocks

/-- The considered holdings without what is still to come. -/
def past (turn : ℕ) (p : Period) : ℤ :=
  p.account.holdingsConsideredForInterests -
    p.account.total * (turn + interestBlocks - p.head : ℤ)

variable {p : Period} {turn : ℕ}

theorem head_le_run (p : Period) (events : List HoldingsEvent) : p.head ≤ (p.run events).head := by
  induction events generalizing p with
  | nil => exact le_rfl
  | cons event rest ih =>
    refine le_trans ?_ (ih (p.step event))
    cases event <;> simp [step]

theorem step_id (p : Period) (event : HoldingsEvent) :
    (p.step event).account.id = p.account.id := by
  cases event <;> rfl

/-- After the block of the turn a credit counts for the blocks left. -/
theorem toMyTurn_eq (hid : p.account.OnTurn turn) (hlow : turn < p.head)
    (hhigh : p.head ≤ turn + interestBlocks) :
    (p.account.toMyTurn p.head : ℤ) = turn + interestBlocks - p.head := by
  unfold AccountHoldings.OnTurn interestBlocks at *
  rcases p.account.toMyTurn_cases p.head with ⟨hle, hleft⟩ | ⟨hlt, hleft⟩ <;> omega

theorem past_credit (hid : p.account.OnTurn turn) (hlow : turn ≤ p.head)
    (hhigh : p.head ≤ turn + interestBlocks) (balance vesting : ShareType) :
    past turn { p with account := p.account.credit balance vesting p.head } =
      p.past turn - if p.head = turn then (balance + vesting) * interestBlocks else 0 := by
  simp only [past, Account.credit, AccountHoldings.total]
  split
  · rename_i hturn
    rw [AccountHoldings.toMyTurn_of_onTurn (hturn ▸ hid), hturn]
    push_cast
    ring
  · rename_i hturn
    rw [toMyTurn_eq hid (lt_of_le_of_ne hlow (Ne.symm hturn)) hhigh]
    ring

/-- The sum is exact but for what is left out. -/
theorem past_run {events : List HoldingsEvent} (hid : p.account.OnTurn turn) (hlow : turn ≤ p.head)
    (hhigh : (p.run events).head ≤ turn + interestBlocks) :
    (p.run events).past turn + p.uncounted turn events = p.past turn + p.totals events := by
  induction events generalizing p with
  | nil => simp [run, uncounted, totals]
  | cons event rest ih =>
    have hhead : p.head ≤ turn + interestBlocks := (p.head_le_run _).trans hhigh
    have hid' : (p.step event).account.OnTurn turn := by
      rw [AccountHoldings.OnTurn, step_id]
      exact hid
    have hlow' : turn ≤ (p.step event).head :=
      hlow.trans (p.head_le_run [event])
    have hrest := ih hid' hlow' hhigh
    rw [show p.run (event :: rest) = (p.step event).run rest from rfl]
    cases event with
    | adjustBalance amount =>
      have hcredit := past_credit hid hlow hhead amount 0
      simp only [uncounted, totals] at hrest ⊢
      rw [add_zero] at hcredit
      simp only [step] at hrest hcredit ⊢
      linarith
    | createVesting amount =>
      have hcredit := past_credit hid hlow hhead 0 amount
      simp only [uncounted, totals] at hrest ⊢
      rw [zero_add] at hcredit
      simp only [step] at hrest hcredit ⊢
      linarith
    | vest amount =>
      have hsame : (p.step (.vest amount)).past turn = p.past turn := by
        simp only [past, step, AccountHoldings.total]
        ring
      simp only [uncounted, totals]
      rw [hrest, hsame]
    | payWithdrawal amount =>
      have hsame : (p.step (.payWithdrawal amount)).past turn = p.past turn := by
        simp only [past, step, AccountHoldings.total]
        ring
      simp only [uncounted, totals]
      rw [hrest, hsame]
    | burnVesting =>
      have hburnt : (p.step .burnVesting).past turn = p.past turn +
          p.account.vestingShares * (turn + interestBlocks - p.head : ℤ) := by
        simp only [past, step, AccountHoldings.total]
        ring
      simp only [uncounted, totals]
      linarith
    | newBlock =>
      have hblock : (p.step .newBlock).past turn = p.past turn + p.account.total := by
        simp only [past, step]
        push_cast
        ring
      simp only [uncounted, totals]
      linarith

/-- Heads that are passed already do not come again. -/
theorem totalAt_newBlock {h : ℕ} (rest : List HoldingsEvent) (hne : h ≠ p.head) :
    p.totalAt h (.newBlock :: rest) = (p.step .newBlock).totalAt h rest :=
  if_neg (Ne.symm hne)

theorem run_append (p : Period) (events events' : List HoldingsEvent) :
    p.run (events ++ events') = (p.run events).run events' :=
  List.foldl_append

/-- What happens later does not change the totals of the heads that are passed. -/
theorem totalAt_append_of_lt {h : ℕ} {events : List HoldingsEvent} (events' : List HoldingsEvent)
    (hlt : h < (p.run events).head) (hle : p.head ≤ h) :
    p.totalAt h (events ++ events') = p.totalAt h events := by
  induction events generalizing p with
  | nil => exact absurd hlt (Nat.not_lt_of_le hle)
  | cons event rest ih =>
    cases event with
    | newBlock =>
      by_cases hhead : p.head = h
      · rw [List.cons_append, totalAt, totalAt, if_pos hhead, if_pos hhead]
      · rw [List.cons_append, totalAt_newBlock _ (Ne.symm hhead),
          totalAt_newBlock _ (Ne.symm hhead)]
        exact ih hlt (Nat.lt_of_le_of_ne hle hhead)
    | _ => exact ih hlt hle

theorem totalAt_append_of_le {h : ℕ} {events : List HoldingsEvent} (events' : List HoldingsEvent)
    (hle : (p.run events).head ≤ h) :
    p.totalAt h (events ++ events') = (p.run events).totalAt h events' := by
  induction events generalizing p with
  | nil => rfl
  | cons event rest ih =>
    cases event with
    | newBlock =>
      have hlt : p.head < h :=
        (Nat.lt_of_succ_le ((p.step .newBlock).head_le_run rest)).trans_le hle
      rw [List.cons_append, totalAt_newBlock _ hlt.ne']
      exact ih hle
    | _ => exact ih hle

theorem sum_totalAt (p : Period) (events : List HoldingsEvent) :
    ∑ h ∈ Finset.Ico p.head (p.run events).head, p.totalAt h events = p.totals events := by
  induction events generalizing p with
  | nil => simp [run, totals]
  | cons event rest ih =>
    have hrest := ih (p.step event)
    have hle := (p.step event).head_le_run rest
    rw [show p.run (event :: rest) = (p.step event).run rest from rfl]
    cases event with
    | newBlock =>
      have hlt : p.head < ((p.step .newBlock).run rest).head := Nat.lt_of_succ_le hle
      rw [Finset.sum_eq_sum_Ico_succ_bot hlt, totals, ← hrest]
      congr 1
      · exact if_pos rfl
      · apply Finset.sum_congr rfl
        intro h hh
        rw [Finset.mem_Ico] at hh
        exact totalAt_newBlock rest (by omega)
    | _ => exact hrest

end Period

/-- The considered holdings of an account at its next turn are the sum of its totals over the
period exactly if nothing was left out on balance. -/
theorem holdings_exact_iff (p : Period) (events : List HoldingsEvent) (hstart : p.Starts)
    (hend : (p.run events).head = p.head + interestBlocks) :
    (p.run events).account.holdingsConsideredForInterests =
        ∑ h ∈ Finset.Ico p.head (p.head + interestBlocks), p.totalAt h events ↔
      p.uncounted p.head events = 0 := by
  have hrun := Period.past_run hstart.1 le_rfl hend.le
  have hfirst : p.past p.head = 0 := by
    rw [Period.past, hstart.2]
    ring
  have hlast : (p.run events).past p.head =
      (p.run events).account.holdingsConsideredForInterests := by
    rw [Period.past, hend]
    push_cast
    ring
  have hsum := p.sum_totalAt events
  rw [hend] at hsum
  rw [hfirst, hlast, zero_add] at hrun
  rw [hsum, ← hrun]
  exact left_eq_add

/-- An account of id 7 with a balance of 100, right after its turn at block 7. -/
def periodStart : Period :=
  ⟨7, { Account.fresh 7 with balance := 100, holdingsConsideredForInterests := 240000 }⟩

theorem periodStart_starts : periodStart.Starts := ⟨rfl, rfl⟩

/-- A payment in the block after the turn counts for the rest of the period. -/
theorem holdings_exact_when_credited_later :
    (periodStart.run (.newBlock :: .adjustBalance 50 ::
        List.replicate 2399 .newBlock)).account.holdingsConsideredForInterests = 359950 ∧
      ∑ h ∈ Finset.Ico 7 2407, periodStart.totalAt h (.newBlock :: .adjustBalance 50 ::
        List.replicate 2399 .newBlock) = 359950 := by
  have hholdings : (periodStart.run (.newBlock :: .adjustBalance 50 ::
      List.replicate 2399 .newBlock)).account.holdingsConsideredForInterests = 359950 := by
    decide +kernel
  have hexact := (holdings_exact_iff periodStart (.newBlock :: .adjustBalance 50 ::
    List.replicate 2399 .newBlock) periodStart_starts (by decide +kernel)).2 (by decide +kernel)
  exact ⟨hholdings, hexact.symm.trans hholdings⟩

/-- A payment in the block of the turn counts for nothing. -/
theorem holdings_not_exact_when_credited_on_turn :
    ∃ events, periodStart.Starts ∧
      (periodStart.run events).head = periodStart.head + interestBlocks ∧
      (periodStart.run events).account.holdingsConsideredForInterests = 240000 ∧
      ∑ h ∈ Finset.Ico periodStart.head (periodStart.head + interestBlocks),
        periodStart.totalAt h events = 360000 := by
  refine ⟨.adjustBalance 50 :: List.replicate 2400 .newBlock, periodStart_starts,
    by decide +kernel, by decide +kernel, ?_⟩
  have hsum := periodStart.sum_totalAt (.adjustBalance 50 :: List.replicate 2400 .newBlock)
  rw [show (periodStart.run (.adjustBalance 50 :: List.replicate 2400 .newBlock)).head =
    periodStart.head + interestBlocks by decide +kernel] at hsum
  rw [hsum]
  decide +kernel

/-! ## Periods on the chain -/

/-- The part of an account that the events are about. -/
def AccountHoldings.ledger (a : AccountHoldings) : ℕ × ShareType × ShareType × ShareType :=
  (a.id, a.holdingsConsideredForInterests, a.balance, a.vestingShares)

namespace Period

theorem step_ledger {p q : Period} (hhead : q.head = p.head)
    (h : q.account.ledger = p.account.ledger) (event : HoldingsEvent) :
    (q.step event).head = (p.step event).head ∧
      (q.step event).account.ledger = (p.step event).account.ledger := by
  simp only [AccountHoldings.ledger, Prod.mk.injEq] at h
  obtain ⟨hid, hholdings, hbalance, hvesting⟩ := h
  cases event <;> simp [step, AccountHoldings.ledger, Account.credit, hhead, hid, hholdings,
    hbalance, hvesting, AccountHoldings.toMyTurn]

theorem run_ledger {p q : Period} (hhead : q.head = p.head)
    (h : q.account.ledger = p.account.ledger) (events : List HoldingsEvent) :
    (q.run events).head = (p.run events).head ∧
      (q.run events).account.ledger = (p.run events).account.ledger := by
  induction events generalizing p q with
  | nil => exact ⟨hhead, h⟩
  | cons event rest ih =>
    obtain ⟨hhead', h'⟩ := step_ledger hhead h event
    exact ih hhead' h'

end Period

/-- The account goes through events from one state to the other. -/
def Lives (name : AccountName) (s s' : Database) : Prop :=
  ∀ a, s.accounts.find? name = some a → ∃ events a', s'.accounts.find? name = some a' ∧
    (Period.run ⟨s.dgp.headBlockNumber, a⟩ events).head = s'.dgp.headBlockNumber ∧
    (Period.run ⟨s.dgp.headBlockNumber, a⟩ events).account.ledger = a'.ledger

namespace Lives

variable {name : AccountName} {s s₁ s' : Database}

theorem trans (h : Lives name s s₁) (h' : Lives name s₁ s') : Lives name s s' := by
  intro a ha
  obtain ⟨events, a₁, ha₁, hhead, hledger⟩ := h a ha
  obtain ⟨events', a', ha', hhead', hledger'⟩ := h' a₁ ha₁
  obtain ⟨hhead₁, hledger₁⟩ := Period.run_ledger (p := ⟨s₁.dgp.headBlockNumber, a₁⟩) hhead hledger
    events'
  refine ⟨events ++ events', a', ha', ?_, ?_⟩
  · rw [Period.run, List.foldl_append]
    exact hhead₁.trans hhead'
  · rw [Period.run, List.foldl_append]
    exact hledger₁.trans hledger'

theorem of_row (hhead : s'.dgp.headBlockNumber = s.dgp.headBlockNumber)
    (h : ∀ a, s.accounts.find? name = some a →
      ∃ a', s'.accounts.find? name = some a' ∧ a'.ledger = a.ledger) : Lives name s s' := by
  intro a ha
  obtain ⟨a', ha', hledger⟩ := h a ha
  exact ⟨[], a', ha', hhead.symm, hledger.symm⟩

theorem refl (s : Database) : Lives name s s := of_row rfl fun a ha ↦ ⟨a, ha, rfl⟩

theorem of_accounts (haccounts : s'.accounts = s.accounts)
    (hhead : s'.dgp.headBlockNumber = s.dgp.headBlockNumber) : Lives name s s' :=
  of_row hhead fun a ha ↦ ⟨a, haccounts ▸ ha, rfl⟩

/-- One account changes by an event. -/
theorem modifyAccount {account : AccountName} {b : Account} {f : Account → Account}
    (event : HoldingsEvent) (hb : s.accounts.find? account = some b)
    (haccounts : s'.accounts = s.accounts.modify account f)
    (hhead : (Period.step ⟨s.dgp.headBlockNumber, b⟩ event).head = s'.dgp.headBlockNumber)
    (hsame : s'.dgp.headBlockNumber = s.dgp.headBlockNumber)
    (hledger : (Period.step ⟨s.dgp.headBlockNumber, b⟩ event).account.ledger = (f b).ledger) :
    Lives name s s' := by
  intro a ha
  rw [haccounts, Table.find?_modify]
  split
  · rename_i hname
    rw [hname, hb] at ha
    cases ha
    exact ⟨[event], f b, by rw [hname, hb, Option.map_some], hhead, hledger⟩
  · exact ⟨[], a, ha, hsame.symm, rfl⟩

end Lives

theorem SameMoney.lives {name : AccountName} {s s' : Database} (h : SameMoney s s') :
    Lives name s s' := by
  refine .of_row h.headBlockNumber fun a ha ↦ ?_
  obtain ⟨a', ha', hmoney⟩ := h.accounts.exists_right ha
  have hledger : a'.money.ledger = a.money.ledger := congrArg AccountHoldings.ledger hmoney
  exact ⟨a', ha', hledger⟩

/-- Moves that are events of the accounts they touch, or do not touch the account at all. -/
def Move.Eventful (name : AccountName) : Move → Prop
  | .advanceHead _ => False
  | .payInterest account _ => account ≠ name
  | _ => True

theorem Move.Direct.lives {name : AccountName} {s t : Database} {m : Move}
    (hm : m.Eventful name) (h : m.Direct s t) : Lives name s t := by
  cases m with
  | advanceHead _ => exact hm.elim
  | payInterest account amount =>
    obtain ⟨b, economics, hb, _, _, _, _, rfl⟩ := h
    refine .of_row rfl fun a ha ↦ ⟨a, ?_, rfl⟩
    rw [Database.modifyAccount, Table.find?_modify_of_ne _ _ (Ne.symm hm)]
    exact ha
  | adjustBalance account amount =>
    obtain ⟨b, hb, _, rfl⟩ := h
    exact .modifyAccount (f := fun _ ↦ b.credit amount 0 s.dgp.headBlockNumber)
      (.adjustBalance amount) hb rfl rfl rfl rfl
  | createVesting account amount =>
    obtain ⟨b, hb, _, rfl⟩ := h
    exact .modifyAccount (f := fun _ ↦ b.credit 0 amount s.dgp.headBlockNumber)
      (.createVesting amount) hb rfl rfl rfl rfl
  | vest account amount =>
    obtain ⟨b, hb, _, _, rfl⟩ := h
    exact .modifyAccount (f := fun _ ↦ { b with
      balance := b.balance - amount
      vestingShares := b.vestingShares + amount }) (.vest amount) hb rfl rfl rfl rfl
  | payWithdrawal account =>
    obtain ⟨b, amount, rate, next, hb, _, _, rfl⟩ := h
    exact .modifyAccount (f := fun _ ↦ { b with
      vestingShares := b.vestingShares - amount
      balance := b.balance + amount
      withdrawn := b.withdrawn + amount
      vestingWithdrawRate := rate
      nextVestingWithdrawal := next }) (.payWithdrawal amount) hb rfl rfl rfl rfl
  | burnVesting amount =>
    obtain ⟨b, hb, _, rfl⟩ := h
    exact .modifyAccount (f := fun b ↦ { b with vestingShares := 0 }) .burnVesting hb rfl
      rfl rfl rfl
  | setWithdrawal account amount =>
    obtain ⟨b, rate, next, hb, _, _, _, rfl⟩ := h
    refine .of_row rfl fun a ha ↦ ?_
    rw [Database.modifyAccount, Table.find?_modify]
    split
    · rw [ha]
      exact ⟨_, rfl, rfl⟩
    · exact ⟨a, ha, rfl⟩
  | createAccount account =>
    obtain ⟨b, accounts, _, haccounts, rfl⟩ := h
    refine .of_row rfl fun a ha ↦ ⟨a, ?_, rfl⟩
    rw [Table.find?_emplace? haccounts, if_neg]
    · exact ha
    · rintro rfl
      exact absurd (ha.symm.trans (Table.emplace?_eq_some haccounts).1) (by simp)
  | adjustSupply _ | mintVesting _ =>
    obtain ⟨_, rfl⟩ := h
    exact .of_accounts rfl rfl
  | changePools _ =>
    obtain ⟨_, _, _, rfl⟩ := h
    exact .of_accounts rfl rfl
  | recordBlock _ =>
    obtain ⟨_, _, rfl⟩ := h
    exact .of_accounts rfl rfl
  | createEscrow _ _ =>
    obtain ⟨_, _, _, _, rfl⟩ := h
    exact .of_accounts rfl rfl
  | changeEscrow _ _ _ =>
    obtain ⟨_, _, _, rfl⟩ := h
    exact .of_accounts rfl rfl
  | removeEscrow _ _ =>
    obtain ⟨_, rfl⟩ := h
    exact .of_accounts rfl rfl
  | setIrreversible _ =>
    obtain rfl := h
    exact .of_accounts rfl rfl
  | bookkeeping | createWitness _ | changeProxy _ _ | changeVote _ _ _
  | confirmBlock _ _ | applyHardfork _ =>
    obtain rfl := h
    exact .refl _

theorem Period.run_id (p : Period) (events : List HoldingsEvent) :
    (p.run events).account.id = p.account.id := by
  induction events generalizing p with
  | nil => rfl
  | cons event rest ih => exact (ih (p.step event)).trans (p.step_id event)

/-- Through every stage but the one that moves the head and its own turns an account goes by
events. -/
theorem Explained.lives {g : GenesisState} {stage : Stage} {s s' : Database}
    {effect : ShareType × ShareType × ShareType} {name : AccountName}
    (h : Explained g stage effect s s') (hs : Sound s)
    (hhead : ∀ b, stage ≠ .updateGlobalDynamicData b)
    (hturn : stage = .processInterests →
      ∀ a, s.accounts.find? name = some a → ¬ a.OnTurn s.dgp.headBlockNumber) :
    Lives name s s' := by
  cases hrow : s.accounts.find? name with
  | none => exact fun a ha ↦ absurd (hrow.symm.trans ha) (by simp)
  | some a =>
    obtain ⟨ms, hms, hallowed, _⟩ := h
    refine (hms.invariant (I := fun t ↦ Sound t ∧
      t.dgp.headBlockNumber = s.dgp.headBlockNumber ∧ Lives name s t) ?_ ⟨hs, rfl, .refl s⟩).2.2
    rintro s₁ m s₂ hm hstep ⟨hs₁, hnumber, hlives⟩
    have hadvance : ∀ num, m ≠ .advanceHead num := by
      rintro num rfl
      obtain ⟨b, hb, _⟩ := hallowed _ hm
      exact hhead b hb
    have heventful : m.Eventful name := by
      cases m with
      | advanceHead num => exact hadvance num rfl
      | payInterest account amount =>
        rintro rfl
        obtain ⟨b, hb, hbatch, _⟩ := hstep
        obtain ⟨events, a₁, ha₁, _, hledger⟩ := hlives a hrow
        rw [hb] at ha₁
        cases ha₁
        have hid : a.id = b.id :=
          (Period.run_id ⟨s.dgp.headBlockNumber, a⟩ events).symm.trans (congrArg Prod.fst hledger)
        refine hturn (hallowed _ hm) a hrow ?_
        rw [AccountHoldings.OnTurn, hid, hbatch, hnumber]
      | _ => trivial
    obtain ⟨t, hdirect, hmoney⟩ := Move.Step.direct hstep hs₁.accumulated
    exact ⟨Move.Step.sound hstep hs₁,
      ((Move.Step.chain_eq hstep hs₁).2.1 hadvance).1.trans hnumber,
      (hlives.trans (hdirect.lives heventful)).trans hmoney.lives⟩

/-- The account goes through events in a stage, and through none but the new block where the head
moves. -/
theorem Stage.lives {ctx : Context} {stage : Stage} {s s' : Database} {name : AccountName}
    (hs : Sound s) (hvalid : stage.Valid ctx) (hrun : stage.run ctx s = .ok s')
    (hhead : ∀ b, stage = .updateGlobalDynamicData b → s.dgp.headBlockNumber + 1 = b.blockNum)
    (hturn : stage = .processInterests →
      ∀ a, s.accounts.find? name = some a → ¬ a.OnTurn s.dgp.headBlockNumber) {a : Account}
    (ha : s.accounts.find? name = some a) :
    ∃ events a', s'.accounts.find? name = some a' ∧
      (Period.run ⟨s.dgp.headBlockNumber, a⟩ events).head = s'.dgp.headBlockNumber ∧
      (Period.run ⟨s.dgp.headBlockNumber, a⟩ events).account.ledger = a'.ledger ∧
      ((∃ b, stage = .updateGlobalDynamicData b ∧ events = [.newBlock]) ∨
        s'.dgp.headBlockNumber = s.dgp.headBlockNumber) := by
  by_cases hmoves : ∃ b, stage = .updateGlobalDynamicData b
  · obtain ⟨b, rfl⟩ := hmoves
    obtain ⟨hnumber, _, hframe⟩ := Database.updateGlobalDynamicData_eq_ok hrun
    obtain ⟨a', ha', hmoney⟩ := hframe.sameMoney.accounts.exists_right ha
    have hledger : a'.money.ledger = a.money.ledger := congrArg AccountHoldings.ledger hmoney
    exact ⟨[.newBlock], a', ha', (hhead b rfl).trans hnumber.symm, hledger.symm, .inl ⟨b, rfl, rfl⟩⟩
  · have hexplained := Stage.explained hs hvalid hrun
    have hnone : ∀ b, stage ≠ .updateGlobalDynamicData b := fun b hb ↦ hmoves ⟨b, hb⟩
    obtain ⟨events, a', ha', hend, hledger⟩ := hexplained.lives hs hnone hturn a ha
    exact ⟨events, a', ha', hend, hledger, .inr (hexplained.head_eq hs hnone).1⟩

/-- After `process_interests` the holdings of every account on turn start again. -/
theorem Database.processInterests_starts {g : GenesisState} {s s' : Database} (hs : Sound s)
    (horder : InOrder s.accounts) (hpositive : 0 < s.dgp.headBlockNumber)
    (hrun : s.processInterests g = .ok s') :
    s'.accounts.Forall fun _ a ↦ a.OnTurn s'.dgp.headBlockNumber →
      a.holdingsConsideredForInterests = a.total * interestBlocks := by
  have hbefore : Counted 0 (fun _ lo x ↦ lo = s.dgp.headBlockNumber → x = 0) (fun _ ↦ true) s := by
    refine ⟨horder, fun name a _ _ hlo ↦ ?_⟩
    have hlast := a.blocksLeft_succ (s.dgp.headBlockNumber - 1)
    have hle := a.blocksLeft_le false (s.dgp.headBlockNumber - 1)
    rw [Nat.sub_add_cancel hpositive] at hlast
    unfold interestBlocks at *
    omega
  have hcounted := hbefore.processInterests hs hrun (fun _ _ ↦ rfl) fun _ _ _ _ _ ↦ rfl
  obtain ⟨hhead, _, _⟩ := Database.processInterests_history hs hrun
  intro name a ha honTurn
  rw [hhead] at honTurn
  have hleft : a.blocksLeft false s.dgp.headBlockNumber = interestBlocks := by
    rw [AccountHoldings.blocksLeft, if_pos honTurn, if_neg Bool.false_ne_true]
  have hzero : 0 < s'.dgp.headBlockNumber + a.blocksLeft false s'.dgp.headBlockNumber →
      s'.dgp.headBlockNumber + a.blocksLeft false s'.dgp.headBlockNumber - interestBlocks =
        s.dgp.headBlockNumber → a.considered (a.blocksLeft false s'.dgp.headBlockNumber) = 0 :=
    hcounted.accounts name a ha
  rw [hhead, hleft, Nat.add_sub_cancel] at hzero
  have hconsidered := hzero (Nat.lt_add_right _ hpositive) rfl
  rw [AccountHoldings.considered] at hconsidered
  linarith

/-! ### Accounts stay where they are -/

/-- Accounts keep their ids and stand in the order of them. -/
structure SameIds (s s' : Database) : Prop where
  ids : ∀ name a, s.accounts.find? name = some a →
    ∃ a', s'.accounts.find? name = some a' ∧ a'.id = a.id
  order : InOrder s.accounts → InOrder s'.accounts

theorem SameIds.trans {s s₁ s' : Database} (h : SameIds s s₁) (h' : SameIds s₁ s') :
    SameIds s s' where
  ids name a ha := by
    obtain ⟨a₁, ha₁, hid₁⟩ := h.ids name a ha
    obtain ⟨a', ha', hid'⟩ := h'.ids name a₁ ha₁
    exact ⟨a', ha', hid'.trans hid₁⟩
  order hs := h'.order (h.order hs)

theorem SameIds.of_agree {s s' : Database} (h : s.accounts.AgreeOn (fun a ↦ a.id) s'.accounts) :
    SameIds s s' where
  ids _ _ ha := h.exists_right ha
  order := InOrder.of_agree h

theorem Drift.sameIds {s s' : Database} (h : Drift s s') : SameIds s s' := ⟨h.ids, h.order⟩

theorem Move.Direct.sameIds {s t : Database} {m : Move} (h : m.Direct s t) : SameIds s t := by
  have hmodify : ∀ {account : AccountName} {b : Account} {f : Account → Account},
      s.accounts.find? account = some b → (f b).id = b.id →
        s.accounts.AgreeOn (fun a ↦ a.id) (s.accounts.modify account f) := by
    intro account b f hb hid
    refine Table.AgreeOn.modify _ _ fun row hrow ↦ ?_
    cases hb.symm.trans hrow
    exact hid
  cases m with
  | advanceHead _ | recordBlock _ =>
    obtain ⟨_, _, rfl⟩ := h
    exact .of_agree (.refl _)
  | payInterest account amount =>
    obtain ⟨b, _, hb, _, _, _, _, rfl⟩ := h
    exact .of_agree (hmodify hb rfl)
  | burnVesting amount =>
    obtain ⟨b, hb, _, rfl⟩ := h
    exact .of_agree (hmodify hb rfl)
  | _ => exact (Move.Direct.drift (by trivial) h).sameIds

theorem Explained.sameIds {g : GenesisState} {stage : Stage} {s s' : Database}
    {effect : ShareType × ShareType × ShareType} (h : Explained g stage effect s s')
    (hs : Sound s) : SameIds s s' := by
  obtain ⟨ms, hms, _, _⟩ := h
  refine (hms.invariant (I := fun t ↦ Sound t ∧ SameIds s t) ?_ ⟨hs, .of_agree (.refl _)⟩).2
  rintro s₁ m s₂ - hstep ⟨hs₁, hsame⟩
  obtain ⟨t, hdirect, hmoney⟩ := Move.Step.direct hstep hs₁.accumulated
  exact ⟨Move.Step.sound hstep hs₁, (hsame.trans hdirect.sameIds).trans hmoney.drift.sameIds⟩

theorem RunsFrom.inOrder {ctx : Context} (hskip : ctx.skip.validate = false)
    {C : Database → Stage → Prop} {s₀ s : Database} {pending : Option (List Stage)}
    (hgenesis : initGenesis ctx.genesis = .ok s₀) (h : RunsFrom ctx C s₀ pending s) :
    Sound s ∧ InOrder s.accounts ∧ s.dgp.privateNet = ctx.genesis.isPrivateNet := by
  have hbooks := initGenesis_books hgenesis
  refine h.invariant (I := fun t ↦ Sound t ∧ InOrder t.accounts ∧
    t.dgp.privateNet = ctx.genesis.isPrivateNet) hskip ?_
    ⟨hbooks.sound, hbooks.order, hbooks.privateNet⟩
  rintro s stage s' - hvalid hrun ⟨hs, horder, hnet⟩
  have hexplained := Stage.explained hs hvalid hrun
  exact ⟨hexplained.sound hs, (hexplained.sameIds hs).order horder,
    (hexplained.privateNet_eq hs).trans hnet⟩

/-- The total of an account at a head is the one it has on the chain when the next block becomes the
head. -/
def TotalAt (past : List Moment) (name : AccountName) (h : ℕ) (total : ℤ) : Prop :=
  ∃ s b a, (s, .updateGlobalDynamicData b) ∈ past ∧ s.dgp.headBlockNumber = h ∧
    s.accounts.find? name = some a ∧ a.total = total

/-- On the chain, an account goes from each of its turns to the next by events, and its totals at
the heads in between are those it has there. -/
theorem Chronicle.period {ctx : Context} {C : Database → Stage → Prop} {s₀ s turning : Database}
    {newer older : List Moment} {pending : Option (List Stage)}
    (hskip : ctx.skip.validate = false) (hpublic : ctx.genesis.isPrivateNet = false)
    (hgenesis : initGenesis ctx.genesis = .ok s₀)
    (h : Chronicle ctx C s₀ (newer ++ (turning, .processInterests) :: older) pending s)
    {name : AccountName} {b : Account} (hb : turning.accounts.find? name = some b)
    (hturn : b.OnTurn turning.dgp.headBlockNumber)
    (hperiod : ∀ moment ∈ newer, moment.2 = .processInterests →
      ¬ b.OnTurn moment.1.dgp.headBlockNumber) :
    ∃ (p : Period) (events : List HoldingsEvent) (a : Account),
      p.head = turning.dgp.headBlockNumber ∧ p.account.id = b.id ∧ p.Starts ∧
      s.accounts.find? name = some a ∧ (p.run events).head = s.dgp.headBlockNumber ∧
      (p.run events).account.ledger = a.ledger ∧
      ∀ h, p.head ≤ h → h < (p.run events).head →
        TotalAt newer name h (p.totalAt h events) := by
  have hbooks := initGenesis_books hgenesis
  have hid₀ : HeadNumbered s₀ := by
    rw [HeadNumbered, hbooks.headId, hbooks.head]
    rfl
  generalize hpast : newer ++ (turning, Stage.processInterests) :: older = past at h
  induction h generalizing newer with
  | refl => simp at hpast
  | start _ _ ih => exact ih hperiod hpast
  | finish _ _ ih => exact ih hperiod hpast
  | @stage past s s' stage rest h _ hrun ih =>
    obtain ⟨hs, horder, hnet⟩ := h.runsFrom.inOrder hskip hgenesis
    have hvalid := (h.runsFrom.guarded hskip).head
    obtain ⟨c, hposition⟩ := (h.runsFrom.position hskip hbooks.sound hid₀).2 _ rfl
    cases newer with
    | nil =>
      rw [List.nil_append, List.cons.injEq, Prod.mk.injEq] at hpast
      obtain ⟨⟨rfl, rfl⟩, _⟩ := hpast
      have hexplained := Stage.explained hs hvalid hrun
      obtain ⟨a, ha, hid⟩ := (hexplained.sameIds hs).ids name b hb
      have hhead := (hexplained.head_eq hs (by simp)).1
      obtain ⟨_, hnumber⟩ := hposition.suffix (by simp) rfl (by simp [Stage.InTransaction])
      have hpositive : 0 < turning.dgp.headBlockNumber := by
        rw [hnumber]
        exact Nat.succ_pos _
      simp only [Stage.run, onPublicNet, hnet.trans hpublic, if_neg Bool.false_ne_true] at hrun
      have honTurn : a.OnTurn s'.dgp.headBlockNumber := by
        rw [AccountHoldings.OnTurn, hid, hhead]
        exact hturn
      have hholdings := Database.processInterests_starts hs horder hpositive hrun name a ha honTurn
      exact ⟨⟨s'.dgp.headBlockNumber, a⟩, [], a, hhead, hid, ⟨honTurn, hholdings⟩, ha, rfl, rfl,
        fun h hle hlt ↦ absurd hlt (Nat.not_lt_of_le hle)⟩
    | cons first newer =>
      rw [List.cons_append, List.cons.injEq] at hpast
      obtain ⟨rfl, hpast⟩ := hpast
      obtain ⟨p, events, a, hhead, hid, hstarts, ha, hrunHead, hledger, htotals⟩ :=
        ih (fun moment hmem ↦ hperiod moment (List.mem_cons_of_mem _ hmem)) hpast
      have hsameId : a.id = b.id :=
        ((congrArg Prod.fst hledger).symm.trans (p.run_id events)).trans hid
      obtain ⟨events', a', ha', hhead', hledger', hmoves⟩ := by
        refine Stage.lives hs hvalid hrun ?_ (fun hstage a' ha' ↦ ?_) ha
        · rintro c' rfl
          exact hposition.updateGlobalDynamicData.2
        · cases ha.symm.trans ha'
          have hnot := hperiod (s, stage) List.mem_cons_self hstage
          rwa [AccountHoldings.OnTurn, ← hsameId] at hnot
      obtain ⟨hhead₁, hledger₁⟩ :=
        Period.run_ledger (p := ⟨s.dgp.headBlockNumber, a⟩) hrunHead hledger events'
      rw [← Period.run_append] at hhead₁ hledger₁
      have hrunHead' : (p.run (events ++ events')).head = s'.dgp.headBlockNumber :=
        hhead₁.trans hhead'
      refine ⟨p, events ++ events', a', hhead, hid, hstarts, ha', hrunHead',
        hledger₁.trans hledger', fun n hle hlt ↦ ?_⟩
      rcases Nat.lt_or_ge n (p.run events).head with hpassed | hreached
      · rw [Period.totalAt_append_of_lt events' hpassed hle]
        obtain ⟨s₁, b₁, a₁, hmem, hfacts⟩ := htotals n hle hpassed
        exact ⟨s₁, b₁, a₁, List.mem_cons_of_mem _ hmem, hfacts⟩
      · rcases hmoves with ⟨b', rfl, rfl⟩ | hsame
        swap
        · omega
        have hend : (p.run (events ++ [.newBlock])).head = (p.run events).head + 1 := by
          rw [Period.run_append]
          rfl
        have hn : (p.run events).head = n := by omega
        have htotal : (p.run events).account.total = a.total := by
          simp only [AccountHoldings.ledger, Prod.mk.injEq] at hledger
          rw [AccountHoldings.total, AccountHoldings.total, hledger.2.2.1, hledger.2.2.2]
        refine ⟨s, b', a, List.mem_cons_self, hrunHead.symm.trans hn, ha, ?_⟩
        rw [Period.totalAt_append_of_le _ hreached, Period.totalAt, if_pos hn, htotal]

end SophiaTX.Chain
