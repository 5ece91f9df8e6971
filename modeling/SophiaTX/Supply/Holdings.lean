import SophiaTX.Chain.Position
import SophiaTX.Lib.Window
import Mathlib.Tactic.Linarith

/-!
# Holdings considered for interests

An account is paid interests once in an interest period, on its holdings summed over the blocks of
the period. The sum is kept incrementally: a change counts for the blocks left to the next turn.
Right after a turn that number is computed as zero where a whole period is left, so the sum is
right, and within the accumulated supply, as long as nothing changes an account in the block of
its own turn.
-/

open scoped BigOperators

namespace SophiaTX.Chain

open SophiaTX.Protocol SophiaTX.Lib

namespace AccountHoldings

/-- The turn of an account is at the head. -/
def OnTurn (a : AccountHoldings) (head : ℕ) : Prop :=
  a.id % interestBlocks = head % interestBlocks

instance (a : AccountHoldings) (head : ℕ) : Decidable (a.OnTurn head) := Nat.decEq _ _

/-- Blocks left to the next turn of an account: all of a period after its turn, none while the
turn is due. -/
def blocksLeft (a : AccountHoldings) (due : Bool) (head : ℕ) : ℕ :=
  if a.OnTurn head then (if due then 0 else interestBlocks) else a.toMyTurn head

theorem toMyTurn_of_onTurn {a : AccountHoldings} {head : ℕ} (h : a.OnTurn head) :
    a.toMyTurn head = 0 := by
  unfold OnTurn at h
  simp [toMyTurn, h]

theorem blocksLeft_of_not_onTurn {a : AccountHoldings} {head : ℕ} (h : ¬ a.OnTurn head)
    (due : Bool) : a.blocksLeft due head = a.toMyTurn head := by
  rw [blocksLeft, if_neg h]

theorem toMyTurn_cases (a : AccountHoldings) (head : ℕ) :
    (head % 2400 ≤ a.id % 2400 ∧ a.toMyTurn head = a.id % 2400 - head % 2400) ∨
      (a.id % 2400 < head % 2400 ∧ a.toMyTurn head = a.id % 2400 + 2400 - head % 2400) := by
  by_cases h : head % 2400 ≤ a.id % 2400
  · exact .inl ⟨h, if_pos h⟩
  · exact .inr ⟨not_le.1 h, if_neg h⟩

theorem toMyTurn_congr {a b : AccountHoldings} (h : b.id = a.id) (head : ℕ) :
    b.toMyTurn head = a.toMyTurn head := by
  simp [toMyTurn, h]

theorem toMyTurn_lt (a : AccountHoldings) (head : ℕ) : a.toMyTurn head < interestBlocks := by
  unfold interestBlocks
  rcases a.toMyTurn_cases head with h | h <;> omega

theorem toMyTurn_succ {a : AccountHoldings} {head : ℕ} (h : ¬ a.OnTurn head) :
    a.toMyTurn (head + 1) + 1 = a.toMyTurn head := by
  unfold OnTurn interestBlocks at h
  rcases a.toMyTurn_cases head with hnow | hnow <;>
    rcases a.toMyTurn_cases (head + 1) with hnext | hnext <;> omega

theorem toMyTurn_succ_of_onTurn {a : AccountHoldings} {head : ℕ} (h : a.OnTurn head) :
    a.toMyTurn (head + 1) + 1 = interestBlocks := by
  unfold OnTurn interestBlocks at h
  unfold interestBlocks
  rcases a.toMyTurn_cases (head + 1) with hnext | hnext <;> omega

theorem not_onTurn_succ {a : AccountHoldings} {head : ℕ} (h : a.OnTurn head) :
    ¬ a.OnTurn (head + 1) := by
  simp only [OnTurn, interestBlocks] at h ⊢
  omega

theorem blocksLeft_le (a : AccountHoldings) (due : Bool) (head : ℕ) :
    a.blocksLeft due head ≤ interestBlocks := by
  unfold blocksLeft
  split
  · cases due <;> simp
  · exact (a.toMyTurn_lt head).le

/-- A block later there is a block less. -/
theorem blocksLeft_succ (a : AccountHoldings) (head : ℕ) :
    a.blocksLeft true (head + 1) + 1 = a.blocksLeft false head := by
  by_cases hturn : a.OnTurn head
  · rw [blocksLeft_of_not_onTurn (not_onTurn_succ hturn), toMyTurn_succ_of_onTurn hturn]
    simp [blocksLeft, hturn]
  · rw [blocksLeft_of_not_onTurn hturn, ← toMyTurn_succ hturn]
    by_cases hnext : a.OnTurn (head + 1)
    · simp [blocksLeft, hnext, toMyTurn_of_onTurn hnext]
    · rw [blocksLeft_of_not_onTurn hnext]

/-- The considered holdings without what is still to come at the present total. -/
def considered (a : AccountHoldings) (left : ℕ) : ℤ :=
  a.holdingsConsideredForInterests - a.total * left

/-- Where the next turn is paid, the holdings of an account are those of the blocks since the last
turn, together at most the supplies of these blocks, and the present total for the blocks left. -/
def Bounded (a : AccountHoldings) (delay : ℕ) (due : Bool) (historicSupply : ℕ → ShareType)
    (head : ℕ) : Prop :=
  let left := a.blocksLeft due head
  delay < head + left → 0 ≤ a.considered left ∧
    a.considered left ≤ windowSum interestBlocks historicSupply (head + left - interestBlocks) head

end AccountHoldings

/-! ## Steps that keep the sums -/

/-- The considered holdings of an account as the code would have them at no total. -/
def Database.offset (s : Database) (head : ℕ) (name : AccountName) : ℤ :=
  (s.accounts.find? name).elim 0 fun a ↦ a.considered (a.toMyTurn head)

/-- What an account holds, before and after it exists. -/
def Database.totalOf (s : Database) (name : AccountName) : ShareType :=
  (s.accounts.find? name).elim 0 fun a ↦ a.total

/-- Every change of a total is counted for the blocks left. -/
structure Drift (s s' : Database) : Prop where
  offset : ∀ name, s'.offset s.dgp.headBlockNumber name = s.offset s.dgp.headBlockNumber name
  ids : ∀ name a, s.accounts.find? name = some a →
    ∃ a', s'.accounts.find? name = some a' ∧ a'.id = a.id
  order : InOrder s.accounts → InOrder s'.accounts
  head : s'.dgp.headBlockNumber = s.dgp.headBlockNumber
  history : s.economics.SameHistory s'.economics
  supply : 0 ≤ s.dgp.currentSupply → 0 ≤ s'.dgp.currentSupply

namespace Drift

theorem refl (s : Database) : Drift s s :=
  ⟨fun _ ↦ rfl, fun _ a ha ↦ ⟨a, ha, rfl⟩, id, rfl, .refl _, id⟩

theorem trans {s s₁ s₂ : Database} (h : Drift s s₁) (h' : Drift s₁ s₂) : Drift s s₂ where
  offset name := by
    rw [← h.offset name, ← h.head]
    exact h'.offset name
  ids name a ha := by
    obtain ⟨a₁, ha₁, hid₁⟩ := h.ids name a ha
    obtain ⟨a₂, ha₂, hid₂⟩ := h'.ids name a₁ ha₁
    exact ⟨a₂, ha₂, hid₂.trans hid₁⟩
  order horder := h'.order (h.order horder)
  head := h'.head.trans h.head
  history := ⟨h'.history.historicSupply.trans h.history.historicSupply,
    h'.history.accumulatedSupply.trans h.history.accumulatedSupply⟩
  supply hsupply := h'.supply (h.supply hsupply)

theorem of_accounts {s s' : Database} (haccounts : s'.accounts = s.accounts)
    (hhead : s'.dgp.headBlockNumber = s.dgp.headBlockNumber)
    (hhistory : s.economics.SameHistory s'.economics)
    (hsupply : 0 ≤ s.dgp.currentSupply → 0 ≤ s'.dgp.currentSupply) : Drift s s' where
  offset name := by rw [Database.offset, haccounts, Database.offset]
  ids name a ha := ⟨a, haccounts ▸ ha, rfl⟩
  order horder := haccounts ▸ horder
  head := hhead
  history := hhistory
  supply := hsupply

/-- One account changes, in step with its total. -/
theorem modifyAccount {s : Database} {name : AccountName} {a : Account} (f : Account → Account)
    (dgp : DynamicGlobalProperties) (ha : s.accounts.find? name = some a)
    (hid : (f a).id = a.id)
    (hoffset : (f a).considered (a.toMyTurn s.dgp.headBlockNumber) =
      a.considered (a.toMyTurn s.dgp.headBlockNumber))
    (hhead : dgp.headBlockNumber = s.dgp.headBlockNumber)
    (hsupply : dgp.currentSupply = s.dgp.currentSupply) :
    Drift s ({ s with dgp := dgp }.modifyAccount name f) where
  offset other := by
    rw [Database.offset, Database.modifyAccount, Table.find?_modify]
    split
    · rename_i hother
      rw [hother, ha, Database.offset, ha]
      simpa [AccountHoldings.toMyTurn_congr hid] using hoffset
    · rfl
  ids other c hc := by
    rw [Database.modifyAccount, Table.find?_modify]
    split
    · rename_i hother
      rw [hother, ha] at hc
      cases hc
      exact ⟨f a, by rw [hother, ha, Option.map_some], hid⟩
    · exact ⟨c, hc, rfl⟩
  order := by
    refine InOrder.of_agree (Table.AgreeOn.modify _ _ fun row hrow ↦ ?_)
    rw [ha] at hrow
    cases hrow
    exact hid
  head := hhead
  history := .refl _
  supply h := hsupply ▸ h

end Drift

theorem SameMoney.drift {s s' : Database} (h : SameMoney s s') : Drift s s' where
  offset name := h.accounts.elim_eq name 0
    (fun a ↦ a.considered (a.toMyTurn s.dgp.headBlockNumber)) fun _ ↦ rfl
  ids name a ha := by
    obtain ⟨a', ha', hmoney⟩ := h.accounts.exists_right ha
    have hid : a'.money.id = a.money.id := congrArg (fun m ↦ m.id) hmoney
    exact ⟨a', ha', hid⟩
  order := InOrder.of_agree (h.accounts.map AccountHoldings.id)
  head := h.headBlockNumber
  history := h.economics ▸ .refl _
  supply hsupply := h.currentSupply ▸ hsupply

/-- Moves that follow no rule of their own for the considered holdings. -/
def Move.Ordinary : Move → Prop
  | .advanceHead _ | .payInterest _ _ | .burnVesting _ | .recordBlock _ => False
  | _ => True

theorem Move.Direct.drift {s t : Database} {m : Move} (hm : m.Ordinary) (h : m.Direct s t) :
    Drift s t := by
  cases m with
  | advanceHead _ | payInterest _ _ | burnVesting _ | recordBlock _ => exact hm.elim
  | adjustBalance account amount | createVesting account amount =>
    obtain ⟨a, ha, _, rfl⟩ := h
    refine .modifyAccount _ s.dgp ha rfl ?_ rfl rfl
    simp only [AccountHoldings.considered, Account.credit, AccountHoldings.total]
    ring
  | vest account amount =>
    obtain ⟨a, ha, _, _, rfl⟩ := h
    refine .modifyAccount _ _ ha rfl ?_ rfl rfl
    simp only [AccountHoldings.considered, AccountHoldings.total]
    ring
  | setWithdrawal account amount =>
    obtain ⟨a, rate, next, ha, _, _, _, rfl⟩ := h
    exact .modifyAccount _ s.dgp ha rfl rfl rfl rfl
  | payWithdrawal account =>
    obtain ⟨a, toWithdraw, rate, next, ha, _, _, rfl⟩ := h
    refine .modifyAccount _ _ ha rfl ?_ rfl rfl
    simp only [AccountHoldings.considered, AccountHoldings.total]
    ring
  | createAccount name =>
    obtain ⟨a, accounts, ha, haccounts, rfl⟩ := h
    have hid : a.id = s.accounts.size := congrArg (fun m ↦ m.id) ha
    have hnothing : ∀ left, a.considered left = 0 := by
      intro left
      rw [ha]
      simp [AccountHoldings.considered, AccountHoldings.total, Account.fresh]
    refine ⟨fun other ↦ ?_, fun other c hc ↦ ?_, InOrder.emplace? haccounts hid, rfl, .refl _, id⟩
    · rw [Database.offset, Table.find?_emplace? haccounts]
      split
      · rename_i hother
        rw [hother, Database.offset, (Table.emplace?_eq_some haccounts).1]
        exact hnothing _
      · rfl
    · rw [Table.find?_emplace? haccounts, if_neg]
      · exact ⟨c, hc, rfl⟩
      · rintro rfl
        rw [(Table.emplace?_eq_some haccounts).1] at hc
        cases hc
  | adjustSupply amount =>
    obtain ⟨hsupply, rfl⟩ := h
    exact .of_accounts rfl rfl (.refl _) fun _ ↦ hsupply
  | mintVesting amount =>
    obtain ⟨hamount, rfl⟩ := h
    exact .of_accounts rfl rfl (.refl _) fun hsupply ↦ add_nonneg hsupply hamount
  | changePools amount =>
    obtain ⟨economics, _, hhistory, rfl⟩ := h
    exact .of_accounts rfl rfl hhistory id
  | createEscrow _ _ =>
    obtain ⟨_, _, _, _, rfl⟩ := h
    exact .of_accounts rfl rfl (.refl _) id
  | changeEscrow _ _ _ =>
    obtain ⟨_, _, _, rfl⟩ := h
    exact .of_accounts rfl rfl (.refl _) id
  | removeEscrow _ _ =>
    obtain ⟨_, rfl⟩ := h
    exact .of_accounts rfl rfl (.refl _) id
  | setIrreversible _ =>
    obtain rfl := h
    exact .of_accounts rfl rfl (.refl _) id
  | bookkeeping | createWitness _ | changeProxy _ _ | changeVote _ _ _
  | confirmBlock _ _ | applyHardfork _ =>
    obtain rfl := h
    exact .refl _

/-- A stage none of whose moves is special. -/
theorem Explained.drift {g : GenesisState} {stage : Stage} {s s' : Database}
    {effect : ShareType × ShareType × ShareType} (h : Explained g stage effect s s')
    (hs : Sound s) (hstage : ∀ m, stage.Allows m → m.Ordinary) : Drift s s' := by
  obtain ⟨ms, hms, hallowed, _⟩ := h
  refine (hms.invariant (I := fun t ↦ Sound t ∧ Drift s t) ?_ ⟨hs, .refl s⟩).2
  rintro s₁ m s₂ hm hstep ⟨hs₁, hdrift⟩
  obtain ⟨t, hdirect, hmoney⟩ := Move.Step.direct hstep hs₁.accumulated
  exact ⟨Move.Step.sound hstep hs₁,
    (hdrift.trans (hdirect.drift (hstage m (hallowed m hm)))).trans hmoney.drift⟩

/-! ## The invariant -/

/-- The supply history and the considered holdings of all accounts, given the accounts whose turn
is due by their ids. -/
structure InterestInvariant (delay : ℕ) (due : ℕ → Bool) (s : Database) : Prop where
  supply : 0 ≤ s.dgp.currentSupply
  historic : ∀ slot, 0 ≤ s.economics.historicSupply slot
  accumulated : ∑ slot ∈ Finset.range interestBlocks, s.economics.historicSupply slot ≤
    s.economics.accumulatedSupply
  order : InOrder s.accounts
  accounts : s.accounts.Forall fun _ a ↦
    a.Bounded delay (due a.id) s.economics.historicSupply s.dgp.headBlockNumber

/-- No total of an account on turn changes, when its next turn is paid. -/
def TotalsKept (delay : ℕ) (s s' : Database) : Prop :=
  delay < s.dgp.headBlockNumber + interestBlocks → s'.accounts.Forall fun name a' ↦
    a'.OnTurn s.dgp.headBlockNumber → a'.total = s.totalOf name

instance (delay : ℕ) (s s' : Database) : Decidable (TotalsKept delay s s') :=
  inferInstanceAs (Decidable (_ → _))

/-- Every account whose next turn is paid holds a part of the supply recorded for the head. -/
def WithinSupply (delay : ℕ) (s : Database) : Prop :=
  s.accounts.Forall fun _ a ↦
    delay < s.dgp.headBlockNumber + a.blocksLeft false s.dgp.headBlockNumber → 0 ≤ a.total ∧
      a.total ≤ s.economics.historicSupply (s.dgp.headBlockNumber % interestBlocks)

instance (delay : ℕ) (s : Database) : Decidable (WithinSupply delay s) :=
  inferInstanceAs (Decidable (Table.Forall _ _))

variable {delay : ℕ}

/-- At the blocks left, the considered holdings of an account are those from before. -/
theorem Drift.considered_eq {due : Bool} {s s' : Database} {name : AccountName} {a' : Account}
    (hdrift : Drift s s') (hturn : due = false → TotalsKept delay s s')
    (ha' : s'.accounts.find? name = some a')
    (hpaid : delay < s.dgp.headBlockNumber + a'.blocksLeft due s.dgp.headBlockNumber) :
    a'.considered (a'.blocksLeft due s.dgp.headBlockNumber) =
      (s.accounts.find? name).elim 0 fun a ↦
        a.considered (a.blocksLeft due s.dgp.headBlockNumber) := by
  have hoffset := hdrift.offset name
  rw [Database.offset, Database.offset, ha'] at hoffset
  have hids : ∀ a, s.accounts.find? name = some a → a'.id = a.id := by
    intro a ha
    obtain ⟨b, hb, hid⟩ := hdrift.ids name a ha
    rw [ha'] at hb
    cases hb
    exact hid
  by_cases honTurn : a'.OnTurn s.dgp.headBlockNumber
  · have htotal : due = false → a'.total = s.totalOf name := by
      rintro rfl
      simp only [AccountHoldings.blocksLeft, if_pos honTurn, if_neg Bool.false_ne_true] at hpaid
      exact hturn rfl hpaid name a' ha' honTurn
    cases ha : s.accounts.find? name with
    | none =>
      simp only [Database.totalOf, ha, Option.elim_none, Option.elim_some,
        AccountHoldings.toMyTurn_of_onTurn honTurn] at hoffset htotal
      cases due with
      | true => simpa [AccountHoldings.blocksLeft, honTurn] using hoffset
      | false => simpa [AccountHoldings.considered, htotal rfl] using hoffset
    | some a =>
      have hsame : a.OnTurn s.dgp.headBlockNumber := by
        rw [AccountHoldings.OnTurn, ← hids a ha]
        exact honTurn
      simp only [Database.totalOf, ha, Option.elim_some,
        AccountHoldings.toMyTurn_of_onTurn honTurn, AccountHoldings.toMyTurn_of_onTurn hsame]
        at hoffset htotal
      cases due with
      | true => simpa [AccountHoldings.blocksLeft, honTurn, hsame] using hoffset
      | false =>
        simp only [AccountHoldings.considered, Nat.cast_zero, mul_zero, sub_zero] at hoffset
        simp [AccountHoldings.blocksLeft, honTurn, hsame, AccountHoldings.considered, hoffset,
          htotal rfl]
  · rw [AccountHoldings.blocksLeft_of_not_onTurn honTurn]
    simp only [Option.elim_some] at hoffset
    rw [hoffset]
    cases ha : s.accounts.find? name with
    | none => rfl
    | some a =>
      have hsame : ¬ a.OnTurn s.dgp.headBlockNumber := by
        rw [AccountHoldings.OnTurn, ← hids a ha]
        exact honTurn
      rw [Option.elim_some, Option.elim_some, AccountHoldings.blocksLeft_of_not_onTurn hsame]

/-- The accounts of the batch from an id on. -/
def InterestInvariant.fromId (id : ℕ) : ℕ → Bool := fun other ↦ decide (id ≤ other)

open InterestInvariant (fromId)

/-- Where the next turn of an account is after the delay, its considered holdings without what is
still to come meet `Q`, given the account and the start of its period. -/
structure Counted (delay : ℕ) (Q : AccountName → ℕ → ℤ → Prop) (due : ℕ → Bool) (s : Database) :
    Prop where
  order : InOrder s.accounts
  accounts : s.accounts.Forall fun name a ↦
    let left := a.blocksLeft (due a.id) s.dgp.headBlockNumber
    delay < s.dgp.headBlockNumber + left →
      Q name (s.dgp.headBlockNumber + left - interestBlocks) (a.considered left)

namespace Counted

variable {Q : AccountName → ℕ → ℤ → Prop}

theorem drift {due : ℕ → Bool} {s s' : Database} (h : Counted delay Q due s)
    (hdrift : Drift s s') (hturn : ∀ id, due id = false → TotalsKept delay s s')
    (hfresh : ∀ name lo, lo ≤ s.dgp.headBlockNumber → s.accounts.find? name = none → Q name lo 0) :
    Counted delay Q due s' := by
  refine ⟨hdrift.order h.order, fun name a' ha' ↦ ?_⟩
  rw [hdrift.head]
  intro hleft
  rw [hdrift.considered_eq (hturn a'.id) ha' hleft]
  cases ha : s.accounts.find? name with
  | none =>
    have hle := a'.blocksLeft_le (due a'.id) s.dgp.headBlockNumber
    exact hfresh name _ (by omega) ha
  | some a =>
    obtain ⟨b, hb, hid⟩ := hdrift.ids name a ha
    rw [ha'] at hb
    cases hb
    have hsame : a'.blocksLeft (due a.id) s.dgp.headBlockNumber =
        a.blocksLeft (due a.id) s.dgp.headBlockNumber := by
      simp only [AccountHoldings.blocksLeft, AccountHoldings.OnTurn, hid,
        AccountHoldings.toMyTurn_congr hid]
    have hcounted := h.accounts name a ha
    simp only [hid, hsame] at hcounted hleft ⊢
    exact hcounted hleft

/-- Only the accounts on turn can be due. -/
theorem congr {due due' : ℕ → Bool} {s : Database} (h : Counted delay Q due s)
    (hdue : s.accounts.Forall fun _ a ↦ a.OnTurn s.dgp.headBlockNumber → due' a.id = due a.id) :
    Counted delay Q due' s := by
  refine ⟨h.order, fun name a ha ↦ ?_⟩
  have hcounted := h.accounts name a ha
  by_cases honTurn : a.OnTurn s.dgp.headBlockNumber
  · simp only [hdue name a ha honTurn]
    exact hcounted
  · simp only [AccountHoldings.blocksLeft_of_not_onTurn honTurn] at hcounted ⊢
    exact hcounted

/-- The head moves, and the present total of every account becomes part of the past. -/
theorem advanceHead {R : AccountName → ℕ → ℤ → Prop} {s : Database}
    {dgp : DynamicGlobalProperties} (h : Counted delay Q (fun _ ↦ false) s)
    (hhead : dgp.headBlockNumber = s.dgp.headBlockNumber + 1)
    (hQ : ∀ name a lo x, s.accounts.find? name = some a → lo ≤ s.dgp.headBlockNumber →
      delay < s.dgp.headBlockNumber + a.blocksLeft false s.dgp.headBlockNumber → Q name lo x →
        R name lo (x + a.total)) : Counted delay R (fun _ ↦ true) { s with dgp := dgp } := by
  refine ⟨h.order, fun name a ha ↦ ?_⟩
  have hsucc := a.blocksLeft_succ s.dgp.headBlockNumber
  have hle := a.blocksLeft_le false s.dgp.headBlockNumber
  have hcounted := h.accounts name a ha
  simp only [hhead, ← hsucc] at hcounted hle ⊢
  intro hleft
  have hmore := hQ name a _ _ ha (by omega) (by omega) (hcounted (by omega))
  have hconsidered : a.considered (a.blocksLeft true (s.dgp.headBlockNumber + 1)) =
      a.considered (a.blocksLeft true (s.dgp.headBlockNumber + 1) + 1) + a.total := by
    simp only [AccountHoldings.considered]
    push_cast
    ring
  rw [hconsidered]
  convert hmore using 1
  omega

theorem sameMoney {due : ℕ → Bool} {s s' : Database} (h : Counted delay Q due s)
    (hmoney : SameMoney s s')
    (hfresh : ∀ name lo, lo ≤ s.dgp.headBlockNumber → s.accounts.find? name = none → Q name lo 0) :
    Counted delay Q due s' := by
  refine h.drift hmoney.drift (fun _ _ _ name a' ha' _ ↦ ?_) hfresh
  obtain ⟨a, ha, hrow⟩ := hmoney.accounts.exists_left ha'
  have htotal : a'.money.total = a.money.total := congrArg AccountHoldings.total hrow
  rw [Database.totalOf, ha]
  exact htotal

/-! ### Turns -/

/-- The turn of an account: its considered holdings start again. -/
theorem payInterest {g : GenesisState} {s s' : Database} {name : AccountName} {a : Account}
    {interest : ShareType} (h : Counted delay Q (fromId a.id) s) (hs : Sound s)
    (hbatch : a.OnTurn s.dgp.headBlockNumber) (ha : s.accounts.find? name = some a)
    (hpay : s.payInterest g name a = .ok (s', interest))
    (hstart : Q name s.dgp.headBlockNumber 0)
    (hfresh : ∀ name lo, lo ≤ s.dgp.headBlockNumber → s.accounts.find? name = none → Q name lo 0) :
    Counted delay Q (fromId (a.id + interestBlocks)) s' := by
  obtain ⟨_, economics, _, _, hmoney⟩ := Database.payInterest_money ha hs.accumulated hpay
  refine sameMoney ?_ hmoney fun other lo hlo hnone ↦ hfresh other lo hlo ?_
  · refine ⟨?_, fun other b hb ↦ ?_⟩
    · refine InOrder.of_agree (Table.AgreeOn.modify _ _ fun row hrow ↦ ?_) h.order
      rw [ha] at hrow
      cases hrow
      rfl
    · simp only [Database.modifyAccount, Table.find?_modify] at hb ⊢
      split at hb
      · rename_i hother
        rw [hother, ha, Option.map_some, Option.some.injEq] at hb
        cases hb
        have hlater : fromId (a.id + interestBlocks) (a.afterTurn interest).id = false := by
          simp [fromId, Account.afterTurn, interestBlocks]
        have hturn : (a.afterTurn interest).OnTurn s.dgp.headBlockNumber := hbatch
        intro _
        simp only [hlater, AccountHoldings.blocksLeft, if_pos hturn, if_neg Bool.false_ne_true]
        have hzero : (a.afterTurn interest).considered interestBlocks = 0 := by
          simp only [AccountHoldings.considered, AccountHoldings.total, Account.afterTurn]
          ring
        rw [hzero, Nat.add_sub_cancel, hother]
        exact hstart
      · rename_i hother
        have hcounted := h.accounts other b hb
        by_cases honTurn : b.OnTurn s.dgp.headBlockNumber
        · -- Ids of the batch are a period apart, and no two accounts share one.
          have hne : b.id ≠ a.id := fun hid ↦ hother (h.order.key_eq hb ha hid)
          have hsame : fromId (a.id + interestBlocks) b.id = fromId a.id b.id := by
            have hmod : b.id % 2400 = a.id % 2400 := honTurn.trans hbatch.symm
            refine decide_eq_decide.2 ?_
            unfold interestBlocks
            omega
          rw [hsame]
          exact hcounted
        · simp only [AccountHoldings.blocksLeft_of_not_onTurn honTurn] at hcounted ⊢
          exact hcounted
  · simp only [Database.modifyAccount, Table.find?_modify] at hnone
    split at hnone
    · exact Option.map_eq_none_iff.1 hnone
    · exact hnone

/-- The loop over the batch leaves no account due. -/
theorem payInterests {g : GenesisState} {rounds id : ℕ} {s s' : Database}
    {supplyIncrease total : ShareType} (h : Counted delay Q (fromId id) s) (hs : Sound s)
    (hbatch : id % interestBlocks = s.dgp.headBlockNumber % interestBlocks)
    (hrounds : s.accounts.size ≤ id + rounds)
    (hpay : Database.payInterests g rounds id s supplyIncrease = .ok (s', total))
    (hstart : ∀ name, Q name s.dgp.headBlockNumber 0)
    (hfresh : ∀ name lo, lo ≤ s.dgp.headBlockNumber → s.accounts.find? name = none → Q name lo 0) :
    Counted delay Q (fun _ ↦ false) s' := by
  -- Once the ids are used up, nobody is due.
  have hdone : ∀ {id : ℕ} {s : Database}, Counted delay Q (fromId id) s →
      s.accounts.size ≤ id → Counted delay Q (fun _ ↦ false) s := by
    intro id s h hsize
    refine h.congr fun name a ha _ ↦ ?_
    have hid := h.order.id_lt ha
    simp only [fromId, Bool.false_eq, decide_eq_false_iff_not]
    omega
  induction rounds generalizing id s supplyIncrease with
  | zero =>
    cases hpay
    exact hdone h hrounds
  | succ rounds ih =>
    unfold Database.payInterests at hpay
    split at hpay
    · rename_i hnone
      cases hpay
      exact hdone h (h.order.size_le_of_findAccountById hnone)
    · rename_i name a hfind
      simp only [bind_eq_ok, Prod.exists] at hpay
      obtain ⟨s₁, interest, hturn, increased, _, hpay⟩ := hpay
      obtain ⟨ha, rfl⟩ := Database.find?_of_findAccountById hfind
      obtain ⟨_, _, _, _, hmoney⟩ := Database.payInterest_money ha hs.accumulated hturn
      have hstep : Explained g .processInterests (-interest, 0, -interest) s s₁ :=
        .single (m := .payInterest name interest) ⟨a, ha, hbatch, hturn⟩ rfl
      have hhead : s₁.dgp.headBlockNumber = s.dgp.headBlockNumber := hmoney.headBlockNumber
      have hkeys : s₁.accounts.keys = s.accounts.keys := by
        rw [hmoney.accounts.1]
        exact Table.keys_modify _ _ _
      have hsize : s₁.accounts.size = s.accounts.size := by
        simpa [Table.keys, Table.size] using congrArg List.length hkeys
      refine ih (h.payInterest hs hbatch ha hturn (hstart name) hfresh) (hstep.sound hs) ?_ ?_ hpay
        (hhead ▸ hstart) fun other lo hlo hnone ↦ hfresh other lo (hhead ▸ hlo) ?_
      · rw [hhead, Nat.add_mod_right]
        exact hbatch
      · rw [hsize]
        unfold interestBlocks
        omega
      · rw [Table.find?_eq_none_iff] at hnone ⊢
        exact hkeys ▸ hnone

theorem processInterests {g : GenesisState} {s s' : Database}
    (h : Counted delay Q (fun _ ↦ true) s) (hs : Sound s) (hrun : s.processInterests g = .ok s')
    (hstart : ∀ name, Q name s.dgp.headBlockNumber 0)
    (hfresh : ∀ name lo, lo ≤ s.dgp.headBlockNumber → s.accounts.find? name = none → Q name lo 0) :
    Counted delay Q (fun _ ↦ false) s' := by
  simp only [Database.processInterests, bind_eq_ok, Prod.exists] at hrun
  obtain ⟨s₁, total, hpay, hsupply⟩ := hrun
  have hfirst : Counted delay Q (fromId (s.dgp.headBlockNumber % interestBlocks)) s := by
    refine h.congr fun name a _ honTurn ↦ ?_
    have hbatch : a.id % interestBlocks = s.dgp.headBlockNumber % interestBlocks := honTurn
    rw [fromId, decide_eq_true_eq, ← hbatch]
    exact Nat.mod_le _ _
  have hpaid := hfirst.payInterests hs (Nat.mod_mod _ _) (by omega) hpay hstart hfresh
  obtain ⟨_, _, rfl⟩ := Database.adjustSupply_eq_ok hsupply
  exact ⟨hpaid.order, hpaid.accounts⟩

end Counted

/-- The loop over the batch pays out of the pools and leaves head and history alone. -/
theorem Database.payInterests_history {g : GenesisState} {rounds id : ℕ} {s s' : Database}
    {supplyIncrease total : ShareType} (hs : Sound s)
    (hbatch : id % interestBlocks = s.dgp.headBlockNumber % interestBlocks)
    (hpay : payInterests g rounds id s supplyIncrease = .ok (s', total)) :
    s'.dgp.headBlockNumber = s.dgp.headBlockNumber ∧ s.economics.SameHistory s'.economics := by
  induction rounds generalizing id s supplyIncrease with
  | zero =>
    cases hpay
    exact ⟨rfl, .refl _⟩
  | succ rounds ih =>
    unfold payInterests at hpay
    split at hpay
    · cases hpay
      exact ⟨rfl, .refl _⟩
    · rename_i name a hfind
      simp only [bind_eq_ok, Prod.exists] at hpay
      obtain ⟨s₁, interest, hturn, increased, _, hpay⟩ := hpay
      obtain ⟨ha, rfl⟩ := find?_of_findAccountById hfind
      obtain ⟨_, economics, _, hhistory, hmoney⟩ := payInterest_money ha hs.accumulated hturn
      have hstep : Explained g .processInterests (-interest, 0, -interest) s s₁ :=
        .single (m := .payInterest name interest) ⟨a, ha, hbatch, hturn⟩ rfl
      have hhead : s₁.dgp.headBlockNumber = s.dgp.headBlockNumber := hmoney.headBlockNumber
      have hsame : s.economics.SameHistory s₁.economics := hmoney.economics ▸ hhistory
      have hbatch' : (a.id + interestBlocks) % interestBlocks
          = s₁.dgp.headBlockNumber % interestBlocks := by
        rw [hhead, Nat.add_mod_right]
        exact hbatch
      obtain ⟨hhead', hsame'⟩ := ih (hstep.sound hs) hbatch' hpay
      exact ⟨hhead'.trans hhead, hsame'.historicSupply.trans hsame.historicSupply,
        hsame'.accumulatedSupply.trans hsame.accumulatedSupply⟩

theorem Database.processInterests_history {g : GenesisState} {s s' : Database} (hs : Sound s)
    (hrun : s.processInterests g = .ok s') : s'.dgp.headBlockNumber = s.dgp.headBlockNumber ∧
      s.economics.SameHistory s'.economics ∧ 0 ≤ s'.dgp.currentSupply := by
  simp only [Database.processInterests, bind_eq_ok, Prod.exists] at hrun
  obtain ⟨s₁, total, hpay, hsupply⟩ := hrun
  obtain ⟨hhead, hhistory⟩ := Database.payInterests_history hs (Nat.mod_mod _ _) hpay
  obtain ⟨_, hnonneg, rfl⟩ := Database.adjustSupply_eq_ok hsupply
  exact ⟨hhead, hhistory, hnonneg⟩

namespace InterestInvariant

/-- Considered holdings within the supplies of a window up to the head. -/
def WithinWindow (historicSupply : ℕ → ShareType) (head : ℕ) : AccountName → ℕ → ℤ → Prop :=
  fun _ lo considered ↦
    0 ≤ considered ∧ considered ≤ windowSum interestBlocks historicSupply lo head

theorem withinWindow_zero {historicSupply : ℕ → ShareType} (h : ∀ slot, 0 ≤ historicSupply slot)
    (head : ℕ) (name : AccountName) (lo : ℕ) : WithinWindow historicSupply head name lo 0 :=
  ⟨le_rfl, windowSum_nonneg h _ _⟩

theorem counted {due : ℕ → Bool} {s : Database} (h : InterestInvariant delay due s) :
    Counted delay (WithinWindow s.economics.historicSupply s.dgp.headBlockNumber) due s :=
  ⟨h.order, h.accounts⟩

theorem drift {due : ℕ → Bool} {s s' : Database} (h : InterestInvariant delay due s)
    (hdrift : Drift s s') (hturn : ∀ id, due id = false → TotalsKept delay s s') :
    InterestInvariant delay due s' := by
  have hcounted := h.counted.drift hdrift hturn fun name lo _ _ ↦
    withinWindow_zero h.historic _ name lo
  refine ⟨hdrift.supply h.supply, ?_, ?_, hcounted.order, ?_⟩
  · rw [hdrift.history.historicSupply]
    exact h.historic
  · rw [hdrift.history.historicSupply, hdrift.history.accumulatedSupply]
    exact h.accumulated
  · have haccounts := hcounted.accounts
    simp only [← hdrift.history.historicSupply, ← hdrift.head] at haccounts
    exact haccounts

/-- Only the accounts on turn can be due. -/
theorem congr {due due' : ℕ → Bool} {s : Database} (h : InterestInvariant delay due s)
    (hdue : s.accounts.Forall fun _ a ↦ a.OnTurn s.dgp.headBlockNumber → due' a.id = due a.id) :
    InterestInvariant delay due' s :=
  ⟨h.supply, h.historic, h.accumulated, h.order, (h.counted.congr hdue).accounts⟩

/-! ## The head moves -/

theorem advanceHead {s : Database} {dgp : DynamicGlobalProperties}
    (h : InterestInvariant delay (fun _ ↦ false) s) (hwithin : WithinSupply delay s)
    (hhead : dgp.headBlockNumber = s.dgp.headBlockNumber + 1)
    (hsupply : dgp.currentSupply = s.dgp.currentSupply) :
    InterestInvariant delay (fun _ ↦ true) { s with dgp := dgp } := by
  refine ⟨hsupply ▸ h.supply, h.historic, h.accumulated, h.order, ?_⟩
  refine (h.counted.advanceHead
    (R := WithinWindow s.economics.historicSupply dgp.headBlockNumber) hhead ?_).accounts
  rintro name a lo x ha hlo hpaid ⟨hlower, hupper⟩
  obtain ⟨htotal, htotalLe⟩ := hwithin name a ha hpaid
  rw [hhead]
  refine ⟨add_nonneg hlower htotal, ?_⟩
  rw [windowSum_succ _ hlo]
  exact add_le_add hupper htotalLe

/-- The supply of the head replaces the one from a period before. -/
theorem recordBlock {s : Database} {economics : EconomicModel}
    (h : InterestInvariant delay (fun _ ↦ false) s)
    (hrecord : s.economics.recordBlock s.dgp.headBlockNumber s.dgp.currentSupply = .ok economics) :
    InterestInvariant delay (fun _ ↦ false) { s with economics := economics } := by
  obtain ⟨_, hhistoric, haccumulated, _⟩ := EconomicModel.recordBlock_eq_ok hrecord
  refine ⟨h.supply, fun slot ↦ ?_, ?_, h.order, fun name a ha ↦ ?_⟩
  · simp only [hhistoric, Function.update_apply]
    split
    · exact h.supply
    · exact h.historic slot
  · simp only [hhistoric, haccumulated]
    rw [sum_slots_update _ _ (by decide)]
    have hold := h.historic (s.dgp.headBlockNumber % interestBlocks)
    have hsum := h.accumulated
    split <;> linarith
  · intro hleft
    have hsucc := a.blocksLeft_succ s.dgp.headBlockNumber
    simp only [hhistoric] at hleft ⊢
    rw [windowSum_update _ _ le_rfl (by omega)]
    exact h.accounts name a ha hleft

/-! ## Turns -/

theorem sameMoney {due : ℕ → Bool} {s s' : Database} (h : InterestInvariant delay due s)
    (hmoney : SameMoney s s') : InterestInvariant delay due s' := by
  refine h.drift hmoney.drift fun _ _ _ name a' ha' _ ↦ ?_
  obtain ⟨a, ha, hrow⟩ := hmoney.accounts.exists_left ha'
  have htotal : a'.money.total = a.money.total := congrArg AccountHoldings.total hrow
  rw [Database.totalOf, ha]
  exact htotal

/-- The turn of an account: its considered holdings start again. -/
theorem payInterest {g : GenesisState} {s s' : Database} {name : AccountName} {a : Account}
    {interest : ShareType} (h : InterestInvariant delay (fromId a.id) s) (hs : Sound s)
    (hbatch : a.OnTurn s.dgp.headBlockNumber) (ha : s.accounts.find? name = some a)
    (hpay : s.payInterest g name a = .ok (s', interest)) :
    InterestInvariant delay (fromId (a.id + interestBlocks)) s' := by
  have hcounted := h.counted.payInterest hs hbatch ha hpay (withinWindow_zero h.historic _ _ _)
    fun other lo _ _ ↦ withinWindow_zero h.historic _ other lo
  obtain ⟨_, economics, _, hhistory, hmoney⟩ := Database.payInterest_money ha hs.accumulated hpay
  have hsame : s.economics.SameHistory s'.economics := hmoney.economics ▸ hhistory
  refine ⟨hmoney.currentSupply ▸ h.supply, ?_, ?_, hcounted.order, ?_⟩
  · rw [hsame.historicSupply]
    exact h.historic
  · rw [hsame.historicSupply, hsame.accumulatedSupply]
    exact h.accumulated
  · have haccounts := hcounted.accounts
    have hhead : s'.dgp.headBlockNumber = s.dgp.headBlockNumber := hmoney.headBlockNumber
    simp only [← hsame.historicSupply, ← hhead] at haccounts
    exact haccounts

theorem processInterests {g : GenesisState} {s s' : Database}
    (h : InterestInvariant delay (fun _ ↦ true) s) (hs : Sound s)
    (hrun : s.processInterests g = .ok s') : InterestInvariant delay (fun _ ↦ false) s' := by
  have hcounted := h.counted.processInterests hs hrun
    (fun name ↦ withinWindow_zero h.historic _ name _)
    fun name lo _ _ ↦ withinWindow_zero h.historic _ name lo
  obtain ⟨hhead, hhistory, hsupply⟩ := Database.processInterests_history hs hrun
  refine ⟨hsupply, ?_, ?_, hcounted.order, ?_⟩
  · rw [hhistory.historicSupply]
    exact h.historic
  · rw [hhistory.historicSupply, hhistory.accumulatedSupply]
    exact h.accumulated
  · have haccounts := hcounted.accounts
    simp only [← hhistory.historicSupply, ← hhead] at haccounts
    exact haccounts

end InterestInvariant

end SophiaTX.Chain
