import Mathlib.Data.List.TakeWhile
import SophiaTX.Ownership.NullAccount
import SophiaTX.Vesting.DueAccounts

/-!
# What a withdrawal pays out

A request for a positive amount that is accepted is paid out to the last unit, whatever the times
of the blocks are: every payout is positive, they add up to the amount, and then the request is
over.
-/

namespace SophiaTX.Chain

open SophiaTX.Protocol SophiaTX.Lib

/-! ## One account -/

/-- A request for `n` after some payouts: it goes on as long as they make less than `n`, and is over
when they make `n`. -/
structure AccountHoldings.Paid (a : AccountHoldings) (n : ShareType) (payouts : List ShareType) :
    Prop where
  requested : a.toWithdraw = n
  positive : ∀ payout ∈ payouts, 0 < payout
  withdrawn : a.withdrawn = payouts.sum
  state : a.vestingWithdrawRate ≠ 0 ∧ payouts.sum < n ∨
    a.vestingWithdrawRate = 0 ∧ a.nextVestingWithdrawal = maximumTime ∧ payouts.sum = n

namespace AccountHoldings

open Database

variable {a a' : Account} {n toWithdraw : ShareType} {payouts : List ShareType}

theorem Paid.congr (h : a.Paid n payouts) (hsame : a'.request = a.request) :
    a'.Paid n payouts := by
  simp only [request, Prod.mk.injEq] at hsame
  obtain ⟨hrate, hnext, hto, hwithdrawn⟩ := hsame
  refine ⟨hto.trans h.requested, h.positive, hwithdrawn.trans h.withdrawn, ?_⟩
  rw [hrate, hnext]
  exact h.state

/-- A payout without a running request leaves the row as it is. -/
theorem Funded.payout_idle (ha : a.Funded) (hrate : a.vestingWithdrawRate = 0)
    (hamount : withdrawalAmount a = .ok toWithdraw)
    (h : withdrawFromAccount a toWithdraw = .ok a') : a'.request = a.request := by
  obtain ⟨rfl, hdone⟩ := ha.amount_of_idle hrate hamount
  obtain ⟨_, hsum, hpaid, hstate⟩ := withdrawFromAccount_eq_ok h
  rw [add_zero] at hpaid
  simp only [request, hsum, hpaid, Prod.mk.injEq, and_true]
  rcases hstate with ⟨hzero, hnever, _⟩ | ⟨_, _, hmore, _⟩
  · exact ⟨hzero.trans hrate.symm, hnever.trans (ha.scheduled.idle hrate).symm⟩
  · rw [hpaid, hdone] at hmore
    exact absurd hmore (lt_irrefl _)

/-- A payout of the running request. -/
theorem Paid.payout (h : a.Paid n payouts) (hn : 0 < n) (ha : a.Funded)
    (hrate : a.vestingWithdrawRate ≠ 0) (hamount : withdrawalAmount a = .ok toWithdraw)
    (hpaid : withdrawFromAccount a toWithdraw = .ok a') : a'.Paid n (payouts ++ [toWithdraw]) := by
  have hpositive : 0 < a.toWithdraw := h.requested ▸ hn
  obtain ⟨hsome, hstate⟩ := ha.pays hrate hpositive hamount hpaid
  obtain ⟨_, hsum, hwithdrawn, _⟩ := withdrawFromAccount_eq_ok hpaid
  have htotal : a'.withdrawn = (payouts ++ [toWithdraw]).sum := by
    rw [List.sum_append, List.sum_singleton, hwithdrawn, h.withdrawn]
  refine ⟨hsum.trans h.requested, ?_, htotal, ?_⟩
  · intro payout hmem
    rw [List.mem_append, List.mem_singleton] at hmem
    rcases hmem with hearlier | rfl
    · exact h.positive payout hearlier
    · exact hsome
  · rw [← htotal]
    rcases hstate with ⟨hzero, hnever, hall⟩ | ⟨hsame, hmore⟩
    · exact .inr ⟨hzero, hnever, hall.trans h.requested⟩
    · exact .inl ⟨hsame ▸ hrate, h.requested ▸ hmore⟩

end AccountHoldings

/-! ## All accounts -/

/-- All requests are funded, and the null account has made none. -/
structure RequestsFunded (s : Database) : Prop where
  accounts : s.accounts.Forall fun _ a ↦ a.Funded
  null : ∀ a, s.accounts.find? nullAccount = some a → a.Unrequested

namespace RequestsFunded

variable {s s' : Database}

/-- A step that takes vesting shares from the null account at most. -/
theorem tended (h : RequestsFunded s) (htended : Tended (fun name ↦ name ≠ nullAccount) s s') :
    RequestsFunded s' := by
  refine ⟨fun name a' ha' ↦ ?_, fun a' ha' ↦ ?_⟩
  · rcases htended.origin name a' ha' with ⟨a, ha, hrequest, hle | ⟨hnull, hshares⟩⟩ | ⟨_, hnew⟩
    · exact (h.accounts name a ha).mono hrequest hle
    · have hname : name = nullAccount := not_not.1 hnull
      have hunrequested : a'.Unrequested := hrequest.trans (h.null a (hname ▸ ha))
      exact hunrequested.funded hshares
    · exact hnew.1.funded hnew.2
  · rcases htended.origin nullAccount a' ha' with ⟨a, ha, hrequest, _⟩ | ⟨_, hnew, _⟩
    · exact hrequest.trans (h.null a ha)
    · exact hnew

theorem modifyAccount {name : AccountName} {a : Account} {f : Account → Account}
    (h : RequestsFunded s) (ha : s.accounts.find? name = some a) (hfunded : (f a).Funded)
    (hnull : name = nullAccount → (f a).Unrequested)
    (haccounts : s'.accounts = s.accounts.modify name f) : RequestsFunded s' := by
  refine ⟨?_, fun b hb ↦ ?_⟩
  · rw [haccounts]
    refine h.accounts.modify name fun b hb _ ↦ ?_
    cases ha.symm.trans hb
    exact hfunded
  · rw [haccounts, Table.find?_modify] at hb
    split at hb
    · rename_i hname
      rw [hname, ha, Option.map_some, Option.some.injEq] at hb
      exact hb ▸ hnull hname.symm
    · exact h.null b hb

/-- A payout to an account. -/
theorem visit {entry : AccountName × Account} (h : RequestsFunded s)
    (ha : s.accounts.find? entry.1 = some entry.2)
    (hvisit : Database.withdrawalSweep.visit s entry = .ok s') : RequestsFunded s' := by
  obtain ⟨_, a', hamount, hpaid, haccounts, _⟩ := Database.processVestingWithdrawal_row hvisit
  have hfunded := h.accounts _ _ ha
  refine h.modifyAccount ha (hfunded.payout hamount hpaid) (fun hname ↦ ?_) haccounts
  have hunrequested : entry.2.Unrequested := h.null entry.2 (hname ▸ ha)
  have hrate : entry.2.vestingWithdrawRate = 0 := congrArg Prod.fst hunrequested
  exact (hfunded.payout_idle hrate hamount hpaid).trans hunrequested

end RequestsFunded

/-! ## Payouts of a run -/

/-- The payouts of a request of an account among the visits of a sweep. -/
def payoutsTo (name : AccountName) (visits : List (Database × (AccountName × Account))) :
    List ShareType :=
  visits.filterMap fun visit ↦
    if visit.2.1 = name ∧ visit.2.2.vestingWithdrawRate ≠ 0 then
      (Database.withdrawalAmount visit.2.2).toOption
    else none

/-- What `process_vesting_withdrawals` pays an account for its request in a stage. -/
def Stage.payouts (name : AccountName) (s : Database) : Stage → List ShareType
  | .processVestingWithdrawals =>
    if s.dgp.privateNet then [] else payoutsTo name s.vestingWithdrawals
  | _ => []

/-- The amount an account asks for in a stage. -/
def Stage.requested (name : AccountName) : Stage → Option ShareType
  | .operation _ op =>
    match op.op with
    | .withdrawVesting account vestingShares =>
      if account = name then some vestingShares.amount else none
    | _ => none
  | _ => none

/-- A stage in which a payout of a running request is due. -/
def Stage.isDue (name : AccountName) (s : Database) : Stage → Bool
  | .processVestingWithdrawals =>
    match s.accounts.find? name with
    | some a => !s.dgp.privateNet &&
      decide (a.vestingWithdrawRate ≠ 0 ∧ a.nextVestingWithdrawal ≤ s.dgp.time)
    | none => false
  | _ => false

/-- The payouts of some moments, which come with the newest first. -/
def payoutsIn (name : AccountName) : List Moment → List ShareType
  | [] => []
  | moment :: older => payoutsIn name older ++ moment.2.payouts name moment.1

/-- The moments in which a payout was due. -/
def dueIn (name : AccountName) (moments : List Moment) : ℕ :=
  moments.countP fun moment ↦ moment.2.isDue name moment.1

variable {ctx : Context} {s s' s₀ : Database} {stage : Stage} {name : AccountName} {n : ShareType}
  {payouts : List ShareType}

theorem payoutsTo_append (visits later : List (Database × (AccountName × Account))) :
    payoutsTo name (visits ++ later) = payoutsTo name visits ++ payoutsTo name later :=
  List.filterMap_append

/-- A request of an account in a state, after some payouts. -/
def PaidIn (name : AccountName) (n : ShareType) (payouts : List ShareType) (s : Database) : Prop :=
  ∃ a, s.accounts.find? name = some a ∧ a.Paid n payouts

theorem PaidIn.visit {entry : AccountName × Account} (h : PaidIn name n payouts s) (hn : 0 < n)
    (hfunded : RequestsFunded s) (hentry : s.accounts.find? entry.1 = some entry.2)
    (hvisit : Database.withdrawalSweep.visit s entry = .ok s') :
    PaidIn name n (payouts ++ payoutsTo name [(s, entry)]) s' := by
  obtain ⟨a, ha, hpaid⟩ := h
  obtain ⟨toWithdraw, a', hamount, hpay, haccounts, _⟩ :=
    Database.processVestingWithdrawal_row hvisit
  by_cases hname : entry.1 = name
  · have hrow : entry.2 = a := by
      rw [hname, ha] at hentry
      exact (Option.some.inj hentry).symm
    refine ⟨a', by rw [haccounts, hname, Table.find?_modify_self, ha, Option.map_some], ?_⟩
    rw [hrow] at hamount hpay
    have ha' := hfunded.accounts name a ha
    by_cases hrate : a.vestingWithdrawRate = 0
    · have hnone : payoutsTo name [(s, entry)] = [] := by
        simp [payoutsTo, hrow, hrate]
      rw [hnone, List.append_nil]
      exact hpaid.congr (ha'.payout_idle hrate hamount hpay)
    · have hone : payoutsTo name [(s, entry)] = [toWithdraw] := by
        simp [payoutsTo, hname, hrow, hrate, hamount, Except.toOption]
      rw [hone]
      exact hpaid.payout hn ha' hrate hamount hpay
  · have hnone : payoutsTo name [(s, entry)] = [] := by
      simp [payoutsTo, hname]
    rw [hnone, List.append_nil]
    refine ⟨a, ?_, hpaid⟩
    rw [haccounts, Table.find?_modify_of_ne _ _ (Ne.symm hname)]
    exact ha

/-- What the sweep leaves of all requests. -/
theorem RequestsFunded.sweep (h : RequestsFunded s) (hrun : s.processVestingWithdrawals = .ok s') :
    RequestsFunded s' ∧ ∀ name n payouts, 0 < n → PaidIn name n payouts s →
      PaidIn name n (payouts ++ payoutsTo name s.vestingWithdrawals) s' := by
  have hends := s.processVestingWithdrawals_ends
  rw [hrun] at hends
  have hinvariant := hends.invariant (J := fun past cursor u ↦ Database.CursorOnRow cursor u ∧
    RequestsFunded u ∧ ∀ name n payouts, 0 < n → PaidIn name n payouts s →
      PaidIn name n (payouts ++ payoutsTo name past) u) ?_ ?_
  · obtain ⟨_, ⟨_, hfunded, hpaid⟩, _⟩ := hinvariant
    exact ⟨hfunded, hpaid⟩
  · rintro past u entry u' ⟨hcursor, hfunded, hpaid⟩ _ hvisit
    have hentry := hcursor entry rfl
    have hrow : u.accounts.find? entry.1 = some entry.2 := (Table.find?_eq_some_iff _ _ _).2 hentry
    refine ⟨Database.cursorOnRow_next hentry hvisit, hfunded.visit hrow hvisit, ?_⟩
    intro name n payouts hn hstart
    rw [payoutsTo_append, ← List.append_assoc]
    exact (hpaid name n payouts hn hstart).visit hn hfunded hrow hvisit
  · refine ⟨fun entry hfirst ↦ Database.firstWithdrawal_mem hfirst, h,
      fun name n payouts _ hstart ↦ ?_⟩
    rw [show payoutsTo name [] = [] from rfl, List.append_nil]
    exact hstart

theorem PaidIn.tended {P : AccountName → Prop} (h : PaidIn name n payouts s)
    (htended : Tended P s s') : PaidIn name n payouts s' := by
  obtain ⟨a, ha, hpaid⟩ := h
  obtain ⟨a', ha', hrequest, _⟩ := htended.exists_right ha
  exact ⟨a', ha', hpaid.congr hrequest⟩

/-! ## Stages -/

/-- What a stage does to requests: it makes one, or pays what is due. -/
structure RequestsServed (s : Database) (stage : Stage) (s' : Database) : Prop where
  funded : RequestsFunded s'
  made : ∀ name n, 0 < n → stage.requested name = some n → PaidIn name n [] s'
  paid : ∀ name n payouts, 0 < n → stage.requested name = none → PaidIn name n payouts s →
    PaidIn name n (payouts ++ stage.payouts name s) s'

/-- A stage that neither makes requests nor pays any. -/
theorem RequestsFunded.served (h : RequestsFunded s)
    (htended : Tended (fun name ↦ name ≠ nullAccount) s s')
    (hrequested : ∀ name, stage.requested name = none)
    (hpayouts : ∀ name, stage.payouts name s = []) : RequestsServed s stage s' where
  funded := h.tended htended
  made name n _ hmade := by
    rw [hrequested name] at hmade
    cases hmade
  paid name n payouts _ _ hpaid := by
    rw [hpayouts name, List.append_nil]
    exact hpaid.tended htended

theorem RequestsFunded.withdrawVesting {trx : Transaction} {op : FeeOperation}
    {account : AccountName} {vestingShares : Asset} (h : RequestsFunded s) (hs : Sound s)
    (hop : op.op = .withdrawVesting account vestingShares) (hnull : account ≠ nullAccount)
    (hrun : Stage.run ctx s (.operation trx op) = .ok s') :
    RequestsServed s (.operation trx op) s' := by
  simp only [Stage.run, Database.applyOperation, hop, bind_eq_ok] at hrun
  obtain ⟨s₁, hfee, heval⟩ := hrun
  have htended : Tended (fun name ↦ name ≠ nullAccount) s s₁ :=
    Database.processOperationFee_tended hs hfee
  obtain ⟨a, f, ha, rfl, hfunded, hpositive⟩ := Database.withdrawVestingEvaluator_funded heval
  have hrequested : ∀ name, Stage.requested name (.operation trx op) =
      if account = name then some vestingShares.amount else none := by
    intro name
    simp only [Stage.requested, hop]
  refine ⟨?_, fun name n hn hmade ↦ ?_, fun name n payouts hn hnone hpaid ↦ ?_⟩
  · exact (h.tended htended).modifyAccount ha hfunded (fun hname ↦ absurd hname hnull) rfl
  · rw [hrequested] at hmade
    split at hmade
    · rename_i hname
      obtain rfl := Option.some.inj hmade
      obtain ⟨hrate, hsum, hnothing⟩ := hpositive hn
      refine ⟨f a, ?_, hsum, by simp, hnothing, .inl ⟨hrate, hn⟩⟩
      rw [Database.modifyAccount, ← hname, Table.find?_modify_self, ha, Option.map_some]
    · cases hmade
  · rw [hrequested] at hnone
    split at hnone
    · cases hnone
    · rename_i hname
      obtain ⟨b, hb, hpaid⟩ := hpaid.tended htended
      rw [show Stage.payouts name s (.operation trx op) = [] from rfl, List.append_nil]
      refine ⟨b, ?_, hpaid⟩
      rw [Database.modifyAccount, Table.find?_modify_of_ne _ _ (Ne.symm hname)]
      exact hb

theorem RequestsFunded.payStage (h : RequestsFunded s)
    (hrun : Stage.run ctx s .processVestingWithdrawals = .ok s') :
    RequestsServed s .processVestingWithdrawals s' := by
  simp only [Stage.run, onPublicNet] at hrun
  split at hrun
  · rename_i hprivate
    obtain rfl := pure_eq_ok.1 hrun
    exact h.served (.refl s) (fun _ ↦ rfl) fun _ ↦ if_pos hprivate
  · rename_i hpublic
    obtain ⟨hfunded, hpaid⟩ := h.sweep hrun
    refine ⟨hfunded, fun _ _ _ hmade ↦ (by cases hmade), fun name n payouts hn _ hstart ↦ ?_⟩
    rw [Stage.payouts, if_neg hpublic]
    exact hpaid name n payouts hn hstart

theorem RequestsFunded.step (h : RequestsFunded s) (hs : Sound s) (hvalid : stage.Valid ctx)
    (hneeds : ∀ trx op, stage = .operation trx op → ¬ Operation.NeedsNull op.op)
    (hrun : stage.run ctx s = .ok s') : RequestsServed s stage s' := by
  have hquiet : (∀ trx op account amount, stage = .operation trx op →
      op.op ≠ .withdrawVesting account amount) → stage ≠ .processVestingWithdrawals →
      Tended (fun name ↦ name ≠ nullAccount) s s' := fun hrequest hpayouts ↦
    (Stage.tended hs hvalid hrun hrequest hpayouts).mono fun _ hname _ ↦ hname
  cases stage with
  | operation trx op =>
    by_cases hrequest : ∃ account amount, op.op = .withdrawVesting account amount
    · obtain ⟨account, vestingShares, hop⟩ := hrequest
      refine h.withdrawVesting hs hop ?_ hrun
      rintro rfl
      refine hneeds trx op rfl (.inl ?_)
      rw [hop]
      exact List.mem_singleton_self _
    · have hother : ∀ account amount, op.op ≠ .withdrawVesting account amount :=
        fun account amount hop ↦ hrequest ⟨account, amount, hop⟩
      have hrequested : ∀ name, Stage.requested name (.operation trx op) = none := by
        intro name
        simp only [Stage.requested]
      refine h.served (hquiet ?_ (by simp)) hrequested fun _ ↦ rfl
      rintro _ _ account amount ⟨⟩
      exact hother account amount
  | processVestingWithdrawals => exact h.payStage hrun
  | _ => exact h.served (hquiet (by simp) (by simp)) (fun _ ↦ rfl) fun _ ↦ rfl

/-- A payout that is due is made. -/
theorem payouts_of_isDue (hrun : stage.run ctx s = .ok s') (hdue : stage.isDue name s = true) :
    stage.payouts name s ≠ [] := by
  cases stage with
  | processVestingWithdrawals =>
    simp only [Stage.isDue] at hdue
    split at hdue
    · rename_i a ha
      simp only [Bool.and_eq_true, Bool.not_eq_true', decide_eq_true_eq] at hdue
      obtain ⟨hpublic, hrate, hnext⟩ := hdue
      simp only [Stage.run, onPublicNet, hpublic, Bool.false_eq_true, if_false] at hrun
      obtain ⟨⟨u, entry⟩, hmem, rfl⟩ := Database.due_account_visited hrun ha hnext
      have hends := s.processVestingWithdrawals_ends
      obtain ⟨_, _, hvisit⟩ := hends.visited hmem
      obtain ⟨toWithdraw, _, hamount, _⟩ := Database.processVestingWithdrawal_row hvisit
      have hpaid : toWithdraw ∈ payoutsTo name s.vestingWithdrawals := by
        refine List.mem_filterMap.2 ⟨_, hmem, ?_⟩
        dsimp only at hamount ⊢
        rw [if_pos ⟨rfl, hrate⟩, hamount]
        rfl
      simp only [Stage.payouts, hpublic, Bool.false_eq_true, if_false]
      exact List.ne_nil_of_mem hpaid
    · cases hdue
  | _ => cases hdue

theorem initGenesis_requestsFunded {g : GenesisState} (h : initGenesis g = .ok s) :
    RequestsFunded s := by
  have hbooks := initGenesis_books h
  have hrows : ∀ name a, s.accounts.find? name = some a →
      a.Unrequested ∧ a.vestingShares = 0 := by
    intro name a ha
    obtain ⟨_, _, hholdings⟩ := hbooks.rows name a ha
    rw [hholdings]
    exact ⟨rfl, rfl⟩
  refine ⟨fun name a ha ↦ ?_, fun a ha ↦ (hrows _ a ha).1⟩
  exact (hrows name a ha).1.funded (hrows name a ha).2.ge

/-! ## Runs -/

/-- The requests that were made in a run and not replaced since, with what has been paid of them. -/
def RequestsKept (past : List Moment) (s : Database) : Prop :=
  ∀ name n later request older, past = later ++ request :: older →
    request.2.requested name = some n → 0 < n →
    (∀ moment ∈ later, moment.2.requested name = none) →
    PaidIn name n (payoutsIn name later) s ∧ dueIn name later ≤ (payoutsIn name later).length

theorem RequestsKept.step {past : List Moment} (h : RequestsKept past s)
    (hserved : RequestsServed s stage s') (hrun : stage.run ctx s = .ok s') :
    RequestsKept ((s, stage) :: past) s' := by
  intro name n later request older hpast hrequest hn hlater
  cases later with
  | nil =>
    obtain ⟨rfl, rfl⟩ := List.cons.inj hpast
    exact ⟨hserved.made name n hn hrequest, le_rfl⟩
  | cons moment later =>
    obtain ⟨rfl, holder⟩ := List.cons.inj hpast
    rw [List.forall_mem_cons] at hlater
    obtain ⟨hpaid, hdue⟩ := h name n later request older holder hrequest hn hlater.2
    refine ⟨hserved.paid name n _ hn hlater.1 hpaid, ?_⟩
    calc dueIn name ((s, stage) :: later)
        = dueIn name later + if stage.isDue name s then 1 else 0 := List.countP_cons
      _ ≤ (payoutsIn name later).length + (stage.payouts name s).length := by
          refine Nat.add_le_add hdue ?_
          split
          · rename_i hstage
            exact List.length_pos_iff.2 (payouts_of_isDue hrun hstage)
          · exact Nat.zero_le _
      _ = (payoutsIn name ((s, stage) :: later)).length := List.length_append.symm

/-- In every state of a run an account with a next payout has a rate, and the loop over the due
accounts ends. Since a request for a positive amount was accepted, every payout has been positive,
they add up to less than the amount while it goes on and to all of it when it is over, and there
has been one whenever one was due. -/
theorem withdrawal_pays_exactly (hskip : ctx.skip.validate = false) {past : List Moment}
    {pending : Option (List Stage)} (hgenesis : initGenesis ctx.genesis = .ok s₀)
    (h : Chronicle ctx (NullVerified ctx) s₀ past pending s) :
    (∀ name a, s.accounts.find? name = some a → a.nextVestingWithdrawal < maximumTime →
      a.vestingWithdrawRate ≠ 0) ∧
    Database.withdrawalSweep.Ends (Database.firstWithdrawal s.accounts.entries) s
      s.vestingWithdrawals s.processVestingWithdrawals ∧
    ∀ name n later request older, past = later ++ request :: older →
      request.2.requested name = some n → 0 < n →
      (∀ moment ∈ later, moment.2.requested name = none) →
      ∃ a, s.accounts.find? name = some a ∧ a.Paid n (payoutsIn name later) ∧
        dueIn name later ≤ (payoutsIn name later).length := by
  have hinvariant : Sound s ∧ RequestsFunded s ∧ RequestsKept past s := by
    have hneeds := (h.nullLocked (initGenesis_nullLocked hgenesis)).2.2
    induction h with
    | refl =>
      refine ⟨(initGenesis_books hgenesis).sound, initGenesis_requestsFunded hgenesis, ?_⟩
      intro name n later request older hpast
      exact absurd hpast.symm (by simp)
    | start _ _ ih => exact ih hneeds
    | stage h hC hrun ih =>
      rw [List.forall_mem_cons] at hneeds
      obtain ⟨hs, hfunded, hkept⟩ := ih hneeds.2
      have hvalid := (h.runsFrom.guarded hskip).head
      have hserved := hfunded.step hs hvalid hneeds.1 hrun
      exact ⟨Stage.sound hs hvalid hrun, hserved.funded, hkept.step hserved hrun⟩
    | finish _ _ ih => exact ih hneeds
  obtain ⟨_, hfunded, hkept⟩ := hinvariant
  refine ⟨fun name a ha hnext hrate ↦ ?_, s.processVestingWithdrawals_ends, ?_⟩
  · exact hnext.ne ((hfunded.accounts name a ha).scheduled.idle hrate)
  · intro name n later request older hpast hrequest hn hlater
    obtain ⟨⟨a, ha, hpaid⟩, hdue⟩ := hkept name n later request older hpast hrequest hn hlater
    exact ⟨a, ha, hpaid, hdue⟩

/-- A stage that fails where a transaction acts for the null account. -/
def nullStage (ctx : Context) (s : Database) : Stage → Exec Database
  | .openTransaction trx => do
    fcAssert (∀ op ∈ trx.operations, ¬ Operation.NeedsNull op.op) "null account"
    Stage.run ctx s (.openTransaction trx)
  | stage => stage.run ctx s

theorem nullStage_eq_ok (h : nullStage ctx s stage = .ok s') :
    NullVerified ctx s stage ∧ stage.run ctx s = .ok s' := by
  cases stage with
  | openTransaction trx =>
    simp only [nullStage, bind_eq_ok, fcAssert_eq_ok] at h
    obtain ⟨_, hquiet, hrun⟩ := h
    refine ⟨?_, hrun⟩
    rintro ⟨op, hop, hneeds⟩
    exact absurd hneeds (hquiet op hop)
  | _ => exact ⟨trivial, h⟩

/-- An account of the hourly network vests 30 and asks for 2 of it, in a block that is followed by
two more a day each later. -/
def smallWithdrawal : List SignedBlock :=
  let first := devBlock .null 1531515600
    [devTransaction 1531516000 8 (.transferToVesting 1000 1000 ⟨30, sophiatxSymbol⟩),
      devTransaction 1531516001 8 (.withdrawVesting 1000 ⟨2, vestsSymbol⟩)]
  let second := devBlock (devEnv.blockId first) 1531598400 []
  [first, second, devBlock (devEnv.blockId second) 1531684800 []]

/-- The small withdrawal is paid out in two days. -/
theorem withdrawal_pays_exactly_in_two_days :
    ∃ s₀ s past later request older a, initGenesis hourlyGenesis = .ok s₀ ∧
      Chronicle (devContext hourlyGenesis) (NullVerified (devContext hourlyGenesis)) s₀ past none
        s ∧ past = later ++ request :: older ∧ request.2.requested 1000 = some 2 ∧
      s.accounts.find? 1000 = some a ∧ a.Paid 2 [1, 1] ∧ a.vestingWithdrawRate = 0 ∧
      dueIn 1000 later = 2 := by
  have hok : okAnd (initGenesis hourlyGenesis) (fun s₀ ↦
      okAnd (recordBlocks (devContext hourlyGenesis) (nullStage (devContext hourlyGenesis))
        smallWithdrawal ([], s₀)) fun recorded ↦
          let quiet := fun moment : Moment ↦ decide (moment.2.requested 1000 = none)
          decide ((recorded.1.dropWhile quiet).head?.bind
              (fun moment ↦ moment.2.requested 1000) = some 2 ∧
            payoutsIn 1000 (recorded.1.takeWhile quiet) = [1, 1] ∧
            dueIn 1000 (recorded.1.takeWhile quiet) = 2)) = true := by decide +kernel
  obtain ⟨s₀, hgenesis, hs₀⟩ := exists_of_okAnd hok
  obtain ⟨⟨past, s⟩, hblocks, hs⟩ := exists_of_okAnd hs₀
  obtain ⟨hrequest, hpayouts, hdue⟩ := of_decide_eq_true hs
  have hchronicle : Chronicle (devContext hourlyGenesis)
      (NullVerified (devContext hourlyGenesis)) s₀ past none s :=
    Chronicle.recordBlocks (fun _ _ _ ↦ nullStage_eq_ok) .refl hblocks
  obtain ⟨request, hhead, hasked⟩ := Option.bind_eq_some_iff.1 hrequest
  obtain ⟨older, hrest⟩ := List.head?_eq_some_iff.1 hhead
  have hsplit := (List.takeWhile_append_dropWhile
    (p := fun moment : Moment ↦ decide (moment.2.requested 1000 = none)) (l := past)).symm
  rw [hrest] at hsplit
  have hlater : ∀ moment ∈ past.takeWhile fun moment ↦ decide (moment.2.requested 1000 = none),
      moment.2.requested 1000 = none := by
    intro moment hmoment
    have hquiet := List.mem_takeWhile_imp
      (p := fun moment : Moment ↦ decide (moment.2.requested 1000 = none)) hmoment
    exact of_decide_eq_true hquiet
  have hskip : (devContext hourlyGenesis).skip.validate = false := rfl
  obtain ⟨_, _, hexact⟩ := withdrawal_pays_exactly hskip hgenesis hchronicle
  obtain ⟨a, ha, hpaid, _⟩ :=
    hexact 1000 2 _ request older hsplit hasked (by decide) hlater
  rw [hpayouts] at hpaid
  refine ⟨s₀, s, past, _, request, older, a, hgenesis, hchronicle, hsplit, hasked, ha, hpaid, ?_,
    hdue⟩
  rcases hpaid.state with ⟨_, hless⟩ | ⟨hrate, _⟩
  · exact absurd hless (by decide)
  · exact hrate

end SophiaTX.Chain
