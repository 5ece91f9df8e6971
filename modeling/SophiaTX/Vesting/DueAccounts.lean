import Mathlib.Algebra.Order.BigOperators.Group.List
import Mathlib.Data.Prod.Lex
import Mathlib.Tactic.SplitIfs
import SophiaTX.Lib.Sweep
import SophiaTX.Vesting.Requests

/-!
# The loop over due accounts

`process_vesting_withdrawals` sweeps the accounts in the order of their next payout, and every
payout moves the account in that order. The cursor only moves forward, and an account that stays
ahead of it has been moved on by a day or for good, so the sweep ends; and no account that was due
is left out.
-/

namespace SophiaTX.Chain

open SophiaTX.Protocol SophiaTX.Lib

/-! ## The order of next payouts -/

/-- The place of an account in the index of next withdrawals. -/
def withdrawalKey (entry : AccountName × Account) : ℕ ×ₗ ℕ :=
  toLex (entry.2.nextVestingWithdrawal, entry.1)

namespace Database

theorem withdrawalBefore_iff {a b : AccountName × Account} :
    withdrawalBefore a b ↔ withdrawalKey a < withdrawalKey b := by
  rw [withdrawalBefore, withdrawalKey, withdrawalKey, Prod.Lex.toLex_lt_toLex]

theorem earlierWithdrawal_le {first : Option (AccountName × Account)}
    {entry e : AccountName × Account} (h : earlierWithdrawal first entry = some e) :
    withdrawalKey e ≤ withdrawalKey entry ∧
      ∀ best, first = some best → withdrawalKey e ≤ withdrawalKey best := by
  cases first with
  | none =>
    obtain rfl := Option.some.inj h
    exact ⟨le_rfl, by simp⟩
  | some best =>
    simp only [earlierWithdrawal, withdrawalBefore_iff] at h
    split_ifs at h with hbefore
    · obtain rfl := Option.some.inj h
      refine ⟨le_rfl, ?_⟩
      rintro _ ⟨⟩
      exact hbefore.le
    · obtain rfl := Option.some.inj h
      refine ⟨not_lt.1 hbefore, ?_⟩
      rintro _ ⟨⟩
      exact le_rfl

/-- The first account of the index comes before all others. -/
theorem firstWithdrawal_le {entries : List (AccountName × Account)}
    {first entry : AccountName × Account} (h : firstWithdrawal entries = some first)
    (hentry : entry ∈ entries) : withdrawalKey first ≤ withdrawalKey entry := by
  have hfold : ∀ (l : List (AccountName × Account)) (start : Option (AccountName × Account)),
      l.foldl earlierWithdrawal start = some first →
        (∀ e ∈ l, withdrawalKey first ≤ withdrawalKey e) ∧
          ∀ e, start = some e → withdrawalKey first ≤ withdrawalKey e := by
    intro l
    induction l with
    | nil =>
      intro start hstart
      refine ⟨by simp, fun e he ↦ ?_⟩
      rw [List.foldl_nil, he] at hstart
      obtain rfl := Option.some.inj hstart
      exact le_rfl
    | cons a rest ih =>
      intro start hstart
      obtain ⟨hrest, hearlier⟩ := ih _ hstart
      obtain ⟨e, he⟩ : ∃ e, earlierWithdrawal start a = some e := by
        cases start with
        | none => exact ⟨a, rfl⟩
        | some best =>
          simp only [earlierWithdrawal]
          split_ifs
          · exact ⟨a, rfl⟩
          · exact ⟨best, rfl⟩
      obtain ⟨hle, hstartLe⟩ := earlierWithdrawal_le he
      refine ⟨?_, fun best hbest ↦ (hearlier e he).trans (hstartLe best hbest)⟩
      rw [List.forall_mem_cons]
      exact ⟨(hearlier e he).trans hle, hrest⟩
  exact (hfold entries none h).1 entry hentry

theorem exists_firstWithdrawal {entries : List (AccountName × Account)}
    {entry : AccountName × Account} (h : entry ∈ entries) :
    ∃ first, firstWithdrawal entries = some first := by
  have hfold : ∀ (l : List (AccountName × Account)) (best : AccountName × Account),
      ∃ first, l.foldl earlierWithdrawal (some best) = some first := by
    intro l
    induction l with
    | nil => exact fun best ↦ ⟨best, rfl⟩
    | cons a rest ih =>
      intro best
      rw [List.foldl_cons, earlierWithdrawal]
      split_ifs
      · exact ih a
      · exact ih best
  cases entries with
  | nil => cases h
  | cons a rest => exact hfold rest a

/-! ## The sweep -/

/-- The loop of `process_vesting_withdrawals`. -/
def withdrawalSweep : Sweep ChainError Database (AccountName × Account) where
  due s entry := decide (entry.2.nextVestingWithdrawal ≤ s.dgp.time)
  next s entry := firstWithdrawal (s.accounts.entries.filter fun other ↦
    decide (withdrawalBefore entry other))
  visit s entry := s.processVestingWithdrawal entry.1 entry.2

/-- The payouts that `process_vesting_withdrawals` makes, each with the state before it. -/
def vestingWithdrawals (s : Database) : List (Database × (AccountName × Account)) :=
  withdrawalSweep.visits (s.accounts.size * 49712 + 1) (firstWithdrawal s.accounts.entries) s

theorem vestingWithdrawalsLoop_eq_run (rounds : ℕ) (cursor : Option (AccountName × Account))
    (s : Database) :
    vestingWithdrawalsLoop rounds cursor s = withdrawalSweep.run rounds cursor s := by
  induction rounds generalizing cursor s with
  | zero =>
    unfold vestingWithdrawalsLoop
    rfl
  | succ rounds ih =>
    cases cursor with
    | none =>
      unfold vestingWithdrawalsLoop
      rfl
    | some entry =>
      obtain ⟨name, a⟩ := entry
      simp only [vestingWithdrawalsLoop, Sweep.run, withdrawalSweep, decide_eq_true_eq, ih]

/-- A payout writes the row of its account. -/
theorem processVestingWithdrawal_row {s s' : Database} {name : AccountName} {a : Account}
    (h : s.processVestingWithdrawal name a = .ok s') :
    ∃ toWithdraw a', withdrawalAmount a = .ok toWithdraw ∧
      withdrawFromAccount a toWithdraw = .ok a' ∧
      s'.accounts = s.accounts.modify name (fun _ ↦ a') ∧ s'.dgp.time = s.dgp.time := by
  simp only [processVestingWithdrawal, bind_eq_ok, pure_eq_ok] at h
  obtain ⟨toWithdraw, hamount, a', hpaid, _, _, rfl⟩ := h
  exact ⟨toWithdraw, a', hamount, hpaid, rfl, rfl⟩

/-! ## Rounds -/

/-- A bound on the payouts of an account from a time on, one a day and one when none is due any
more. -/
def visitsLeft (t : Time) : ℕ :=
  (maximumTime - t) / vestingWithdrawIntervalSeconds + (if t < maximumTime then 1 else 0) + 1

theorem visitsLeft_le (t : Time) : visitsLeft t ≤ 49712 := by
  have hbound : ∀ t : ℕ,
      (4294967295 - t) / 86400 + (if t < 4294967295 then 1 else 0) + 1 ≤ 49712 := by
    intro t
    split_ifs <;> omega
  exact hbound t

/-- An account that a payout puts later has fewer payouts left. -/
theorem visitsLeft_lt {t t' : Time} (hlater : t < t')
    (hnext : t' = maximumTime ∨ t' = timeAdd t vestingWithdrawIntervalSeconds) :
    visitsLeft t' < visitsLeft t := by
  have hbound : ∀ t t' : ℕ, t < t' → t' = 4294967295 ∨ t' = (t + 86400) % 4294967296 →
      (4294967295 - t') / 86400 + (if t' < 4294967295 then 1 else 0) + 1 <
        (4294967295 - t) / 86400 + (if t < 4294967295 then 1 else 0) + 1 := by
    intro t t' hlater hnext
    split_ifs <;> omega
  exact hbound t t' hlater hnext

/-- Payouts left from where the cursor stands. -/
def roundsLeft : Option (AccountName × Account) → Database → ℕ
  | none, _ => 0
  | some cursor, s => (s.accounts.entries.map fun entry ↦
      if withdrawalBefore entry cursor then 0 else visitsLeft entry.2.nextVestingWithdrawal).sum

theorem roundsLeft_le (cursor : Option (AccountName × Account)) (s : Database) :
    roundsLeft cursor s ≤ s.accounts.size * 49712 := by
  cases cursor with
  | none => exact Nat.zero_le _
  | some cursor =>
    have hle := List.sum_le_card_nsmul (s.accounts.entries.map fun entry ↦
      if withdrawalBefore entry cursor then 0 else visitsLeft entry.2.nextVestingWithdrawal)
      49712 (by
        intro rounds hrounds
        obtain ⟨entry, _, rfl⟩ := List.mem_map.1 hrounds
        split
        · exact Nat.zero_le _
        · exact visitsLeft_le _)
    rwa [List.length_map, nsmul_eq_mul] at hle

/-- The cursor stands on an account. -/
def CursorOnRow (cursor : Option (AccountName × Account)) (s : Database) : Prop :=
  ∀ entry, cursor = some entry → entry ∈ s.accounts.entries

/-- The accounts after a visit. -/
theorem entries_of_visit {s s' : Database} {entry : AccountName × Account}
    (h : withdrawalSweep.visit s entry = .ok s') : ∃ a' : Account,
      (a'.nextVestingWithdrawal = maximumTime ∨ a'.nextVestingWithdrawal =
        timeAdd entry.2.nextVestingWithdrawal vestingWithdrawIntervalSeconds) ∧
      s'.accounts.entries = s.accounts.entries.map fun other ↦
        (other.1, if other.1 = entry.1 then a' else other.2) := by
  obtain ⟨_, a', _, hpaid, haccounts, _⟩ := processVestingWithdrawal_row h
  obtain ⟨_, _, _, hstate⟩ := withdrawFromAccount_eq_ok hpaid
  refine ⟨a', ?_, by rw [haccounts]; rfl⟩
  exact hstate.imp (fun hover ↦ hover.2.1) fun hgoing ↦ hgoing.2.1

/-- What the cursor moves to lies behind the account it stood on. -/
theorem lt_of_next {s : Database} {entry next : AccountName × Account}
    (h : withdrawalSweep.next s entry = some next) :
    next ∈ s.accounts.entries ∧ withdrawalKey entry < withdrawalKey next := by
  have hmem := List.mem_filter.1 (firstWithdrawal_mem h)
  exact ⟨hmem.1, withdrawalBefore_iff.1 (of_decide_eq_true hmem.2)⟩

/-- Nothing lies between an account and what the cursor moves to from it. -/
theorem next_le {s : Database} {entry other : AccountName × Account}
    (hother : other ∈ s.accounts.entries) (hafter : withdrawalKey entry < withdrawalKey other) :
    ∃ next, withdrawalSweep.next s entry = some next ∧
      withdrawalKey next ≤ withdrawalKey other := by
  have hmem : other ∈ s.accounts.entries.filter fun other ↦ decide (withdrawalBefore entry other) :=
    List.mem_filter.2 ⟨hother, decide_eq_true (withdrawalBefore_iff.2 hafter)⟩
  obtain ⟨next, hnext⟩ := exists_firstWithdrawal hmem
  exact ⟨next, hnext, firstWithdrawal_le hnext hmem⟩

theorem cursorOnRow_next {s s' : Database} {entry : AccountName × Account}
    (hentry : entry ∈ s.accounts.entries) (h : withdrawalSweep.visit s entry = .ok s') :
    CursorOnRow (withdrawalSweep.next s entry) s' := by
  intro next hnext
  obtain ⟨hmem, hlt⟩ := lt_of_next hnext
  obtain ⟨a', _, hentries⟩ := entries_of_visit h
  have hne : next.1 ≠ entry.1 := by
    intro hname
    have hsame : next = entry := Table.eq_of_key_eq hmem hentry hname
    exact absurd hlt (hsame ▸ lt_irrefl _)
  rw [hentries]
  exact List.mem_map.2 ⟨next, hmem, by rw [if_neg hne]⟩

/-- Every visit leaves fewer rounds. -/
theorem roundsLeft_lt {s s' : Database} {entry next : AccountName × Account}
    (hentry : entry ∈ s.accounts.entries) (h : withdrawalSweep.visit s entry = .ok s')
    (hnext : withdrawalSweep.next s entry = some next) :
    roundsLeft (some next) s' < roundsLeft (some entry) s := by
  obtain ⟨hmem, hlt⟩ := lt_of_next hnext
  obtain ⟨a', hlater, hentries⟩ := entries_of_visit h
  simp only [roundsLeft, hentries, List.map_map, Function.comp_def, withdrawalBefore_iff]
  -- The account that was visited has fewer payouts left, or is behind the cursor.
  have hvisited : (if withdrawalKey (entry.1, a') < withdrawalKey next then 0
      else visitsLeft a'.nextVestingWithdrawal) < visitsLeft entry.2.nextVestingWithdrawal := by
    split_ifs with hbehind
    · exact Nat.succ_pos _
    · apply visitsLeft_lt ?_ hlater
      have hkey : withdrawalKey entry < withdrawalKey (entry.1, a') :=
        hlt.trans_le (not_lt.1 hbehind)
      rw [withdrawalKey, withdrawalKey, Prod.Lex.toLex_lt_toLex] at hkey
      exact hkey.resolve_right fun hsame ↦ lt_irrefl _ hsame.2
  apply List.sum_lt_sum
  · intro other hother
    by_cases hname : other.1 = entry.1
    · obtain rfl := Table.eq_of_key_eq hother hentry hname
      rw [if_pos rfl, if_neg (lt_irrefl _)]
      exact hvisited.le
    · rw [if_neg hname]
      split_ifs with hbehind hbefore hbefore
      · exact le_rfl
      · exact Nat.zero_le _
      · exact absurd (hbefore.trans hlt) hbehind
      · exact le_rfl
  · refine ⟨entry, hentry, ?_⟩
    rw [if_pos rfl, if_neg (lt_irrefl _)]
    exact hvisited

/-- The loop ends by itself. -/
theorem processVestingWithdrawals_ends (s : Database) :
    withdrawalSweep.Ends (firstWithdrawal s.accounts.entries) s s.vestingWithdrawals
      s.processVestingWithdrawals := by
  rw [processVestingWithdrawals, vestingWithdrawalsLoop_eq_run]
  refine Sweep.ends_run (I := CursorOnRow) (M := roundsLeft) ?_ ?_ (.inr ?_)
  · intro u entry u' hcursor _ hvisit
    have hentry := hcursor entry rfl
    refine ⟨cursorOnRow_next hentry hvisit, ?_⟩
    cases hnext : withdrawalSweep.next u entry with
    | none => exact .inl rfl
    | some next => exact .inr (roundsLeft_lt hentry hvisit hnext)
  · exact fun entry hfirst ↦ firstWithdrawal_mem hfirst
  · exact Nat.lt_succ_of_le (roundsLeft_le _ s)

/-- An account that is due gets a payout. -/
theorem due_account_visited {s s' : Database} {name : AccountName} {a : Account}
    (h : s.processVestingWithdrawals = .ok s') (ha : s.accounts.find? name = some a)
    (hdue : a.nextVestingWithdrawal ≤ s.dgp.time) :
    ∃ visit ∈ s.vestingWithdrawals, visit.2 = (name, a) := by
  have hends := s.processVestingWithdrawals_ends
  rw [h] at hends
  have hinvariant := hends.invariant (J := fun past cursor u ↦
    u.dgp.time = s.dgp.time ∧ CursorOnRow cursor u ∧
      ((∃ visit ∈ past, visit.2 = (name, a)) ∨ (name, a) ∈ u.accounts.entries ∧
        ∃ entry, cursor = some entry ∧ withdrawalKey entry ≤ withdrawalKey (name, a))) ?_ ?_
  · obtain ⟨last, ⟨htime, _, hvisited | ⟨_, entry, hlast, hle⟩⟩, hrest⟩ := hinvariant
    · exact hvisited
    · -- The sweep cannot have ended before the account, which comes later than the cursor.
      have hnot : ¬ entry.2.nextVestingWithdrawal ≤ s.dgp.time := by
        rw [← htime]
        exact of_decide_eq_false (hrest entry hlast)
      rw [withdrawalKey, withdrawalKey, Prod.Lex.toLex_le_toLex] at hle
      exact absurd ((hle.elim le_of_lt fun hsame ↦ hsame.1.le).trans hdue) hnot
  · rintro past u entry u' ⟨htime, hcursor, hahead⟩ _ hvisit
    have hentry := hcursor entry rfl
    obtain ⟨_, _, _, _, _, htime'⟩ := processVestingWithdrawal_row hvisit
    refine ⟨htime'.trans htime, cursorOnRow_next hentry hvisit, ?_⟩
    rcases hahead with ⟨visit, hmem, hvisited⟩ | ⟨hrow, _, ⟨⟩, hle⟩
    · exact .inl ⟨visit, List.mem_append_left _ hmem, hvisited⟩
    · by_cases hname : entry.1 = name
      · have hsame : entry = (name, a) := Table.eq_of_key_eq hentry hrow hname
        exact .inl ⟨(u, entry), List.mem_append_right _ (List.mem_singleton_self _), hsame⟩
      · obtain ⟨a', _, hentries⟩ := entries_of_visit hvisit
        have hlt : withdrawalKey entry < withdrawalKey (name, a) := by
          refine lt_of_le_of_ne hle fun hsame ↦ hname ?_
          exact congrArg (fun key ↦ (ofLex key).2) hsame
        refine .inr ⟨?_, next_le hrow hlt⟩
        rw [hentries]
        exact List.mem_map.2 ⟨(name, a), hrow, by rw [if_neg (Ne.symm hname)]⟩
  · have hrow : (name, a) ∈ s.accounts.entries := (Table.find?_eq_some_iff _ _ _).1 ha
    obtain ⟨first, hfirst⟩ := exists_firstWithdrawal hrow
    refine ⟨rfl, fun entry hentry ↦ firstWithdrawal_mem hentry, .inr ⟨hrow, first, hfirst, ?_⟩⟩
    exact firstWithdrawal_le hfirst hrow

end Database

end SophiaTX.Chain
