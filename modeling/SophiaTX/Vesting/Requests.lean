import SophiaTX.Chain.Runs

/-!
# Withdrawal requests

A request to withdraw vesting shares names a sum, and a rate of it is paid out every day until the
sum is reached. What is left at the end is paid as the remainder of the sum by the rate. An account
that has the sum when it asks for it keeps what is still to be paid, so that every payout is what
the request says.
-/

namespace SophiaTX.Chain

open SophiaTX.Protocol SophiaTX.Lib

/-! ## Requests -/

namespace AccountHoldings

/-- The state of a withdrawal request: rate, next payout, sum and what has been paid. -/
def request (a : AccountHoldings) : ShareType × Time × ShareType × ShareType :=
  (a.vestingWithdrawRate, a.nextVestingWithdrawal, a.toWithdraw, a.withdrawn)

/-- Requests as they can be: whole rates of a positive sum have been paid, or nothing of a
negative one. -/
structure Scheduled (a : AccountHoldings) : Prop where
  idle : a.vestingWithdrawRate = 0 → a.nextVestingWithdrawal = maximumTime
  paying : a.vestingWithdrawRate ≠ 0 →
    (0 < a.vestingWithdrawRate ∧ 0 ≤ a.withdrawn ∧ a.vestingWithdrawRate ∣ a.withdrawn ∧
      a.withdrawn < a.toWithdraw) ∨
    (a.toWithdraw < 0 ∧ a.withdrawn = 0 ∧ a.toWithdraw < a.vestingWithdrawRate)

theorem Scheduled.congr {a a' : AccountHoldings} (h : a.Scheduled)
    (hsame : a'.request = a.request) : a'.Scheduled := by
  simp only [request, Prod.mk.injEq] at hsame
  obtain ⟨hrate, hnext, hto, hwithdrawn⟩ := hsame
  refine ⟨?_, ?_⟩
  · rw [hrate, hnext]
    exact h.idle
  · rw [hrate, hto, hwithdrawn]
    exact h.paying

theorem scheduled_of_idle {a : AccountHoldings} (hrate : a.vestingWithdrawRate = 0)
    (hnext : a.nextVestingWithdrawal = maximumTime) : a.Scheduled :=
  ⟨fun _ ↦ hnext, fun hne ↦ absurd hrate hne⟩

/-- No request has been made, or the last one was taken back. -/
def Unrequested (a : AccountHoldings) : Prop := a.request = (0, maximumTime, 0, 0)

/-- What is still to be paid is there, and nothing is left of a request that is over. -/
structure Funded (a : AccountHoldings) : Prop where
  scheduled : a.Scheduled
  shares : 0 ≤ a.vestingShares
  covered : a.toWithdraw - a.withdrawn ≤ a.vestingShares
  finished : a.vestingWithdrawRate = 0 → a.toWithdraw ≤ a.withdrawn

theorem Unrequested.scheduled {a : AccountHoldings} (h : a.Unrequested) : a.Scheduled := by
  simp only [Unrequested, request, Prod.mk.injEq] at h
  exact scheduled_of_idle h.1 h.2.1

theorem Unrequested.funded {a : AccountHoldings} (h : a.Unrequested)
    (hshares : 0 ≤ a.vestingShares) : a.Funded := by
  have hscheduled := h.scheduled
  simp only [Unrequested, request, Prod.mk.injEq] at h
  obtain ⟨_, _, hto, hwithdrawn⟩ := h
  refine ⟨hscheduled, hshares, ?_, fun _ ↦ ?_⟩
  · rwa [hto, hwithdrawn, sub_zero]
  · rw [hto, hwithdrawn]

theorem Funded.mono {a a' : AccountHoldings} (h : a.Funded) (hsame : a'.request = a.request)
    (hshares : a.vestingShares ≤ a'.vestingShares) : a'.Funded := by
  have hscheduled := h.scheduled.congr hsame
  simp only [request, Prod.mk.injEq] at hsame
  obtain ⟨hrate, _, hto, hwithdrawn⟩ := hsame
  refine ⟨hscheduled, h.shares.trans hshares, ?_, ?_⟩
  · rw [hto, hwithdrawn]
    exact h.covered.trans hshares
  · rw [hrate, hto, hwithdrawn]
    exact h.finished

end AccountHoldings

/-! ## Payouts -/

namespace Database

variable {s s' : Database}

/-- What a payout leaves: either the request is over, or it goes on a day later. -/
theorem withdrawFromAccount_eq_ok {a a' : Account} {toWithdraw : ShareType}
    (h : withdrawFromAccount a toWithdraw = .ok a') :
    a'.vestingShares = a.vestingShares - toWithdraw ∧ a'.toWithdraw = a.toWithdraw ∧
      a'.withdrawn = a.withdrawn + toWithdraw ∧
      ((a'.vestingWithdrawRate = 0 ∧ a'.nextVestingWithdrawal = maximumTime ∧
          (a.toWithdraw ≤ a'.withdrawn ∨ a'.vestingShares = 0)) ∨
        (a'.vestingWithdrawRate = a.vestingWithdrawRate ∧
          a'.nextVestingWithdrawal =
            timeAdd a.nextVestingWithdrawal vestingWithdrawIntervalSeconds ∧
          a'.withdrawn < a.toWithdraw ∧ a'.vestingShares ≠ 0)) := by
  simp only [withdrawFromAccount, safeAdd, safeSub, bind_eq_ok, checked_eq_ok] at h
  obtain ⟨_, ⟨_, rfl⟩, _, ⟨_, rfl⟩, _, ⟨_, rfl⟩, h⟩ := h
  split at h
  · rename_i hover
    cases h
    exact ⟨rfl, rfl, rfl, .inl ⟨rfl, rfl, hover⟩⟩
  · rename_i hcontinue
    rw [not_or, not_le] at hcontinue
    cases h
    exact ⟨rfl, rfl, rfl, .inr ⟨rfl, rfl, hcontinue.1, hcontinue.2⟩⟩

/-- The remainder that is paid at the end of a request is what is left of it. -/
theorem tmod_eq_rest {rate withdrawn sum : ℤ} (hdvd : rate ∣ withdrawn) (hpaid : 0 ≤ withdrawn)
    (hless : withdrawn < sum) (hrest : sum - withdrawn < rate) :
    sum.tmod rate = sum - withdrawn := by
  obtain ⟨rounds, rfl⟩ := hdvd
  rw [Int.tmod_eq_emod_of_nonneg (hpaid.trans hless.le)]
  have hsplit : sum = sum - rate * rounds + rate * rounds := (sub_add_cancel _ _).symm
  conv_lhs => rw [hsplit]
  rw [Int.add_mul_emod_self_left]
  exact Int.emod_eq_of_lt (sub_nonneg.2 hless.le) hrest

/-- A remainder of a negative sum lies between it and zero. -/
theorem tmod_of_neg {sum : ℤ} (hsum : sum < 0) (rate : ℤ) :
    sum ≤ sum.tmod rate ∧ sum.tmod rate ≤ 0 := by
  have hpositive : 0 ≤ -sum := (Int.neg_pos_of_neg hsum).le
  have hneg : sum.tmod rate = -((-sum).tmod rate) := by rw [Int.neg_tmod, neg_neg]
  have hlow : 0 ≤ (-sum).tmod rate := Int.tmod_nonneg rate hpositive
  have hhigh : (-sum).tmod rate ≤ -sum := by
    rw [Int.tmod_eq_emod_of_nonneg hpositive, Int.emod_def]
    have hquotient : 0 ≤ rate * (-sum / rate) := by
      rcases le_total 0 rate with hrate | hrate
      · exact Int.mul_nonneg hrate (Int.ediv_nonneg hpositive hrate)
      · exact Int.mul_nonneg_of_nonpos_of_nonpos hrate
          (Int.ediv_nonpos_of_nonneg_of_nonpos hpositive hrate)
    omega
  omega

/-- A payout takes at most what is left of the request, and the request goes on only after a whole
rate has been paid. -/
theorem withdrawalAmount_of_scheduled {a : Account} {toWithdraw : ShareType} (ha : a.Scheduled)
    (hrate : a.vestingWithdrawRate ≠ 0) (h : withdrawalAmount a = .ok toWithdraw) :
    toWithdraw ≤ max 0 (a.toWithdraw - a.withdrawn) ∧
      (a.withdrawn + toWithdraw < a.toWithdraw → a.vestingShares - toWithdraw ≠ 0 →
        toWithdraw = a.vestingWithdrawRate ∧ 0 < a.vestingWithdrawRate ∧ 0 ≤ a.withdrawn ∧
          a.vestingWithdrawRate ∣ a.withdrawn) := by
  have hamount := withdrawalAmount_eq_ok h
  have hpaying := ha.paying hrate
  generalize a.vestingShares = shares at hamount ⊢
  generalize a.vestingWithdrawRate = rate at hamount hpaying ⊢
  generalize a.withdrawn = withdrawn at hamount hpaying ⊢
  generalize a.toWithdraw = sum at hamount hpaying ⊢
  rcases hpaying with ⟨hpos, hpaid, hdvd, hless⟩ | ⟨hneg, rfl, hlow⟩
  · rcases hamount with ⟨hrest, _, rfl⟩ | ⟨hrest, rfl⟩
    · rw [tmod_eq_rest hdvd hpaid hless hrest]
      refine ⟨(min_le_right _ _).trans (le_max_right _ _), fun hmore hleft ↦ ?_⟩
      rcases min_choice shares (sum - withdrawn) with hmin | hmin
      · exact absurd (by rw [hmin, sub_self]) hleft
      · rw [hmin, add_sub_cancel] at hmore
        exact absurd hmore (lt_irrefl _)
    · refine ⟨((min_le_right _ _).trans hrest).trans (le_max_right _ _), fun _ hleft ↦ ?_⟩
      rcases min_choice shares rate with hmin | hmin
      · exact absurd (by rw [hmin, sub_self]) hleft
      · exact ⟨hmin, hpos, hpaid, hdvd⟩
  · rcases hamount with ⟨_, _, rfl⟩ | ⟨hrest, _⟩
    · obtain ⟨hmodLow, hmodHigh⟩ := tmod_of_neg hneg rate
      refine ⟨((min_le_right _ _).trans hmodHigh).trans (le_max_left _ _), fun hmore hleft ↦ ?_⟩
      rcases min_choice shares (sum.tmod rate) with hmin | hmin
      · exact absurd (by rw [hmin, sub_self]) hleft
      · rw [hmin, zero_add] at hmore
        exact absurd hmore (not_lt.2 hmodLow)
    · rw [sub_zero] at hrest
      exact absurd hlow (not_lt.2 hrest)

/-- A payout of what is there: a rate of the request or, at its end, what is left of it. A negative
request gives at most its sum. -/
theorem amount_of_covered {shares rate withdrawn sum amount : ℤ} (_ : 0 ≤ shares)
    (hcovered : sum - withdrawn ≤ shares)
    (hpaying : (0 < rate ∧ 0 ≤ withdrawn ∧ rate ∣ withdrawn ∧ withdrawn < sum) ∨
      (sum < 0 ∧ withdrawn = 0 ∧ sum < rate))
    (hamount : (sum - withdrawn < rate ∧ rate ≠ 0 ∧ amount = min shares (sum.tmod rate)) ∨
      (rate ≤ sum - withdrawn ∧ amount = min shares rate)) :
    (0 < rate ∧ withdrawn < sum ∧ amount = min rate (sum - withdrawn)) ∨
      (sum < 0 ∧ withdrawn = 0 ∧ sum ≤ amount ∧ amount ≤ 0) := by
  rcases hpaying with ⟨hpos, hpaid, hdvd, hless⟩ | ⟨hneg, hnone, hlow⟩
  · refine .inl ⟨hpos, hless, ?_⟩
    rcases hamount with ⟨hrest, _, hamount⟩ | ⟨hrest, hamount⟩
    · rw [tmod_eq_rest hdvd hpaid hless hrest] at hamount
      omega
    · omega
  · obtain ⟨hmodLow, hmodHigh⟩ := tmod_of_neg hneg rate
    refine .inr ⟨hneg, hnone, ?_⟩
    rcases hamount with ⟨_, _, hamount⟩ | ⟨hrest, _⟩
    · omega
    · omega

/-! ## Making a request -/

/-- The rate of a positive sum is positive, and the rate of a negative one is above it. -/
theorem rate_bounds {amount rate : ℤ} (hne : amount ≠ 0)
    (hrate : amount.tdiv 27 = 0 ∧ rate = 1 ∨ amount.tdiv 27 ≠ 0 ∧ rate = amount.tdiv 27) :
    rate ≠ 0 ∧ ((0 < amount ∧ 0 < rate) ∨ (amount < 0 ∧ amount < rate)) := by
  rcases lt_or_gt_of_ne hne with hamount | hamount
  · have hquotient : amount.tdiv 27 = -(-amount / 27) := by
      rw [← neg_neg (amount.tdiv 27), ← Int.neg_tdiv,
        Int.tdiv_eq_ediv_of_nonneg (Int.neg_pos_of_neg hamount).le]
    omega
  · have hquotient : amount.tdiv 27 = amount / 27 := Int.tdiv_eq_ediv_of_nonneg hamount.le
    omega

theorem vestingWithdrawRate_eq_ok {amount rate : ShareType} (hne : amount ≠ 0)
    (h : vestingWithdrawRate amount = .ok rate) :
    rate ≠ 0 ∧ ((0 < amount ∧ 0 < rate) ∨ (amount < 0 ∧ amount < rate)) := by
  simp only [vestingWithdrawRate, bind_eq_ok, pure_eq_ok] at h
  obtain ⟨quotient, hdiv, hrate⟩ := h
  have hquotient : quotient = amount.tdiv 27 := (safeDiv_eq_ok hdiv).2
  rw [hquotient] at hrate
  refine rate_bounds hne ?_
  by_cases hzero : amount.tdiv 27 = 0
  · exact .inl ⟨hzero, by rw [← hrate, if_pos hzero]⟩
  · exact .inr ⟨hzero, by rw [← hrate, if_neg hzero]⟩

end Database

/-! ## Funded requests -/

namespace AccountHoldings.Funded

open Database

variable {a a' : Account} {toWithdraw : ShareType}

/-- A payout of a running request. -/
theorem amount (ha : a.Funded) (hrate : a.vestingWithdrawRate ≠ 0)
    (hamount : withdrawalAmount a = .ok toWithdraw) :
    (0 < a.vestingWithdrawRate ∧ a.withdrawn < a.toWithdraw ∧
        toWithdraw = min a.vestingWithdrawRate (a.toWithdraw - a.withdrawn)) ∨
      (a.toWithdraw < 0 ∧ a.withdrawn = 0 ∧ a.toWithdraw ≤ toWithdraw ∧ toWithdraw ≤ 0) :=
  amount_of_covered ha.shares ha.covered (ha.scheduled.paying hrate)
    (withdrawalAmount_eq_ok hamount)

/-- A payout where no request is running pays nothing. -/
theorem amount_of_idle (ha : a.Funded) (hrate : a.vestingWithdrawRate = 0)
    (hamount : withdrawalAmount a = .ok toWithdraw) :
    toWithdraw = 0 ∧ a.withdrawn = a.toWithdraw := by
  have hover := ha.finished hrate
  rcases withdrawalAmount_eq_ok hamount with ⟨_, hne, _⟩ | ⟨hrest, hpaid⟩
  · exact absurd hrate hne
  · rw [hrate] at hrest hpaid
    exact ⟨hpaid.trans (min_eq_right ha.shares), le_antisymm (sub_nonneg.1 hrest) hover⟩

/-- A payout of a positive request pays something, and the request is over when all of it is
paid. -/
theorem pays (ha : a.Funded) (hrate : a.vestingWithdrawRate ≠ 0) (hpositive : 0 < a.toWithdraw)
    (hamount : withdrawalAmount a = .ok toWithdraw)
    (h : withdrawFromAccount a toWithdraw = .ok a') :
    0 < toWithdraw ∧
      (a'.vestingWithdrawRate = 0 ∧ a'.nextVestingWithdrawal = maximumTime ∧
          a'.withdrawn = a.toWithdraw ∨
        a'.vestingWithdrawRate = a.vestingWithdrawRate ∧ a'.withdrawn < a.toWithdraw) := by
  rcases ha.amount hrate hamount with ⟨hpos, hless, hmin⟩ | ⟨hneg, _⟩
  · obtain ⟨hshares, _, hpaid, hstate⟩ := withdrawFromAccount_eq_ok h
    have hsome : 0 < toWithdraw := hmin ▸ lt_min hpos (sub_pos.2 hless)
    have hmost : toWithdraw ≤ a.toWithdraw - a.withdrawn := hmin ▸ min_le_right _ _
    refine ⟨hsome, ?_⟩
    rcases hstate with ⟨hzero, hnever, hover⟩ | ⟨hsame, _, hmore, _⟩
    · refine .inl ⟨hzero, hnever, ?_⟩
      have hle : a'.withdrawn ≤ a.toWithdraw := by
        rw [hpaid]
        exact le_sub_iff_add_le'.1 hmost
      rcases hover with hall | hnone
      · exact le_antisymm hle hall
      · -- Without shares nothing is left to be paid either.
        have hrest : a.toWithdraw - a.withdrawn ≤ toWithdraw := by
          calc a.toWithdraw - a.withdrawn ≤ a.vestingShares := ha.covered
            _ = toWithdraw := sub_eq_zero.1 (hshares.symm.trans hnone)
        refine le_antisymm hle ?_
        rw [hpaid]
        exact sub_le_iff_le_add'.1 hrest
    · exact .inr ⟨hsame, hmore⟩
  · exact absurd hpositive (not_lt.2 hneg.le)

theorem payout (ha : a.Funded) (hamount : withdrawalAmount a = .ok toWithdraw)
    (h : withdrawFromAccount a toWithdraw = .ok a') : a'.Funded := by
  obtain ⟨hshares, hsum, hpaid, hstate⟩ := withdrawFromAccount_eq_ok h
  have hcovered : a'.toWithdraw - a'.withdrawn ≤ a'.vestingShares := by
    rw [hsum, hpaid, hshares]
    calc a.toWithdraw - (a.withdrawn + toWithdraw)
        = a.toWithdraw - a.withdrawn - toWithdraw := by abel
      _ ≤ a.vestingShares - toWithdraw := sub_le_sub_right ha.covered _
  by_cases hrate : a.vestingWithdrawRate = 0
  · obtain ⟨rfl, hdone⟩ := ha.amount_of_idle hrate hamount
    rw [sub_zero] at hshares
    rw [add_zero, hdone] at hpaid
    rcases hstate with ⟨hzero, hnever, _⟩ | ⟨_, _, hmore, _⟩
    · refine ⟨scheduled_of_idle hzero hnever, hshares ▸ ha.shares, hcovered, fun _ ↦ ?_⟩
      rw [hsum, hpaid]
    · exact absurd hpaid hmore.ne
  · have hamountOf := ha.amount hrate hamount
    have hholds : 0 ≤ a'.vestingShares := by
      rw [hshares, sub_nonneg]
      rcases hamountOf with ⟨_, _, hmin⟩ | ⟨_, _, _, hnone⟩
      · exact (hmin ▸ min_le_right _ _ : toWithdraw ≤ _).trans ha.covered
      · exact hnone.trans ha.shares
    rcases hstate with ⟨hzero, hnever, hover⟩ | ⟨hsame, _, hmore, _⟩
    · refine ⟨scheduled_of_idle hzero hnever, hholds, hcovered, fun _ ↦ ?_⟩
      rcases hover with hall | hnone
      · exact hsum ▸ hall
      · rw [hnone] at hcovered
        exact sub_nonpos.1 hcovered
    · have hrunning : a'.vestingWithdrawRate ≠ 0 := hsame ▸ hrate
      refine ⟨⟨fun hzero ↦ absurd hzero hrunning, fun _ ↦ ?_⟩, hholds, hcovered,
        fun hzero ↦ absurd hzero hrunning⟩
      rcases hamountOf with ⟨hpos, hless, hmin⟩ | ⟨_, hnone, hsum', _⟩
      · -- The request goes on, so a whole rate has been paid.
        have hwhole : toWithdraw = a.vestingWithdrawRate := by
          rcases min_choice a.vestingWithdrawRate (a.toWithdraw - a.withdrawn) with hmin' | hmin'
          · exact hmin.trans hmin'
          · rw [hpaid, hmin, hmin', add_sub_cancel] at hmore
            exact absurd hmore (lt_irrefl _)
        obtain ⟨_, hnonneg, hdvd, _⟩ | ⟨hneg, hnone, _⟩ := ha.scheduled.paying hrate
        · rw [hsame, hpaid, hsum, hwhole]
          refine .inl ⟨hpos, add_nonneg hnonneg hpos.le, Int.dvd_add hdvd (Int.dvd_refl _), ?_⟩
          rwa [hpaid, hwhole] at hmore
        · rw [hnone] at hless
          exact absurd hless (not_lt.2 hneg.le)
      · rw [hpaid, hnone, zero_add] at hmore
        exact absurd hmore (not_lt.2 hsum')

end AccountHoldings.Funded

/-- A request that is accepted replaces the former one and is funded. -/
theorem Database.withdrawVestingEvaluator_funded {s s' : Database} {account : AccountName}
    {vestingShares : Asset} (h : s.withdrawVestingEvaluator account vestingShares = .ok s') :
    ∃ a f, s.accounts.find? account = some a ∧ s' = s.modifyAccount account f ∧
      (f a).Funded ∧ (0 < vestingShares.amount → (f a).vestingWithdrawRate ≠ 0 ∧
        (f a).toWithdraw = vestingShares.amount ∧ (f a).withdrawn = 0) := by
  simp only [withdrawVestingEvaluator, getAccount, bind_eq_ok, orUnknownKey_eq_ok,
    fcAssert_eq_ok] at h
  obtain ⟨_, _, a, ha, _, hshares, _, _, _, hamount, h⟩ := h
  split at h
  · rename_i hzero
    simp only [bind_eq_ok, fcAssert_eq_ok, pure_eq_ok] at h
    obtain ⟨_, _, rfl⟩ := h
    refine ⟨a, _, ha, rfl, ?_, fun hpositive ↦ absurd hzero hpositive.ne'⟩
    exact AccountHoldings.Unrequested.funded rfl hshares
  · rename_i hne
    simp only [bind_eq_ok, fcAssert_eq_ok, pure_eq_ok] at h
    obtain ⟨rate, hrate, _, _, _, _, rfl⟩ := h
    obtain ⟨hnonzero, hsign⟩ := vestingWithdrawRate_eq_ok hne hrate
    refine ⟨a, _, ha, rfl, ⟨⟨fun hzero ↦ absurd hzero hnonzero, fun _ ↦ ?_⟩, hshares, ?_, ?_⟩, ?_⟩
    · rcases hsign with ⟨hpos, hrate⟩ | ⟨hneg, hlow⟩
      · exact .inl ⟨hrate, le_rfl, Int.dvd_zero _, hpos⟩
      · exact .inr ⟨hneg, rfl, hlow⟩
    · rw [sub_zero]
      exact hamount
    · exact fun hzero ↦ absurd hzero hnonzero
    · exact fun _ ↦ ⟨hnonzero, rfl, rfl⟩

/-! ## Steps that leave requests alone -/

/-- Requests stay as they are, no vesting shares are taken from the accounts in `P`, and none of
the others is left with debts. New accounts have made no request. -/
structure Tended (P : AccountName → Prop) (s s' : Database) : Prop where
  origin : ∀ name a', s'.accounts.find? name = some a' →
    (∃ a, s.accounts.find? name = some a ∧ a'.request = a.request ∧
      (a.vestingShares ≤ a'.vestingShares ∨ ¬ P name ∧ 0 ≤ a'.vestingShares)) ∨
    (s.accounts.find? name = none ∧ a'.Unrequested ∧ 0 ≤ a'.vestingShares)
  kept : ∀ name, s'.accounts.find? name = none → s.accounts.find? name = none

namespace Tended

variable {P : AccountName → Prop} {s s₁ s' : Database}

theorem of_accounts (h : s'.accounts = s.accounts) : Tended P s s' where
  origin _ a' ha' := .inl ⟨a', h ▸ ha', rfl, .inl le_rfl⟩
  kept _ hnone := h ▸ hnone

theorem refl (s : Database) : Tended P s s := of_accounts rfl

theorem shares_trans {p : Prop} {x y z : ℤ} (h : x ≤ y ∨ ¬ p ∧ 0 ≤ y) (h' : y ≤ z ∨ ¬ p ∧ 0 ≤ z) :
    x ≤ z ∨ ¬ p ∧ 0 ≤ z := by
  rcases h' with hle' | htaken'
  · exact h.imp (fun hle ↦ hle.trans hle') fun htaken ↦ ⟨htaken.1, htaken.2.trans hle'⟩
  · exact .inr htaken'

theorem trans (h : Tended P s s₁) (h' : Tended P s₁ s') : Tended P s s' where
  origin name a' ha' := by
    rcases h'.origin name a' ha' with ⟨a₁, ha₁, hrequest, hshares⟩ | ⟨hnone, hnew⟩
    · rcases h.origin name a₁ ha₁ with ⟨a, ha, hrequest₁, hshares₁⟩ | ⟨hnone, hnew, hshares₁⟩
      · exact .inl ⟨a, ha, hrequest.trans hrequest₁, shares_trans hshares₁ hshares⟩
      · refine .inr ⟨hnone, hrequest.trans hnew, ?_⟩
        exact hshares.elim (fun hle ↦ hshares₁.trans hle) fun htaken ↦ htaken.2
    · exact .inr ⟨h.kept name hnone, hnew⟩
  kept name hnone := h.kept name (h'.kept name hnone)

theorem modifyAccount {name : AccountName} {a : Account} {f : Account → Account}
    (ha : s.accounts.find? name = some a) (hrequest : (f a).request = a.request)
    (hshares : a.vestingShares ≤ (f a).vestingShares ∨ ¬ P name ∧ 0 ≤ (f a).vestingShares)
    (haccounts : s'.accounts = s.accounts.modify name f) : Tended P s s' where
  origin other a' ha' := by
    rw [haccounts, Table.find?_modify] at ha'
    split at ha'
    · rename_i hother
      rw [hother, ha, Option.map_some, Option.some.injEq] at ha'
      rw [hother, ← ha']
      exact .inl ⟨a, ha, hrequest, hshares⟩
    · exact .inl ⟨a', ha', rfl, .inl le_rfl⟩
  kept other hnone := by
    rw [haccounts, Table.find?_modify] at hnone
    split at hnone
    · exact Option.map_eq_none_iff.1 hnone
    · exact hnone

/-- Every account of the first state is there in the second. -/
theorem exists_right (h : Tended P s s') {name : AccountName} {a : Account}
    (ha : s.accounts.find? name = some a) : ∃ a', s'.accounts.find? name = some a' ∧
      a'.request = a.request ∧
      (a.vestingShares ≤ a'.vestingShares ∨ ¬ P name ∧ 0 ≤ a'.vestingShares) := by
  cases ha' : s'.accounts.find? name with
  | none => exact absurd (ha.symm.trans (h.kept name ha')) (by simp)
  | some a' =>
    rcases h.origin name a' ha' with ⟨b, hb, hsame⟩ | ⟨hnone, _⟩
    · cases ha.symm.trans hb
      exact ⟨a', rfl, hsame⟩
    · exact absurd (ha.symm.trans hnone) (by simp)

theorem mono {Q : AccountName → Prop} (h : Tended P s s') (hQ : ∀ name, Q name → P name) :
    Tended Q s s' where
  origin name a' ha' := by
    rcases h.origin name a' ha' with ⟨a, ha, hrequest, hshares⟩ | hnew
    · exact .inl ⟨a, ha, hrequest, hshares.imp_right fun ⟨hnot, hle⟩ ↦
        ⟨fun hname ↦ hnot (hQ name hname), hle⟩⟩
    · exact .inr hnew
  kept := h.kept

end Tended

theorem SameMoney.tended {P : AccountName → Prop} {s s' : Database} (h : SameMoney s s') :
    Tended P s s' where
  origin name a' ha' := by
    obtain ⟨a, ha, hmoney⟩ := h.accounts.exists_left ha'
    have hrequest : a'.money.request = a.money.request := congrArg AccountHoldings.request hmoney
    have hshares : a'.money.vestingShares = a.money.vestingShares :=
      congrArg AccountHoldings.vestingShares hmoney
    exact .inl ⟨a, ha, hrequest, .inl hshares.ge⟩
  kept name hnone := by
    cases ha : s.accounts.find? name with
    | none => rfl
    | some a =>
      obtain ⟨a', ha', _⟩ := h.accounts.exists_right ha
      exact absurd (hnone.symm.trans ha') (by simp)

/-- Moves that touch no request and no vesting shares of the accounts in `P`. -/
def Move.LeavesBonds (P : AccountName → Prop) : Move → Prop
  | .setWithdrawal _ _ | .payWithdrawal _ => False
  | .burnVesting _ => ¬ P nullAccount
  | _ => True

theorem Move.Direct.tended {P : AccountName → Prop} {s t : Database} {m : Move}
    (hm : m.LeavesBonds P) (h : m.Direct s t) : Tended P s t := by
  cases m with
  | setWithdrawal _ _ | payWithdrawal _ => exact hm.elim
  | burnVesting _ =>
    obtain ⟨a, ha, _, rfl⟩ := h
    exact .modifyAccount (f := fun a ↦ { a with vestingShares := 0 }) ha rfl
      (.inr ⟨hm, le_rfl⟩) rfl
  | adjustBalance account amount =>
    obtain ⟨a, ha, _, rfl⟩ := h
    refine .modifyAccount (f := fun _ ↦ a.credit amount 0 s.dgp.headBlockNumber) ha rfl
      (.inl ?_) rfl
    exact (add_zero _).ge
  | createVesting account amount =>
    obtain ⟨a, ha, hamount, rfl⟩ := h
    refine .modifyAccount (f := fun _ ↦ a.credit 0 amount s.dgp.headBlockNumber) ha rfl
      (.inl ?_) rfl
    exact le_add_of_nonneg_right hamount
  | vest account amount =>
    obtain ⟨a, ha, hamount, _, rfl⟩ := h
    refine .modifyAccount (f := fun _ ↦ { a with
      balance := a.balance - amount
      vestingShares := a.vestingShares + amount }) ha rfl (.inl ?_) rfl
    exact le_add_of_nonneg_right hamount
  | payInterest account amount =>
    obtain ⟨a, economics, ha, _, _, _, _, rfl⟩ := h
    exact .modifyAccount (f := fun _ ↦ a.afterTurn amount) ha rfl (.inl le_rfl) rfl
  | createAccount name =>
    obtain ⟨a, accounts, ha, haccounts, rfl⟩ := h
    have hnew : a.Unrequested := congrArg AccountHoldings.request ha
    have hshares : a.vestingShares = 0 := congrArg AccountHoldings.vestingShares ha
    refine ⟨fun other a' ha' ↦ ?_, fun other hnone ↦ ?_⟩
    · rw [Table.find?_emplace? haccounts] at ha'
      split at ha'
      · rename_i hother
        cases ha'
        exact .inr ⟨hother ▸ (Table.emplace?_eq_some haccounts).1, hnew, hshares.ge⟩
      · exact .inl ⟨a', ha', rfl, .inl le_rfl⟩
    · rw [Table.find?_emplace? haccounts] at hnone
      split at hnone
      · cases hnone
      · exact hnone
  | adjustSupply _ | mintVesting _ =>
    obtain ⟨_, rfl⟩ := h
    exact .of_accounts rfl
  | changePools _ =>
    obtain ⟨_, _, _, rfl⟩ := h
    exact .of_accounts rfl
  | recordBlock _ | advanceHead _ =>
    obtain ⟨_, _, rfl⟩ := h
    exact .of_accounts rfl
  | createEscrow _ _ =>
    obtain ⟨_, _, _, _, rfl⟩ := h
    exact .of_accounts rfl
  | changeEscrow _ _ _ =>
    obtain ⟨_, _, _, rfl⟩ := h
    exact .of_accounts rfl
  | removeEscrow _ _ =>
    obtain ⟨_, rfl⟩ := h
    exact .of_accounts rfl
  | setIrreversible _ =>
    obtain rfl := h
    exact .of_accounts rfl
  | bookkeeping | createWitness _ | changeProxy _ _ | changeVote _ _ _
  | confirmBlock _ _ | applyHardfork _ =>
    obtain rfl := h
    exact .refl _

theorem Explained.tended {P : AccountName → Prop} {g : GenesisState} {stage : Stage}
    {s s' : Database} {effect : ShareType × ShareType × ShareType}
    (h : Explained g stage effect s s') (hs : Sound s)
    (hstage : ∀ m, stage.Allows m → m.LeavesBonds P) : Tended P s s' := by
  obtain ⟨ms, hms, hallowed, _⟩ := h
  refine (hms.invariant (I := fun t ↦ Sound t ∧ Tended P s t) ?_ ⟨hs, .refl s⟩).2
  rintro s₁ m s₂ hm hstep ⟨hs₁, htended⟩
  obtain ⟨t, hdirect, hmoney⟩ := Move.Step.direct hstep hs₁.accumulated
  exact ⟨Move.Step.sound hstep hs₁,
    (htended.trans (hdirect.tended (hstage m (hallowed m hm)))).trans hmoney.tended⟩

/-- The fee of an operation. -/
theorem Database.processOperationFee_tended {P : AccountName → Prop} {g : GenesisState}
    {s s' : Database} {op : FeeOperation} (hs : Sound s)
    (h : s.processOperationFee g op = .ok s') : Tended P s s' := by
  have hpaid : Explained g .updateMedianFeeds 0 s s' := processOperationFee_explained h
  refine hpaid.tended hs fun m hm ↦ ?_
  cases m with
  | setWithdrawal _ _ =>
    obtain ⟨_, _, hstage, _⟩ := hm
    cases hstage
  | payWithdrawal _ | burnVesting _ => cases hm
  | _ => trivial

/-- The stages that touch neither requests nor shares. -/
theorem Stage.tended {ctx : Context} {s s' : Database} {stage : Stage} (hs : Sound s)
    (hvalid : stage.Valid ctx) (hrun : stage.run ctx s = .ok s')
    (hrequest : ∀ trx op account amount, stage = .operation trx op →
      op.op ≠ .withdrawVesting account amount)
    (hpayouts : stage ≠ .processVestingWithdrawals) :
    Tended (fun name ↦ stage = .clearNullAccountBalance → name ≠ nullAccount) s s' := by
  refine (Stage.explained hs hvalid hrun).tended hs fun m hm ↦ ?_
  cases m with
  | setWithdrawal account amount =>
    obtain ⟨trx, op, hstage, hop⟩ := hm
    exact hrequest trx op _ _ hstage hop
  | payWithdrawal account => exact hpayouts hm
  | burnVesting amount => exact fun hnull ↦ hnull hm rfl
  | _ => trivial

end SophiaTX.Chain
