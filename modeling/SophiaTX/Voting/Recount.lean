import SophiaTX.Voting.Migration

/-!
# When the recount goes through

Proxies and votes of a reachable state lead to accounts and witnesses, so `recalculate_all_votes`
can only fail on its sums. What was proxied before is counted again, and the doubled sums need not
fit 64 bits.
-/

open scoped BigOperators

namespace SophiaTX.Chain

open SophiaTX.Protocol SophiaTX.Lib

/-! ## Ballots of a run -/

/-- Proxies and votes fit together. -/
structure BallotsInOrder (s : Database) : Prop where
  ledger : s.voteLedger.WellFormed
  witnesses : ∀ a w, (a, w) ∈ s.voteLedger.votes → w ∈ s.witnesses.keys

theorem SameShape.ballotsInOrder {s s' : Database} (h : SameShape s s') (hs : BallotsInOrder s) :
    BallotsInOrder s' where
  ledger := by
    refine ⟨?_, ?_, ?_⟩
    · rw [h.accounts, h.proxyOf]
      exact hs.ledger.proxies
    · rw [h.proxyOf]
      exact hs.ledger.acyclic
    · rw [h.accounts, h.proxyOf, h.votes]
      exact hs.ledger.voters
  witnesses := by
    rw [h.votes, h.witnesses]
    exact hs.witnesses

theorem Database.applyHardfork_sameShape {g : GenesisState} {s s' : Database} {hardfork : ℕ}
    (h : s.applyHardfork g hardfork = .ok s') : SameShape s s' := by
  simp only [Database.applyHardfork, bind_eq_ok, pure_eq_ok] at h
  obtain ⟨s₁, hvotes, _, _, _, _, rfl⟩ := h
  have hshape : SameShape s s₁ := by
    split at hvotes
    · refine foldlM_invariant (I := SameShape s) ?_ hvotes ⟨rfl, rfl, rfl, Table.keys_mapRows _ _⟩
      rintro t name t' - hround ht
      simp only [bind_eq_ok] at hround
      obtain ⟨_, _, _, _, hpush⟩ := hround
      exact ht.trans (Database.adjustProxiedWitnessVotes_frame hpush).sameShape
    · exact pure_eq_ok.1 hvotes ▸ ⟨rfl, rfl, rfl, rfl⟩
  exact hshape.trans ⟨rfl, rfl, rfl, rfl⟩

/-- Moves other than ballots and new rows change no account, proxy or vote. -/
theorem Move.Step.ballotsInOrder {g : GenesisState} {s s' : Database} {m : Move}
    (h : m.Step g s s') (hm : ∀ account proxy, m = .changeProxy account proxy → proxy ≠ account)
    (hs : BallotsInOrder s) : BallotsInOrder s' := by
  cases m with
  | bookkeeping => exact h.sameVotes.sameShape.ballotsInOrder hs
  | adjustBalance account amount =>
    obtain ⟨_, a, ha, _, hvotes⟩ := Database.adjustBalance_eq_ok h
    exact ((Database.setStake_sameShape ha rfl rfl).trans
      (Database.adjustProxiedWitnessVotes_frame hvotes).sameShape).ballotsInOrder hs
  | createVesting account amount =>
    obtain ⟨_, _, a, ha, hvotes⟩ := Database.createVesting_eq_ok h
    exact ((Database.setStake_sameShape ha rfl rfl).trans
      (Database.adjustProxiedWitnessVotes_frame hvotes).sameShape).ballotsInOrder hs
  | vest account amount =>
    obtain ⟨a, ha, _, rfl⟩ := Database.vest_eq_ok h.2
    refine SameShape.ballotsInOrder (Database.setStake_sameShape ha rfl rfl) ?_
    exact ⟨hs.ledger, hs.witnesses⟩
  | adjustSupply amount =>
    obtain ⟨_, _, rfl⟩ := Database.adjustSupply_eq_ok h
    exact ⟨hs.ledger, hs.witnesses⟩
  | mintVesting amount =>
    obtain ⟨_, rfl⟩ := h
    exact ⟨hs.ledger, hs.witnesses⟩
  | changePools amount =>
    rw [h.1]
    exact ⟨hs.ledger, hs.witnesses⟩
  | createEscrow key e =>
    rw [h.2.2.2]
    exact ⟨hs.ledger, hs.witnesses⟩
  | changeEscrow key e e' =>
    rw [h.2.2.2]
    exact ⟨hs.ledger, hs.witnesses⟩
  | removeEscrow key e =>
    rw [h.2]
    exact ⟨hs.ledger, hs.witnesses⟩
  | createAccount name =>
    obtain ⟨a, ha, haccounts, hs'⟩ := h
    have hwitnesses : s'.witnesses = s.witnesses := by rw [hs']
    have hledger := createAccount_voteLedger ha haccounts hs'
    refine ⟨hledger ▸ hs.ledger.insertAccount name, ?_⟩
    rw [hledger, hwitnesses]
    exact hs.witnesses
  | createWitness name =>
    obtain ⟨w, hw, hwitnesses, hs'⟩ := h
    have hledger := createWitness_voteLedger hw hwitnesses hs'
    refine ⟨hledger ▸ hs.ledger, fun a w hvote ↦ ?_⟩
    rw [hledger] at hvote
    rw [Table.keys_emplace? hwitnesses]
    exact List.mem_append_left _ (hs.witnesses a w hvote)
  | setWithdrawal account amount =>
    obtain ⟨_, a, rate, next, ha, _, _, _, rfl⟩ := Database.withdrawVestingEvaluator_eq_ok h
    exact (Database.setStake_sameShape ha rfl rfl).ballotsInOrder hs
  | changeProxy account proxy =>
    obtain ⟨hkeys, _⟩ := Database.accountWitnessProxyEvaluator_rest h
    obtain ⟨hwf, _, _, hvotes, _⟩ :=
      Database.accountWitnessProxyEvaluator_ledger (hm account proxy rfl) hs.ledger h
    refine ⟨hwf, fun a w hvote ↦ ?_⟩
    rw [hkeys]
    exact hs.witnesses a w (hvotes hvote)
  | changeVote account witness approve =>
    obtain ⟨hkeys, _⟩ := Database.accountWitnessVoteEvaluator_rest h
    obtain ⟨hwf, _, _, hvotes⟩ := Database.accountWitnessVoteEvaluator_ledger hs.ledger h
    refine ⟨hwf, fun a w hvote ↦ ?_⟩
    rw [hkeys]
    rcases hvotes a w hvote with hold | ⟨_, hnew⟩
    · exact hs.witnesses a w hold
    · exact hnew
  | advanceHead num =>
    obtain ⟨_, _, _, _, hframe⟩ := h
    have hshape := hframe.sameVotes.sameShape
    have hs' := hshape.ballotsInOrder hs
    exact ⟨hs'.ledger, hs'.witnesses⟩
  | confirmBlock witness num =>
    obtain ⟨aslot, rfl⟩ := h
    have hsame : SameVotes s (s.modifyWitness witness fun w ↦
        { w with lastAslot := aslot, lastConfirmedBlockNum := num }) :=
      ⟨.refl _, Table.AgreeOn.modify _ _ fun _ _ ↦ rfl, rfl⟩
    exact hsame.sameShape.ballotsInOrder hs
  | setIrreversible num =>
    obtain rfl := h
    exact ⟨hs.ledger, hs.witnesses⟩
  | payInterest account amount =>
    obtain ⟨a, ha, _, hpay⟩ := h
    obtain ⟨economics, s₁, a₁, _, hvotes, ha₁, rfl⟩ := Database.payInterest_eq_ok hpay
    have hframe : VoteFrame { s with economics := economics } s₁ := by
      split at hvotes
      · exact Database.adjustProxiedWitnessVotes_frame hvotes
      · exact pure_eq_ok.1 hvotes ▸ .refl _
    have hs₁ : BallotsInOrder s₁ := hframe.sameShape.ballotsInOrder ⟨hs.ledger, hs.witnesses⟩
    exact (Database.setStake_sameShape ha₁ rfl rfl).ballotsInOrder hs₁
  | burnVesting amount =>
    obtain ⟨a, ha, _, rfl⟩ := h
    refine SameShape.ballotsInOrder (Database.setStake_sameShape ha rfl rfl) ?_
    exact ⟨hs.ledger, hs.witnesses⟩
  | payWithdrawal account =>
    obtain ⟨a, ha, hpay⟩ := h
    obtain ⟨toWithdraw, rate, next, _, _, rfl⟩ := Database.processVestingWithdrawal_eq_ok hpay
    refine SameShape.ballotsInOrder (Database.setStake_sameShape ha rfl rfl) ?_
    exact ⟨hs.ledger, hs.witnesses⟩
  | applyHardfork hardfork => exact (Database.applyHardfork_sameShape h).ballotsInOrder hs
  | recordBlock num =>
    obtain ⟨_, _, rfl⟩ := Database.recordBlock_eq_ok h
    exact ⟨hs.ledger, hs.witnesses⟩

theorem RunsFrom.ballotsInOrder {ctx : Context} (hskip : ctx.skip.validate = false)
    {C : Database → Stage → Prop} {s₀ s : Database} {pending : Option (List Stage)}
    (hgenesis : initGenesis ctx.genesis = .ok s₀) (h : RunsFrom ctx C s₀ pending s) :
    BallotsInOrder s := by
  have hbooks := initGenesis_books hgenesis
  have hs₀ := hbooks.votesInOrder
  refine (h.invariant (I := fun t ↦ Sound t ∧ BallotsInOrder t) hskip ?_
    ⟨hbooks.sound, hs₀.ledger, hs₀.witnesses⟩).2
  rintro s stage s' - hvalid hrun ⟨hs, hballots⟩
  refine ⟨Stage.sound hs hvalid hrun, ?_⟩
  obtain ⟨ms, hms, hallowed, _⟩ := Stage.explained hs hvalid hrun
  refine hms.invariant (I := BallotsInOrder) ?_ hballots
  rintro s₁ m s₂ hm hstep hs₁
  refine hstep.ballotsInOrder ?_ hs₁
  rintro account proxy rfl
  obtain ⟨trx, op, rfl, hop⟩ := hallowed _ hm
  simp only [Stage.Valid, hop, Operation.validate, bind_eq_ok, fcAssert_eq_ok] at hvalid
  obtain ⟨_, _, _, _, hself⟩ := hvalid
  exact hself

/-! ## Sums that fit -/

theorem uint128OfInt_ne_zero {x : ℤ} (hpos : 0 < x) (hmax : x ≤ int64Max + 1) :
    uint128OfInt x ≠ 0 := by
  simp only [uint128OfInt, int64Max] at *
  omega

namespace Database

variable {s : Database} {delta : ShareType}

theorem adjustWitnessVote_ok {witness : AccountName} {w : Witness}
    (hw : s.witnesses.find? witness = some w) (hvotes : 0 ≤ w.votes + delta)
    (hmax : w.votes + delta ≤ int64Max) : ∃ s', s.adjustWitnessVote witness delta = .ok s' := by
  have hsum : safeAdd w.votes delta = .ok (w.votes + delta) :=
    checked_eq_ok.2 ⟨⟨(by decide : int64Min ≤ 0).trans hvotes, hmax⟩, rfl⟩
  have hlap : uint128OfInt (w.votes + delta + 1) ≠ 0 :=
    uint128OfInt_ne_zero (Int.lt_add_one_of_le hvotes) (Int.add_le_add_right hmax 1)
  obtain ⟨w', hw'⟩ : ∃ w', w.adjustVote s.wso.currentVirtualTime delta = .ok w' :=
    ⟨_, bind_eq_ok.2 ⟨_, hsum, bind_eq_ok.2 ⟨_, if_neg hlap, rfl⟩⟩⟩
  exact ⟨_, bind_eq_ok.2 ⟨w, orUnknownKey_eq_ok.2 hw, bind_eq_ok.2 ⟨w', hw', rfl⟩⟩⟩

/-- All witnesses of a list get their votes. -/
theorem adjustWitnessVotesList_ok {witnesses : List AccountName} (hnodup : witnesses.Nodup)
    (h : ∀ name ∈ witnesses, ∃ w, s.witnesses.find? name = some w ∧ 0 ≤ w.votes + delta ∧
      w.votes + delta ≤ int64Max) :
    ∃ s', witnesses.foldlM (fun s witness ↦ s.adjustWitnessVote witness delta) s = .ok s' := by
  induction witnesses generalizing s with
  | nil => exact ⟨s, rfl⟩
  | cons first rest ih =>
    obtain ⟨hnew, hrest⟩ := List.nodup_cons.1 hnodup
    obtain ⟨w, hw, hvotes, hmax⟩ := h first List.mem_cons_self
    obtain ⟨s₁, hs₁⟩ := adjustWitnessVote_ok hw hvotes hmax
    obtain ⟨_, w', _, _, _, rfl⟩ := adjustWitnessVote_eq_ok hs₁
    have hothers : ∀ name ∈ rest, ∃ w, (s.modifyWitness first fun _ ↦ w').witnesses.find? name =
        some w ∧ 0 ≤ w.votes + delta ∧ w.votes + delta ≤ int64Max := by
      intro name hname
      have hne : name ≠ first := fun heq ↦ hnew (heq ▸ hname)
      rw [modifyWitness, Table.find?_modify, if_neg hne]
      exact h name (List.mem_cons_of_mem _ hname)
    obtain ⟨s', hs'⟩ := ih hrest hothers
    rw [List.foldlM_cons, hs₁]
    exact ⟨s', hs'⟩

/-- The witnesses an account votes for have room for more votes. -/
def RoomForVotes (s : Database) (delta : ShareType) : Prop :=
  s.witnesses.Forall fun _ w ↦ 0 ≤ w.votes + delta ∧ w.votes + delta ≤ int64Max

theorem adjustWitnessVotes_ok (hs : BallotsInOrder s) (hroom : s.RoomForVotes delta)
    (account : AccountName) : ∃ s', s.adjustWitnessVotes account delta = .ok s' := by
  refine adjustWitnessVotesList_ok (votesOf_nodup s account) fun name hname ↦ ?_
  obtain ⟨w, hw⟩ := (Table.mem_keys_iff _ _).1 (hs.witnesses account name (mem_votesOf.1 hname))
  exact ⟨w, hw, hroom name w hw⟩

/-- A stake finds its way along a chain whose sums have room for it. -/
theorem adjustProxiedWitnessVotesAt_ok {remaining : ℕ} {account : AccountName}
    (hremaining : remaining ≤ maxProxyRecursionDepth) (hs : BallotsInOrder s)
    (haccount : account ∈ s.voteLedger.accounts) (hroom : s.RoomForVotes delta)
    (hproxied : ∀ (d : ℕ) (j : Fin maxProxyRecursionDepth) p,
      j.val = maxProxyRecursionDepth - remaining + d →
      climb s.voteLedger.proxyOf (d + 1) account = some p →
        int64Min ≤ s.voteLedger.proxied p j + delta ∧
          s.voteLedger.proxied p j + delta ≤ int64Max) :
    ∃ s', adjustProxiedWitnessVotesAt delta remaining account s = .ok s' := by
  induction remaining generalizing account s with
  | zero =>
    obtain ⟨a, ha⟩ := mem_voteLedger_accounts.1 haccount
    simp only [adjustProxiedWitnessVotesAt, getAccount, ha, orUnknownKey]
    by_cases hproxy : a.proxy = proxyToSelfAccount
    · obtain ⟨s', hs'⟩ := adjustWitnessVotes_ok hs hroom account
      exact ⟨s', by simpa [hproxy] using hs'⟩
    · exact ⟨s, by simp [hproxy]⟩
  | succ remaining ih =>
    obtain ⟨a, ha⟩ := mem_voteLedger_accounts.1 haccount
    simp only [adjustProxiedWitnessVotesAt, getAccount, ha, orUnknownKey]
    by_cases hproxy : a.proxy = proxyToSelfAccount
    · obtain ⟨s', hs'⟩ := adjustWitnessVotes_ok hs hroom account
      exact ⟨s', by simpa [hproxy] using hs'⟩
    · have hparent : s.voteLedger.proxyOf account = some a.proxy := by
        rw [proxyOf_eq ha, AccountHoldings.proxyAccount, if_neg hproxy]
      obtain ⟨proxy, hp⟩ := mem_voteLedger_accounts.1 (hs.ledger.proxies _ _ hparent)
      let depth : Fin maxProxyRecursionDepth :=
        ⟨maxProxyRecursionDepth - (remaining + 1), Nat.sub_lt (by decide) (Nat.succ_pos _)⟩
      have hvote := hproxied 0 depth a.proxy rfl (by rw [climb_succ_of_parent hparent, climb_zero])
      rw [proxied_eq hp] at hvote
      have hset := setProxiedVotes_frame hp
        (Function.update proxy.proxiedVsfVotes depth (proxy.proxiedVsfVotes depth + delta))
      generalize hs₁ : s.modifyAccount a.proxy _ = s₁ at hset
      have hs₁' := hset.sameShape.ballotsInOrder hs
      have hproxyOf : s₁.voteLedger.proxyOf = s.voteLedger.proxyOf := hset.sameShape.proxyOf
      have hchain : ∀ (d : ℕ) (j : Fin maxProxyRecursionDepth) p,
          j.val = maxProxyRecursionDepth - remaining + d →
          climb s₁.voteLedger.proxyOf (d + 1) a.proxy = some p →
            int64Min ≤ s₁.voteLedger.proxied p j + delta ∧
              s₁.voteLedger.proxied p j + delta ≤ int64Max := by
        intro d j p hj hclimb
        have hne : j ≠ depth := by
          intro heq
          have hval : j.val = maxProxyRecursionDepth - (remaining + 1) := congrArg Fin.val heq
          omega
        have hsame : s₁.voteLedger.proxied p j = s.voteLedger.proxied p j := by
          rw [← hs₁]
          simp only [voteLedger, modifyAccount, Table.find?_modify]
          split
          · rename_i hpeq
            simp [hpeq, hp, hne]
          · rfl
        rw [hsame]
        rw [hproxyOf] at hclimb
        refine hproxied (d + 1) j p (by omega) ?_
        rw [climb_succ_of_parent hparent, hclimb]
      have hroom₁ : s₁.RoomForVotes delta := by
        rw [← hs₁]
        exact hroom
      obtain ⟨s', hs'⟩ := ih (Nat.le_of_succ_le hremaining) hs₁'
        (hs₁'.ledger.proxies account _ (hproxyOf ▸ hparent)) hroom₁ hchain
      refine ⟨s', ?_⟩
      rw [← hs₁] at hs'
      simpa [hproxy, hp, safeAdd, checked, hvote, depth] using hs'

end Database

/-- The sums of a recount fit 64 bits: those of the votes, and those of the proxied votes, which
start from what is already there. -/
structure RecountFits (s : Database) : Prop where
  stakes : s.accounts.Forall fun _ a ↦ 0 ≤ a.balance + a.vestingShares
  total : s.accounts.sum (fun _ a ↦ a.balance + a.vestingShares) ≤ int64Max
  proxied : s.accounts.Forall fun name a ↦ ∀ d, int64Min ≤ a.proxiedVsfVotes d ∧
    a.proxiedVsfVotes d + s.proxiedStake (d + 1) name ≤ int64Max

instance (s : Database) : Decidable (RecountFits s) :=
  decidable_of_iff (s.accounts.Forall (fun _ a ↦ 0 ≤ a.balance + a.vestingShares) ∧
    s.accounts.sum (fun _ a ↦ a.balance + a.vestingShares) ≤ int64Max ∧
    s.accounts.Forall fun name a ↦ ∀ d, int64Min ≤ a.proxiedVsfVotes d ∧
      a.proxiedVsfVotes d + s.proxiedStake (d + 1) name ≤ int64Max)
    ⟨fun h ↦ ⟨h.1, h.2.1, h.2.2⟩, fun h ↦ ⟨h.stakes, h.total, h.proxied⟩⟩

namespace VoteLedger

variable {l : VoteLedger}

theorem restrict_level_le (hstakes : ∀ v, 0 ≤ l.stake v) (counted : List AccountName) (d : ℕ)
    (a : AccountName) :
    0 ≤ (l.restrict counted).level d a ∧ (l.restrict counted).level d a ≤ l.level d a := by
  have hpoint : ∀ v, 0 ≤ (l.restrict counted).stake v ∧
      (l.restrict counted).stake v ≤ l.stake v := by
    intro v
    simp only [restrict]
    split_ifs
    · exact ⟨hstakes v, le_rfl⟩
    · exact ⟨le_rfl, hstakes v⟩
  constructor
  · refine Finset.sum_nonneg fun v _ ↦ ?_
    split_ifs
    · exact (hpoint v).1
    · exact le_rfl
  · refine Finset.sum_le_sum fun v _ ↦ ?_
    simp only [show (l.restrict counted).proxyOf = l.proxyOf from rfl]
    split_ifs
    · exact (hpoint v).2
    · exact le_rfl

end VoteLedger

namespace Database

/-- The loop of `recalculate_all_votes` goes through. -/
theorem recount_loop_ok {l : VoteLedger} {s : Database} {counted names : List AccountName}
    (hstakes : ∀ v, 0 ≤ l.stake v)
    (htotal : ((counted ++ names).map l.stake).sum ≤ int64Max)
    (hproxied : ∀ a ∈ l.accounts, ∀ j, int64Min ≤ l.proxied a j ∧
      l.proxied a j + l.level (j + 1) a ≤ int64Max)
    (hnames : ∀ name ∈ names, name ∈ l.accounts) (hnodup : (counted ++ names).Nodup)
    (hs : BallotsInOrder s) (hledger : s.voteLedger = l.recount counted)
    (htally : ∀ w, 0 ≤ s.voteLedger.tally w ∧
      s.voteLedger.tally w ≤ (counted.map l.stake).sum) :
    ∃ s', names.foldlM (fun s name ↦ do
      let a ← s.getAccount name
      let total ← safeAdd a.balance a.vestingShares
      s.adjustProxiedWitnessVotes name total) s = .ok s' := by
  induction names generalizing s counted with
  | nil => exact ⟨s, rfl⟩
  | cons name rest ih =>
    have hname : name ∈ s.voteLedger.accounts := by
      rw [hledger]
      exact hnames name List.mem_cons_self
    obtain ⟨a, ha⟩ := mem_voteLedger_accounts.1 hname
    have hstake : a.balance + a.vestingShares = l.stake name := by
      have hstake := stake_eq ha
      rw [hledger] at hstake
      exact hstake.symm
    have hnew : name ∉ counted := fun hmem ↦
      (List.nodup_append.1 hnodup).2.2 name hmem name List.mem_cons_self rfl
    have hclosed : ∀ a p, l.proxyOf a = some p → p ∈ l.accounts := by
      have hproxies := hs.ledger.proxies
      rw [hledger] at hproxies
      exact hproxies
    have hnonneg : ∀ names : List AccountName, 0 ≤ (names.map l.stake).sum := by
      intro names
      apply List.sum_nonneg
      intro x hx
      obtain ⟨v, _, rfl⟩ := List.mem_map.1 hx
      exact hstakes v
    -- What has been counted leaves room for one more stake.
    have hroom : (counted.map l.stake).sum + l.stake name ≤ int64Max := by
      rw [List.map_append, List.sum_append, List.map_cons, List.sum_cons, ← add_assoc] at htotal
      exact (le_add_of_nonneg_right (hnonneg rest)).trans htotal
    have hvotes : s.RoomForVotes (l.stake name) := by
      intro witness w hw
      have hw' := htally witness
      rw [tally_eq hw] at hw'
      exact ⟨add_nonneg hw'.1 (hstakes name), (add_le_add_left hw'.2 _).trans hroom⟩
    have hlevel : ∀ (j : ℕ) p, climb l.proxyOf (j + 1) name = some p →
        (l.restrict counted).level (j + 1) p + l.stake name =
          (l.restrict (counted ++ [name])).level (j + 1) p := by
      intro j p hclimb
      have hupdate : levelSum l.proxyOf l.accounts (Function.update (l.restrict counted).stake name
          ((l.restrict counted).stake name + l.stake name)) (j + 1) p = _ :=
        levelSum_update (hnames name List.mem_cons_self) (l.stake name) (j + 1) p
      rw [if_pos hclimb] at hupdate
      rw [VoteLedger.level, VoteLedger.level, VoteLedger.restrict_append_stake hnew]
      exact hupdate.symm
    have hchain : ∀ (d : ℕ) (j : Fin maxProxyRecursionDepth) p,
        j.val = maxProxyRecursionDepth - maxProxyRecursionDepth + d →
        climb s.voteLedger.proxyOf (d + 1) name = some p →
          int64Min ≤ s.voteLedger.proxied p j + l.stake name ∧
            s.voteLedger.proxied p j + l.stake name ≤ int64Max := by
      intro d j p hj hclimb
      obtain rfl : d = j.val := by omega
      rw [hledger] at hclimb ⊢
      simp only [VoteLedger.recount] at hclimb ⊢
      rw [add_assoc, hlevel j.val p hclimb]
      obtain ⟨hlow, hhigh⟩ := VoteLedger.restrict_level_le hstakes (counted ++ [name]) (j.val + 1) p
      obtain ⟨hmin, hmax⟩ :=
        hproxied p (climb_mem hclosed (hnames name List.mem_cons_self) hclimb) j
      exact ⟨hmin.trans (le_add_of_nonneg_right hlow), (add_le_add_right hhigh _).trans hmax⟩
    obtain ⟨s₁, hpush⟩ := adjustProxiedWitnessVotesAt_ok le_rfl hs hname hvotes hchain
    have hs₁ : s₁.voteLedger = l.recount (counted ++ [name]) := by
      rw [adjustProxiedWitnessVotes_ledger hpush, hledger,
        VoteLedger.recount_push hclosed (hnames name List.mem_cons_self) hnew]
    have htally₁ : ∀ w, 0 ≤ s₁.voteLedger.tally w ∧
        s₁.voteLedger.tally w ≤ ((counted ++ [name]).map l.stake).sum := by
      intro w
      have hpushed : 0 ≤ pushRoot s.voteLedger.proxyOf maxProxyRecursionDepth
          (fun r ↦ (r, w) ∈ s.voteLedger.votes) (Pi.single 0 (l.stake name)) name ∧ _ :=
        pushRoot_single_mem (hstakes name) name
      rw [adjustProxiedWitnessVotes_ledger hpush, List.map_append, List.sum_append,
        List.map_singleton, List.sum_singleton]
      exact ⟨add_nonneg (htally w).1 hpushed.1, add_le_add (htally w).2 hpushed.2⟩
    rw [List.append_cons] at htotal hnodup
    obtain ⟨s', hs'⟩ := ih htotal (fun other hother ↦ hnames other (List.mem_cons_of_mem _ hother))
      hnodup ((adjustProxiedWitnessVotes_frame hpush).sameShape.ballotsInOrder hs) hs₁ htally₁
    have hsum : safeAdd a.balance a.vestingShares = .ok (l.stake name) := by
      rw [safeAdd, hstake]
      refine checked_eq_ok.2 ⟨⟨(by decide : int64Min ≤ 0).trans (hstakes name), ?_⟩, rfl⟩
      exact (le_add_of_nonneg_left (hnonneg counted)).trans hroom
    refine ⟨s', ?_⟩
    rw [List.foldlM_cons, bind_eq_ok]
    exact ⟨s₁, bind_eq_ok.2 ⟨a, orUnknownKey_eq_ok.2 ha, bind_eq_ok.2 ⟨_, hsum, hpush⟩⟩, hs'⟩

/-- Where the sums fit, the votes can be counted anew. -/
theorem recalculateAllVotes_ok {s : Database} (hs : BallotsInOrder s) (hfits : RecountFits s) :
    ∃ s', s.recalculateAllVotes = .ok s' := by
  have hperm : (s.accounts.keys.insertionSort (· ≤ ·)).Perm s.accounts.keys :=
    List.perm_insertionSort _ _
  have hstakes : ∀ v, 0 ≤ s.voteLedger.stake v := by
    intro v
    cases ha : s.accounts.find? v with
    | none => simp [voteLedger, ha]
    | some a =>
      rw [stake_eq ha]
      exact hfits.stakes v a ha
  have htotal : ((s.accounts.keys.insertionSort (· ≤ ·)).map s.voteLedger.stake).sum ≤
      int64Max := by
    refine le_of_eq_of_le ?_ hfits.total
    rw [(hperm.map _).sum_eq, Table.sum_eq_finset_sum]
    exact (List.sum_toFinset _ s.accounts.nodup).symm
  have hproxied : ∀ name ∈ s.voteLedger.accounts, ∀ j,
      int64Min ≤ s.voteLedger.proxied name j ∧
        s.voteLedger.proxied name j + s.voteLedger.level (j + 1) name ≤ int64Max := by
    intro name hname j
    obtain ⟨a, ha⟩ := mem_voteLedger_accounts.1 hname
    rw [proxied_eq ha, level_eq]
    exact hfits.proxied name a ha j
  refine @recount_loop_ok s.voteLedger s.clearVotes [] _ hstakes htotal hproxied
    (fun name hname ↦ ?_) ?_ ?_ s.clearVotes_voteLedger fun w ↦ ?_
  · simpa [voteLedger] using hperm.mem_iff.1 hname
  · rw [List.nil_append]
    exact hperm.nodup_iff.2 s.accounts.nodup
  · have hshape : SameShape s s.clearVotes := ⟨rfl, rfl, rfl, Table.keys_mapRows _ _⟩
    exact hshape.ballotsInOrder hs
  · have hcleared : s.clearVotes.voteLedger.tally w = 0 := by
      cases hw : s.witnesses.find? w <;>
        simp [voteLedger, clearVotes, Table.find?_mapRows, hw]
    rw [hcleared]
    exact ⟨le_rfl, le_rfl⟩

end Database

end SophiaTX.Chain
