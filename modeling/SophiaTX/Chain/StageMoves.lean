import SophiaTX.Chain.OperationMoves

/-!
# Stages as moves

Every stage of a block that succeeds is a run of moves. Their effects on the books cancel, with
one exception: what the null account held is burned without going to a pool.
-/

namespace SophiaTX.Chain

open SophiaTX.Protocol SophiaTX.Lib

/-- A witness without its place in the schedule and in virtual time. -/
def Witness.unscheduled (w : Witness) : Witness :=
  { w with
    schedule := .none
    virtualLastUpdate := 0
    virtualPosition := 0
    virtualScheduledTime := 0 }

namespace Database

variable {ctx : Context} {g : GenesisState} {s s' : Database} {stage : Stage}

/-! ## Hardforks and the block header -/

theorem applyHardfork_explained {hardfork : ℕ} (h : s.applyHardfork g hardfork = .ok s')
    (hstage : stage.Allows (.applyHardfork hardfork)) : Explained g stage 0 s s' :=
  .single (m := .applyHardfork hardfork) h hstage

theorem setHardfork_explained {hardfork : ℕ} (h : s.setHardfork g hardfork = .ok s')
    (hstage : ∀ i, stage.Allows (.applyHardfork i)) : Explained g stage 0 s s' := by
  refine foldlM_invariant (I := Explained g stage 0 s) ?_ h (.refl s)
  intro s₁ i s₂ _ hround hs₁
  have hnext : Frame s₁ { s₁ with hardforks := { s₁.hardforks with
      nextHardfork := hardforkVersions i
      nextHardforkTime := s₁.dgp.time } } :=
    ⟨.refl _, .refl _, rfl, rfl, rfl, rfl, rfl⟩
  exact ((hs₁.trans (.frame hnext)).trans (applyHardfork_explained hround (hstage i))).cast
    (add_zero 0)

theorem processHardforksLoop_explained {rounds : ℕ}
    (h : processHardforksLoop g rounds s = .ok s')
    (hstage : ∀ i, stage.Allows (.applyHardfork i)) : Explained g stage 0 s s' := by
  induction rounds generalizing s with
  | zero => exact pure_eq_ok.1 h ▸ .refl s
  | succ rounds ih =>
    unfold processHardforksLoop at h
    split at h
    · split at h
      · simp only [bind_eq_ok] at h
        obtain ⟨s₁, hfork, h⟩ := h
        exact ((applyHardfork_explained hfork (hstage _)).trans (ih h)).cast (add_zero 0)
      · cases h
    · exact pure_eq_ok.1 h ▸ .refl s

theorem applyGenesisHardforks_explained {b : SignedBlock}
    (h : s.applyGenesisHardforks g b = .ok s') : Explained g (.openBlock b) 0 s s' := by
  simp only [applyGenesisHardforks] at h
  split at h
  · simp only [bind_eq_ok, pure_eq_ok] at h
    obtain ⟨s₁, hfork, _, _, rfl⟩ := h
    have hs₁ : Explained g (.openBlock b) 0 s s₁ :=
      setHardfork_explained hfork fun _ ↦ .inl ⟨b, rfl⟩
    refine (hs₁.trans (.frame (.ofWitnesses ?_))).cast (add_zero 0)
    exact Table.AgreeOn.mapRows _ fun _ _ ↦ rfl
  · exact pure_eq_ok.1 h ▸ .refl s

theorem processHeaderExtension_frame {witness : AccountName} {extension : BlockHeaderExtension}
    (h : processHeaderExtension witness s extension = .ok s') : Frame s s' := by
  cases extension with
  | void => exact pure_eq_ok.1 h ▸ .refl s
  | version _ | hardforkVersionVote _ _ =>
    simp only [processHeaderExtension, bind_eq_ok, pure_eq_ok] at h
    obtain ⟨_, _, rfl⟩ := h
    exact .modifyWitness _ _ fun _ ↦ rfl

theorem openBlock_explained {b : SignedBlock} (h : s.openBlock ctx b = .ok s') :
    Explained ctx.genesis (.openBlock b) 0 s s' := by
  simp only [openBlock, bind_eq_ok, pure_eq_ok] at h
  obtain ⟨s₁, hforks, _, _, _, _, _, _, s₂, hextensions, _, _, _, _, rfl⟩ := h
  have hwitness : Frame s₁ { s₁ with dgp := { s₁.dgp with currentWitness := b.witness } } :=
    ⟨.refl _, .refl _, rfl, rfl, rfl, rfl, rfl⟩
  have hs₂ : Frame s₁ s₂ :=
    hwitness.trans (.foldlM (fun _ _ _ ↦ processHeaderExtension_frame) hextensions)
  exact ((applyGenesisHardforks_explained hforks).trans (.frame hs₂)).cast (add_zero 0)

/-! ## Around the transactions -/

theorem openTransaction_frame {trx : Transaction} (h : s.openTransaction ctx trx = .ok s') :
    Frame s s' := by
  simp only [openTransaction, bind_eq_ok] at h
  obtain ⟨_, _, _, _, _, _, _, _, h⟩ := h
  split at h
  · simp only [bind_eq_ok, pure_eq_ok] at h
    obtain ⟨_, _, rfl⟩ := h
    exact .rest rfl
  · exact pure_eq_ok.1 h ▸ .refl s

theorem openTransaction_validate {trx : Transaction} (hskip : ctx.skip.validate = false)
    (h : s.openTransaction ctx trx = .ok s') {op : FeeOperation} (hop : op ∈ trx.operations) :
    op.op.validate ctx.env ctx.genesis = .ok () := by
  simp only [openTransaction, bind_eq_ok, hskip] at h
  obtain ⟨_, hvalid, _⟩ := h
  rw [if_neg (by simp), Transaction.validate, bind_eq_ok] at hvalid
  obtain ⟨_, _, hvalid⟩ := hvalid
  exact forM_eq_ok hvalid op hop

theorem closeTransaction_frame {trx : Transaction} (h : s.closeTransaction ctx trx = .ok s') :
    Frame s s' := by
  simp only [closeTransaction] at h
  split at h
  · refine .foldlM (fun s₁ account s₂ hround ↦ ?_) h
    simp only [updateAccountBandwidth, bind_eq_ok, pure_eq_ok] at hround
    obtain ⟨_, _, _, _, _, _, rfl⟩ := hround
    exact .rest rfl
  · exact pure_eq_ok.1 h ▸ .refl s

/-! ## After the transactions -/

theorem missSlot_frame {producer : AccountName} {slot : ℕ}
    (h : missSlot g producer s slot = .ok s') : Frame s s' := by
  simp only [missSlot, bind_eq_ok] at h
  obtain ⟨_, _, _, _, h⟩ := h
  split at h
  · cases h
    exact .modifyWitness _ _ fun _ ↦ rfl
  · exact pure_eq_ok.1 h ▸ .refl s

/-- The participation window is bookkeeping. -/
theorem shiftSlots_eq (rounds : List ℕ) (dgp : DynamicGlobalProperties) :
    rounds.foldl shiftSlots dgp = { dgp with
      participationCount := (rounds.foldl shiftSlots dgp).participationCount
      recentSlotsFilled := (rounds.foldl shiftSlots dgp).recentSlotsFilled } := by
  induction rounds generalizing dgp with
  | nil => rfl
  | cons round rest ih =>
    rw [List.foldl_cons, ih]
    rfl

/-- `update_global_dynamic_data` moves the head and touches neither money nor votes. -/
theorem updateGlobalDynamicData_eq_ok {b : SignedBlock}
    (h : s.updateGlobalDynamicData ctx b = .ok s') :
    s'.dgp.headBlockNumber = b.blockNum ∧ s'.dgp.headBlockId = ctx.env.blockId b ∧
      Frame s { s' with dgp := { s'.dgp with
        headBlockNumber := s.dgp.headBlockNumber
        headBlockId := s.dgp.headBlockId } } := by
  simp only [updateGlobalDynamicData, bind_eq_ok, pure_eq_ok] at h
  obtain ⟨_, _, s₁, hmissed, _, _, rfl⟩ := h
  have hs₁ : Frame s s₁ := .foldlM (fun _ _ _ ↦ missSlot_frame) hmissed
  rw [shiftSlots_eq]
  refine ⟨rfl, rfl, hs₁.trans ⟨.refl _, .refl _, rfl, rfl, rfl, rfl, ?_⟩⟩
  simp only [DynamicGlobalProperties.core, hs₁.sameMoney.headBlockNumber,
    hs₁.sameMoney.headBlockId]

theorem updateSigningWitness_explained {b : SignedBlock}
    (h : s.updateSigningWitness g b = .ok s') :
    Explained g (.updateSigningWitness b) 0 s s' := by
  simp only [updateSigningWitness, bind_eq_ok, pure_eq_ok] at h
  obtain ⟨_, _, rfl⟩ := h
  exact .single (m := .confirmBlock b.witness b.blockNum) ⟨_, rfl⟩ ⟨b, rfl, rfl, rfl⟩

theorem updateLastIrreversibleBlock_explained (h : s.updateLastIrreversibleBlock g = .ok s') :
    Explained g .updateLastIrreversibleBlock 0 s s' := by
  simp only [updateLastIrreversibleBlock, bind_eq_ok, pure_eq_ok] at h
  obtain ⟨num, _, rfl⟩ := h
  exact .single (m := .setIrreversible num) rfl rfl

theorem advanceProcessed_agree {newVirtualTime : ℕ} {processed : List (AccountName × Witness)}
    {witnesses witnesses' : Table AccountName Witness} {overflow : Bool}
    (h : advanceProcessed newVirtualTime processed witnesses = .ok (witnesses', overflow)) :
    witnesses.AgreeOn Witness.unscheduled witnesses' := by
  induction processed generalizing witnesses with
  | nil =>
    cases h
    exact .refl _
  | cons entry rest ih =>
    simp only [advanceProcessed, bind_eq_ok] at h
    obtain ⟨lap, _, h⟩ := h
    split at h
    · cases h
      exact .refl _
    · refine Table.AgreeOn.trans ?_ (ih h)
      exact Table.AgreeOn.modify _ _ fun _ _ ↦ rfl

theorem resetVirtualScheduleTime_agree {witnesses witnesses' : Table AccountName Witness}
    (h : resetVirtualScheduleTime witnesses = .ok witnesses') :
    witnesses.AgreeOn Witness.unscheduled witnesses' := by
  refine foldlM_invariant (I := witnesses.AgreeOn Witness.unscheduled) ?_ h (.refl _)
  intro t entry t' _ hround ht
  simp only [bind_eq_ok, pure_eq_ok] at hround
  obtain ⟨_, _, rfl⟩ := hround
  exact ht.trans (Table.AgreeOn.modify _ _ fun _ _ ↦ rfl)

theorem countHardforkVotes_processed {v : Version} {hardforks : HardforkProperty}
    (h : s.countHardforkVotes = .ok (v, hardforks)) :
    hardforks.processedHardforks = s.hardforks.processedHardforks := by
  simp only [countHardforkVotes, bind_eq_ok] at h
  obtain ⟨_, _, h⟩ := h
  split at h <;> cases h <;> rfl

theorem setSchedule_agree (s : Database) (names : List AccountName)
    (schedule : WitnessScheduleType) :
    s.witnesses.AgreeOn Witness.unscheduled (s.setSchedule names schedule).witnesses := by
  refine Table.AgreeOn.mapRows _ fun name w ↦ ?_
  split <;> rfl

/-- The new schedule: rows of witnesses change in their places only, and the votes for hardforks
are counted on the old schedule. -/
theorem updateWitnessSchedule4_eq_ok (h : s.updateWitnessSchedule4 g = .ok s') :
    ∃ witnesses v hardforks, s.witnesses.AgreeOn Witness.unscheduled witnesses ∧
      { s with witnesses := witnesses }.countHardforkVotes = .ok (v, hardforks) ∧
      s' = { s with
        witnesses := witnesses
        hardforks := hardforks
        wso := s'.wso
        dgp := { s.dgp with maximumBlockSize := s'.dgp.maximumBlockSize } } := by
  simp only [updateWitnessSchedule4, bind_eq_ok, Prod.exists] at h
  obtain ⟨advanced, overflow, hadvance, witnesses, hreset, _, _, v, hardforks, hvotes, hprops⟩ := h
  generalize selectRunners g.maxWitnesses _ _ _ = selection at hadvance hvotes hprops
  have hschedule := (setSchedule_agree s s.electedWitnesses .top19).trans
    (setSchedule_agree (s.setSchedule s.electedWitnesses .top19) selection.runners .timeshare)
  have hwitnesses : advanced.AgreeOn Witness.unscheduled witnesses := by
    split at hreset
    · exact resetVirtualScheduleTime_agree hreset
    · exact pure_eq_ok.1 hreset ▸ .refl _
  refine ⟨witnesses, v, hardforks,
    (hschedule.trans (advanceProcessed_agree hadvance)).trans hwitnesses, hvotes, ?_⟩
  simp only [updateMedianWitnessProps, bind_eq_ok] at hprops
  obtain ⟨_, _, hprops⟩ := hprops
  split at hprops
  · cases hprops
    rfl
  · cases hprops

theorem updateWitnessSchedule4_frame (h : s.updateWitnessSchedule4 g = .ok s') : Frame s s' := by
  obtain ⟨witnesses, v, hardforks, hwitnesses, hvotes, hs'⟩ := updateWitnessSchedule4_eq_ok h
  have hprocessed := countHardforkVotes_processed hvotes
  rw [hs']
  exact ⟨.refl _, hwitnesses.map Witness.record, rfl, rfl, rfl, hprocessed, rfl⟩

theorem updateWitnessSchedule_frame (h : s.updateWitnessSchedule g = .ok s') : Frame s s' := by
  unfold updateWitnessSchedule at h
  split at h
  · cases h
  · split at h
    · exact updateWitnessSchedule4_frame h
    · exact pure_eq_ok.1 h ▸ .refl s

theorem updateMedianFeeds_frame (h : s.updateMedianFeeds g = .ok s') : Frame s s' := by
  unfold updateMedianFeeds at h
  split at h
  · cases h
  · split at h
    · exact pure_eq_ok.1 h ▸ .refl s
    · simp only [bind_eq_ok] at h
      obtain ⟨feeds, _, h⟩ := h
      refine .foldlM (fun s₁ symbol s₂ hround ↦ ?_) h
      simp only [updateMedianFeed] at hround
      split at hround
      · simp only [bind_eq_ok, pure_eq_ok] at hround
        obtain ⟨_, _, _, _, rfl⟩ := hround
        exact .rest rfl
      · exact pure_eq_ok.1 hround ▸ .refl s₁

theorem accountRecoveryProcessing_frame (h : s.accountRecoveryProcessing = .ok s') :
    Frame s s' := by
  simp only [accountRecoveryProcessing] at h
  refine Frame.trans (.rest rfl) (.foldlM (fun s₁ entry s₂ hround ↦ ?_) h)
  simp only [applyRecoveryChange, bind_eq_ok, pure_eq_ok] at hround
  obtain ⟨_, _, rfl⟩ := hround
  exact (Frame.modifyAccount s₁ entry.1 (f := fun a ↦
    { a with recoveryAccount := entry.2.recoveryAccount }) fun _ ↦ rfl).trans (.rest rfl)

/-! ## Payouts -/

theorem find?_of_findAccountById {id : ℕ} {name : AccountName} {a : Account}
    (h : s.findAccountById id = some (name, a)) :
    s.accounts.find? name = some a ∧ a.id = id := by
  unfold findAccountById at h
  have hid := List.find?_some h
  exact ⟨(Table.find?_eq_some_iff _ _ _).2 (List.mem_of_find?_eq_some h), by simpa using hid⟩

theorem payInterests_explained {rounds id : ℕ} {supplyIncrease total : ShareType} (hs : Sound s)
    (hbatch : id % interestBlocks = s.dgp.headBlockNumber % interestBlocks)
    (h : payInterests g rounds id s supplyIncrease = .ok (s', total)) :
    Explained g .processInterests (supplyIncrease - total, 0, supplyIncrease - total) s s' := by
  induction rounds generalizing id s supplyIncrease with
  | zero =>
    cases h
    exact (Explained.refl _).cast (by simp [Prod.zero_eq_mk])
  | succ rounds ih =>
    unfold payInterests at h
    split at h
    · cases h
      exact (Explained.refl _).cast (by simp [Prod.zero_eq_mk])
    · rename_i name a hfind
      simp only [bind_eq_ok, Prod.exists] at h
      obtain ⟨s₁, interest, hpay, increased, hincrease, h⟩ := h
      obtain ⟨ha, rfl⟩ := find?_of_findAccountById hfind
      obtain ⟨hinterest, economics, _, _, hmoney⟩ := payInterest_money ha hs.accumulated hpay
      have hstep : Explained g .processInterests (-interest, 0, -interest) s s₁ :=
        .single (m := .payInterest name interest) ⟨a, ha, hbatch, hpay⟩ rfl
      -- A turn without interest leaves the increase as it is.
      have hincreased : increased = supplyIncrease + interest := by
        split at hincrease
        · simp only [safeAdd, checked_eq_ok] at hincrease
          exact hincrease.2.symm
        · rename_i hzero
          cases hincrease
          rw [le_antisymm (not_lt.1 hzero) hinterest, add_zero]
      have hhead : s₁.dgp.headBlockNumber = s.dgp.headBlockNumber := hmoney.headBlockNumber
      have hbatch₁ : (a.id + interestBlocks) % interestBlocks =
          s₁.dgp.headBlockNumber % interestBlocks := by
        rw [Nat.add_mod_right, hhead, hbatch]
      refine (hstep.trans (ih (hstep.sound hs) hbatch₁ h)).cast ?_
      simp only [hincreased, Prod.mk_add_mk, Prod.mk.injEq]
      refine ⟨?_, ?_, ?_⟩ <;> ring

theorem processInterests_explained (hs : Sound s) (h : s.processInterests g = .ok s') :
    Explained g .processInterests 0 s s' := by
  simp only [processInterests, bind_eq_ok, Prod.exists] at h
  obtain ⟨s₁, total, hpay, hsupply⟩ := h
  refine ((payInterests_explained hs (Nat.mod_mod _ _) hpay).trans
    (.adjustSupply hsupply)).cast ?_
  simp

theorem clearNullLiquid_explained {a : Account} {total : ShareType}
    (ha : s.accounts.find? nullAccount = some a)
    (h : s.clearNullLiquid g a.balance = .ok (s', total)) :
    Explained g stage (total, 0, 0) s s' ∧ total = max 0 a.balance ∧
      ∃ a', s'.accounts.find? nullAccount = some a' ∧ a'.vestingShares = a.vestingShares := by
  unfold clearNullLiquid at h
  split at h
  · rename_i hpos
    simp only [safeNeg, bind_eq_ok, checked_eq_ok, pure_eq_ok, Prod.mk.injEq] at h
    obtain ⟨_, ⟨_, rfl⟩, s₁, hbalance, rfl, rfl⟩ := h
    refine ⟨(Explained.adjustBalance hbalance).cast (by simp), (max_eq_right hpos.le).symm, ?_⟩
    obtain ⟨_, b, hb, _, hvotes⟩ := adjustBalance_eq_ok hbalance
    rw [ha] at hb
    cases hb
    obtain ⟨a', ha', hrow⟩ := (adjustProxiedWitnessVotes_frame hvotes).accounts.exists_right
      (k := nullAccount) (by rw [modifyAccount, Table.find?_modify_self, ha, Option.map_some])
    have hvesting := congrArg (fun a ↦ a.vestingShares) hrow
    exact ⟨a', ha', by simpa [Account.withoutProxied, Account.credit] using hvesting⟩
  · rename_i hneg
    cases h
    exact ⟨.refl s, (max_eq_left (not_lt.1 hneg)).symm, a, ha, rfl⟩

theorem clearNullVesting_explained {a : Account} {vestingShares liquid total : ShareType}
    (ha : s.accounts.find? nullAccount = some a) (hvesting : a.vestingShares = vestingShares)
    (h : s.clearNullVesting vestingShares liquid = .ok (s', total)) :
    Explained g .clearNullAccountBalance (total - liquid, 0, 0) s s' ∧
      total = liquid + max 0 vestingShares := by
  unfold clearNullVesting at h
  split at h
  · rename_i hpos
    simp only [safeSub, safeAdd, bind_eq_ok, checked_eq_ok, pure_eq_ok, Prod.mk.injEq] at h
    obtain ⟨_, ⟨_, rfl⟩, _, ⟨_, rfl⟩, rfl, rfl⟩ := h
    refine ⟨.cast (.single (m := .burnVesting vestingShares) ⟨a, ha, hvesting, rfl⟩ rfl) ?_, ?_⟩
    · simp [Move.effect]
    · rw [max_eq_right hpos.le]
  · rename_i hneg
    cases h
    exact ⟨(Explained.refl s).cast (by simp [Prod.zero_eq_mk]), by simp [not_lt.1 hneg]⟩

/-- What the null account holds. -/
def nullHoldings (s : Database) : ShareType :=
  match s.accounts.find? nullAccount with
  | some a => max 0 a.balance + max 0 a.vestingShares
  | none => 0

theorem clearNullAccountBalance_explained (h : s.clearNullAccountBalance g = .ok s') :
    Explained g .clearNullAccountBalance (0, 0, -s.nullHoldings) s s' := by
  simp only [clearNullAccountBalance, getAccount, bind_eq_ok, orUnknownKey_eq_ok,
    Prod.exists] at h
  obtain ⟨a, ha, s₁, liquid, hliquid, s₂, total, hvesting, h⟩ := h
  obtain ⟨hs₁, rfl, a₁, ha₁, hshares⟩ := clearNullLiquid_explained ha hliquid
  obtain ⟨hs₂, rfl⟩ := clearNullVesting_explained ha₁ hshares hvesting
  have hburned : s.nullHoldings = max 0 a.balance + max 0 a.vestingShares := by
    simp [nullHoldings, ha]
  split at h
  · simp only [safeNeg, bind_eq_ok, checked_eq_ok] at h
    obtain ⟨_, ⟨_, rfl⟩, hsupply⟩ := h
    refine ((hs₁.trans hs₂).trans (.adjustSupply hsupply)).cast ?_
    simp [hburned]
  · rename_i hnone
    cases h
    have hzero : max 0 a.balance + max 0 a.vestingShares = 0 :=
      le_antisymm (not_lt.1 hnone) (add_nonneg (le_max_left _ _) (le_max_left _ _))
    refine (hs₁.trans hs₂).cast ?_
    simp [hburned, hzero]

theorem processFunds_explained {blockNum : ℕ} (h : s.processFunds g blockNum = .ok s') :
    Explained g stage 0 s s' := by
  simp only [processFunds, safeAdd, bind_eq_ok, Prod.exists, checked_eq_ok, pure_eq_ok] at h
  obtain ⟨w, _, economics, reward, hreward, s₁, hvesting, _, ⟨_, rfl⟩, _, ⟨_, rfl⟩, rfl⟩ := h
  obtain ⟨hpools, hhistory⟩ := EconomicModel.withdrawMiningReward_eq_ok hreward
  rw [sub_eq_add_neg] at hpools
  have hcreate : Explained g stage (-reward, -reward, 0) { s with economics := economics } s₁ :=
    .single (m := .createVesting _ reward) hvesting trivial
  have hmint : Explained g stage (reward, reward, reward) s₁ { s₁ with dgp := { s₁.dgp with
      currentSupply := s₁.dgp.currentSupply + reward
      totalVestingShares := s₁.dgp.totalVestingShares + reward } } :=
    .single (m := .mintVesting reward) ⟨(createVesting_eq_ok hvesting).2.1, rfl⟩ trivial
  refine (((Explained.changePools hpools hhistory).trans hcreate).trans hmint).cast ?_
  simp

/-! ## Loops over an index -/

theorem earlierWithdrawal_eq_some {first : Option (AccountName × Account)}
    {entry e : AccountName × Account} (h : earlierWithdrawal first entry = some e) :
    e = entry ∨ first = some e := by
  cases first with
  | none => exact .inl (Option.some.inj h).symm
  | some best =>
    simp only [earlierWithdrawal] at h
    split_ifs at h
    · exact .inl (Option.some.inj h).symm
    · exact .inr h

theorem firstWithdrawal_mem {entries : List (AccountName × Account)}
    {entry : AccountName × Account} (h : firstWithdrawal entries = some entry) :
    entry ∈ entries := by
  have hfold : ∀ (l : List (AccountName × Account)) (first : Option (AccountName × Account)),
      l.foldl earlierWithdrawal first = some entry → entry ∈ l ∨ first = some entry := by
    intro l
    induction l with
    | nil => exact fun _ hfirst ↦ .inr hfirst
    | cons a rest ih =>
      intro first hfirst
      rw [List.foldl_cons] at hfirst
      rcases ih _ hfirst with hmem | hearlier
      · exact .inl (List.mem_cons_of_mem a hmem)
      · rcases earlierWithdrawal_eq_some hearlier with rfl | hsome
        · exact .inl List.mem_cons_self
        · exact .inr hsome
  rcases hfold entries none h with hmem | hnone
  · exact hmem
  · cases hnone

/-- The iterator of the loop always stands on a row of the account table. -/
theorem vestingWithdrawalsLoop_invariant {I : Database → Prop}
    (hround : ∀ s name a s', s.accounts.find? name = some a →
      a.nextVestingWithdrawal ≤ s.dgp.time → s.processVestingWithdrawal name a = .ok s' →
        I s → I s')
    {rounds : ℕ} {current : Option (AccountName × Account)}
    (hcurrent : ∀ name a, current = some (name, a) → s.accounts.find? name = some a)
    (h : vestingWithdrawalsLoop rounds current s = .ok s') (hs : I s) : I s' := by
  induction rounds generalizing current s with
  | zero =>
    unfold vestingWithdrawalsLoop at h
    exact pure_eq_ok.1 h ▸ hs
  | succ rounds ih =>
    cases current with
    | none =>
      unfold vestingWithdrawalsLoop at h
      exact pure_eq_ok.1 h ▸ hs
    | some entry =>
      obtain ⟨name, a⟩ := entry
      unfold vestingWithdrawalsLoop at h
      split at h
      · rename_i hdue
        simp only [bind_eq_ok] at h
        obtain ⟨s₁, hpay, h⟩ := h
        have ha := hcurrent name a rfl
        refine ih ?_ h (hround s name a s₁ ha hdue hpay hs)
        intro next b hnext
        have hmem := List.mem_filter.1 (firstWithdrawal_mem hnext)
        have hb : s.accounts.find? next = some b := (Table.find?_eq_some_iff _ _ _).2 hmem.1
        have hne : next ≠ name := by
          rintro rfl
          rw [ha] at hb
          cases hb
          simp [withdrawalBefore] at hmem
        obtain ⟨_, _, _, _, _, rfl⟩ := processVestingWithdrawal_eq_ok hpay
        rw [modifyAccount, Table.find?_modify_of_ne _ _ hne]
        exact hb
      · exact pure_eq_ok.1 h ▸ hs

theorem processVestingWithdrawals_invariant {I : Database → Prop}
    (hround : ∀ s name a s', s.accounts.find? name = some a →
      a.nextVestingWithdrawal ≤ s.dgp.time → s.processVestingWithdrawal name a = .ok s' →
        I s → I s')
    (h : s.processVestingWithdrawals = .ok s') (hs : I s) : I s' := by
  refine vestingWithdrawalsLoop_invariant hround (fun name a hfirst ↦ ?_) h hs
  exact (Table.find?_eq_some_iff _ _ _).2 (firstWithdrawal_mem hfirst)

theorem processVestingWithdrawals_explained (h : s.processVestingWithdrawals = .ok s') :
    Explained g .processVestingWithdrawals 0 s s' := by
  refine processVestingWithdrawals_invariant (fun s₁ name a s₂ ha _ hpay hs₁ ↦ ?_) h (.refl s)
  have hstep : Explained g .processVestingWithdrawals 0 s₁ s₂ :=
    .single (m := .payWithdrawal name) ⟨a, ha, hpay⟩ rfl
  exact (hs₁.trans hstep).cast (add_zero 0)

theorem refundEscrows_explained {entries : List ((AccountName × ℕ) × Escrow)}
    (hstage : ∀ key e, stage.Allows (.removeEscrow key e))
    (hnodup : (entries.map Prod.fst).Nodup)
    (hentries : ∀ entry ∈ entries, s.escrows.find? entry.1 = some entry.2)
    (h : entries.foldlM (fun s entry ↦ s.refundEscrow g entry.1 entry.2) s = .ok s') :
    Explained g stage 0 s s' := by
  induction entries generalizing s with
  | nil => exact pure_eq_ok.1 h ▸ .refl s
  | cons entry rest ih =>
    rw [List.foldlM_cons, bind_eq_ok] at h
    obtain ⟨s₁, hrefund, h⟩ := h
    rw [List.map_cons, List.nodup_cons] at hnodup
    obtain ⟨hs₁, hescrows⟩ : Explained g stage 0 s s₁ ∧ _ :=
      refundEscrow_explained (hstage _ _) (hentries entry List.mem_cons_self) hrefund
    refine (hs₁.trans (ih hnodup.2 ?_ h)).cast (add_zero 0)
    intro other hother
    have hne : other.1 ≠ entry.1 := by
      intro hsame
      exact hnodup.1 (List.mem_map.2 ⟨other, hother, hsame⟩)
    rw [hescrows, Table.find?_erase, if_neg hne]
    exact hentries other (List.mem_cons_of_mem entry hother)

theorem expireEscrowRatification_explained (h : s.expireEscrowRatification g = .ok s') :
    Explained g .expireEscrowRatification 0 s s' := by
  refine refundEscrows_explained (fun _ _ ↦ .inr rfl) s.nodup_unratifiedEscrows
    (fun entry hentry ↦ ?_) h
  exact (mem_unratifiedEscrows.1 hentry).1

end Database

/-! ## All stages -/

/-- An operation of a stage has passed its own checks. -/
def Stage.Valid (ctx : Context) : Stage → Prop
  | .operation _ op => op.op.validate ctx.env ctx.genesis = .ok ()
  | _ => True

/-- What a stage takes out of the books. -/
def Stage.burned (s : Database) : Stage → ShareType
  | .clearNullAccountBalance => if s.dgp.privateNet then 0 else s.nullHoldings
  | _ => 0

theorem onPublicNet_explained {g : GenesisState} {stage : Stage} {s s' : Database}
    {step : Database → Exec Database} (h : onPublicNet s step = .ok s')
    (hstep : step s = .ok s' → Explained g stage 0 s s') : Explained g stage 0 s s' := by
  unfold onPublicNet at h
  split at h
  · exact pure_eq_ok.1 h ▸ .refl s
  · exact hstep h

/-- Every stage is a run of moves; all it takes out of the books is what it burns. -/
theorem Stage.explained {ctx : Context} {stage : Stage} {s s' : Database} (hs : Sound s)
    (hvalid : stage.Valid ctx) (h : stage.run ctx s = .ok s') :
    Explained ctx.genesis stage (0, 0, -stage.burned s) s s' := by
  cases stage with
  | openBlock b => exact Database.openBlock_explained h
  | openTransaction trx => exact .frame (Database.openTransaction_frame h)
  | operation trx op => exact Database.applyOperation_explained hs hvalid h
  | closeTransaction trx => exact .frame (Database.closeTransaction_frame h)
  | updateGlobalDynamicData b =>
    obtain ⟨hhead, hheadId, hframe⟩ := Database.updateGlobalDynamicData_eq_ok h
    exact .single (m := .advanceHead b.blockNum) ⟨_, rfl, hhead, hheadId, hframe⟩ ⟨b, rfl, rfl⟩
  | updateSigningWitness b => exact Database.updateSigningWitness_explained h
  | updateLastIrreversibleBlock => exact Database.updateLastIrreversibleBlock_explained h
  | createBlockSummary b => exact pure_eq_ok.1 h ▸ .frame (.rest rfl)
  | clearExpiredTransactions => exact pure_eq_ok.1 h ▸ .frame (.rest rfl)
  | updateWitnessSchedule => exact .frame (Database.updateWitnessSchedule_frame h)
  | processInterests =>
    exact onPublicNet_explained h (Database.processInterests_explained hs)
  | updateMedianFeeds =>
    exact onPublicNet_explained h fun h ↦ .frame (Database.updateMedianFeeds_frame h)
  | clearNullAccountBalance =>
    simp only [run, onPublicNet] at h
    split at h
    · rename_i hprivate
      cases h
      exact (Explained.refl s).cast (by simp [burned, hprivate, Prod.zero_eq_mk])
    · rename_i hpublic
      refine (Database.clearNullAccountBalance_explained h).cast ?_
      rw [burned, if_neg hpublic]
  | processFunds b =>
    unfold run at h
    exact onPublicNet_explained h Database.processFunds_explained
  | processVestingWithdrawals =>
    exact onPublicNet_explained h Database.processVestingWithdrawals_explained
  | accountRecoveryProcessing => exact .frame (Database.accountRecoveryProcessing_frame h)
  | expireEscrowRatification => exact Database.expireEscrowRatification_explained h
  | processHardforks => exact Database.processHardforksLoop_explained h fun _ ↦ .inr rfl
  | recordBlock b =>
    unfold run at h
    exact onPublicNet_explained h fun h ↦ .single (m := .recordBlock b.blockNum) h ⟨b, rfl, rfl⟩

end SophiaTX.Chain
