import SophiaTX.Chain.Quiet
import SophiaTX.Chain.Position
import SophiaTX.Chain.RegistrySteps
import SophiaTX.Chain.Genesis

/-!
# Slots

Time is cut into slots of a block interval each, counted from the head of the chain: from its own
time while there is no block yet, and from the start of its interval afterwards. Every block is
produced in a slot of its own, and `current_aslot` counts the slots of the chain.
-/

namespace SophiaTX.Chain

open SophiaTX.Protocol SophiaTX.Lib

namespace Database

/-- `get_slot_time`. -/
def getSlotTime (g : GenesisState) (s : Database) (slotNum : ℕ) : ℕ :=
  if slotNum = 0 then 0 else s.slotTime g slotNum

/-- The time slots are counted from. -/
def slotStart (g : GenesisState) (s : Database) : ℕ :=
  if s.dgp.headBlockNumber = 0 then s.dgp.time
  else s.dgp.time / g.blockInterval * g.blockInterval

/-- The time of a slot does not overflow. -/
def SlotFits (g : GenesisState) (s : Database) (slotNum : ℕ) : Prop :=
  s.slotStart g + slotNum * g.blockInterval < 4294967296

variable {g : GenesisState} {s s' : Database}

theorem slotTime_eq (g : GenesisState) (s : Database) (slotNum : ℕ) :
    s.slotTime g slotNum = timeAdd (s.slotStart g) (slotNum * g.blockInterval) := by
  unfold slotTime slotStart
  split <;> rfl

theorem slotTime_of_fits {slotNum : ℕ} (h : s.SlotFits g slotNum) :
    s.slotTime g slotNum = s.slotStart g + slotNum * g.blockInterval := by
  rw [slotTime_eq, timeAdd]
  exact Nat.mod_eq_of_lt h

theorem slotAtTime_of_fits {time : ℕ} (hfirst : s.SlotFits g 1) :
    s.slotAtTime g time = if time < s.slotStart g + g.blockInterval then 0
      else (time - (s.slotStart g + g.blockInterval)) / g.blockInterval + 1 := by
  simp only [slotAtTime, slotTime_of_fits hfirst, one_mul]

theorem SlotFits.mono {n m : ℕ} (h : s.SlotFits g m) (hle : n ≤ m) : s.SlotFits g n := by
  have hmul := Nat.mul_le_mul_right g.blockInterval hle
  unfold SlotFits at h ⊢
  omega

/-- Later slots have later times. -/
theorem getSlotTime_lt {n m : ℕ} (hinterval : 0 < g.blockInterval) (hn : 1 ≤ n) (hlt : n < m)
    (h : s.SlotFits g m) : s.getSlotTime g n < s.getSlotTime g m := by
  have hmul : n * g.blockInterval < m * g.blockInterval := Nat.mul_lt_mul_of_pos_right hlt hinterval
  rw [getSlotTime, if_neg (by omega), getSlotTime, if_neg (by omega), slotTime_of_fits h,
    slotTime_of_fits (h.mono hlt.le)]
  omega

/-- The slots up to a time are those up to the slot at that time. -/
theorem le_slotAtTime_iff {n time : ℕ} (hinterval : 0 < g.blockInterval)
    (hfirst : s.SlotFits g 1) (hn : 1 ≤ n) (h : s.SlotFits g n) :
    n ≤ s.slotAtTime g time ↔ s.getSlotTime g n ≤ time := by
  rw [getSlotTime, if_neg (by omega), slotTime_of_fits h, slotAtTime_of_fits hfirst]
  obtain ⟨k, rfl⟩ : ∃ k, n = k + 1 := ⟨n - 1, by omega⟩
  rw [Nat.add_mul, one_mul]
  split
  · constructor
    · omega
    · intro hle
      omega
  · rw [Nat.add_le_add_iff_right, Nat.le_div_iff_mul_le hinterval]
    omega

/-- The slot at a time is not after it. -/
theorem getSlotTime_slotAtTime_le {time : ℕ} (hinterval : 0 < g.blockInterval)
    (hfirst : s.SlotFits g 1) (htime : time < 4294967296) (hslot : s.slotAtTime g time ≠ 0) :
    s.getSlotTime g (s.slotAtTime g time) ≤ time := by
  have hdiv := Nat.div_mul_le_self (time - (s.slotStart g + g.blockInterval)) g.blockInterval
  have hfits : s.SlotFits g (s.slotAtTime g time) := by
    rw [slotAtTime_of_fits hfirst] at hslot ⊢
    split
    · rename_i hearly
      exact absurd (if_pos hearly) hslot
    · unfold SlotFits
      rw [Nat.add_mul, one_mul]
      omega
  exact (le_slotAtTime_iff hinterval hfirst (Nat.pos_of_ne_zero hslot) hfits).1 le_rfl

/-! ## Blocks -/

theorem slotAtTime_congr (hhead : s'.dgp.headBlockNumber = s.dgp.headBlockNumber)
    (htime : s'.dgp.time = s.dgp.time) (time : Time) :
    s'.slotAtTime g time = s.slotAtTime g time := by
  have hslot : s'.slotTime g 1 = s.slotTime g 1 := by
    rw [slotTime, slotTime, hhead, htime]
  rw [slotAtTime, slotAtTime, hslot]

end Database

variable {ctx : Context} {s s' : Database}

/-- Only the move of the head changes the count of slots. -/
theorem Stage.aslot_eq {stage : Stage} (h : stage.run ctx s = .ok s')
    (hstage : ∀ b, stage ≠ .updateGlobalDynamicData b) :
    s'.dgp.currentAslot = s.dgp.currentAslot := by
  cases stage with
  | operation trx op => exact (Database.applyOperation_paced h).1
  | updateGlobalDynamicData b => exact absurd rfl (hstage b)
  | updateWitnessSchedule =>
    simp only [run, Database.updateWitnessSchedule] at h
    split at h
    · cases h
    · split at h
      · obtain ⟨_, _, _, _, _, hs'⟩ := Database.updateWitnessSchedule4_eq_ok h
        rw [hs']
      · exact pure_eq_ok.1 h ▸ rfl
  | _ => exact (Stage.quiet h id).aslot

/-- What slots are counted by. -/
def Database.clock (s : Database) : ℕ × Time × ℕ :=
  (s.dgp.headBlockNumber, s.dgp.time, s.dgp.currentAslot)

theorem runStages_clock {stages : List Stage}
    (hstages : ∀ b, .updateGlobalDynamicData b ∉ stages)
    (h : runStages ctx stages s = .ok s') : s'.clock = s.clock := by
  refine foldlM_invariant (I := fun t ↦ t.clock = s.clock) ?_ h rfl
  intro s₁ stage s₂ hmem hrun hs₁
  have hne : ∀ b, stage ≠ .updateGlobalDynamicData b := by
    rintro b rfl
    exact hstages b hmem
  obtain ⟨hhead, htime⟩ := (Stage.registry_step hrun).clock_eq hne
  rw [← hs₁]
  exact Prod.ext hhead (Prod.ext htime (Stage.aslot_eq hrun hne))

/-- The header of a block is checked against the slots of its parent. -/
theorem Database.openBlock_slot {b : SignedBlock} (hskip : ctx.skip.witnessScheduleCheck = false)
    (h : s.openBlock ctx b = .ok s') :
    s.dgp.time < b.timestamp ∧ 1 ≤ s.slotAtTime ctx.genesis b.timestamp := by
  refine ⟨(openBlock_registry h).1, ?_⟩
  simp only [openBlock, validateBlockHeader, hskip, bind_eq_ok, fcAssert_eq_ok] at h
  obtain ⟨s₁, hforks, _, _, _, ⟨_, _, _, _, _, _, _, _, hcheck⟩, _⟩ := h
  rw [if_neg (by simp)] at hcheck
  simp only [bind_eq_ok, fcAssert_eq_ok] at hcheck
  obtain ⟨_, hslot, _⟩ := hcheck
  have hs₁ := applyGenesisHardforks_registry hforks
  have hhead : s₁.dgp.headBlockNumber = s.dgp.headBlockNumber := congrArg Registry.head hs₁
  have htime : s₁.dgp.time = s.dgp.time := congrArg Registry.time hs₁
  rw [slotAtTime_congr hhead htime] at hslot
  exact hslot

/-- A block moves the count of slots on by its slot, but by one when the time of its parent is
not set. -/
theorem applyBlock_slots {b : SignedBlock} (hskip : ctx.skip.witnessScheduleCheck = false)
    (h : applyBlock ctx s b = .ok s') :
    1 ≤ s.slotAtTime ctx.genesis b.timestamp ∧ s.dgp.time < s'.dgp.time ∧
      s'.dgp.currentAslot = s.dgp.currentAslot +
        if s.dgp.time = 0 then 1 else s.slotAtTime ctx.genesis b.timestamp := by
  simp only [applyBlock, runStages, stages_eq, List.foldlM_cons, List.foldlM_append, bind_eq_ok,
    pure_eq_ok] at h
  obtain ⟨s₄, ⟨s₁, hopen, s₂, htransactions, s₃, hhead, hrest⟩, _, _, rfl⟩ := h
  obtain ⟨htime, hslot⟩ := Database.openBlock_slot hskip hopen
  have hs₁ : s₁.clock = s.clock := by
    have hrun : runStages ctx [.openBlock b] s = .ok s₁ := by
      simpa [runStages] using hopen
    exact runStages_clock (by simp) hrun
  have hs₂ : s₂.clock = s₁.clock := by
    refine runStages_clock (fun b' hmem ↦ ?_) htransactions
    exact inTransaction_of_mem hmem
  have hs₄ : s₄.clock = s₃.clock := by
    refine runStages_clock (fun b' hmem ↦ ?_) hrest
    simp [SignedBlock.stagesAfterHead, SignedBlock.stagesAfterCommit] at hmem
  have hparent : s₂.clock = s.clock := hs₂.trans hs₁
  obtain ⟨hnumber, htime₂, haslot₂⟩ : s₂.dgp.headBlockNumber = s.dgp.headBlockNumber ∧
      s₂.dgp.time = s.dgp.time ∧ s₂.dgp.currentAslot = s.dgp.currentAslot := by
    simpa [Database.clock] using hparent
  obtain ⟨_, haslot, _⟩ := Database.updateGlobalDynamicData_slots hhead
  have hregistry := congrArg Registry.time (Stage.registry_step hhead)
  have htime₄ : s₄.dgp.time = b.timestamp :=
    (congrArg (fun clock ↦ clock.2.1) hs₄).trans hregistry
  refine ⟨hslot, htime₄ ▸ htime, ?_⟩
  have haslot₄ : s₄.dgp.currentAslot = s₃.dgp.currentAslot :=
    congrArg (fun clock ↦ clock.2.2) hs₄
  rw [haslot₄, haslot, haslot₂, htime₂, Database.slotAtTime_congr hnumber htime₂]
  by_cases hzero : s.dgp.time = 0
  · rw [if_neg (not_not.2 hzero), if_pos hzero]
  · rw [if_pos hzero, if_neg hzero]
    omega

/-- Every block has a slot of its own. -/
theorem applyBlock_aslot_lt {b : SignedBlock} (hskip : ctx.skip.witnessScheduleCheck = false)
    (h : applyBlock ctx s b = .ok s') : s.dgp.currentAslot < s'.dgp.currentAslot := by
  obtain ⟨hslot, _, haslot⟩ := applyBlock_slots hskip h
  rw [haslot]
  split
  · exact Nat.lt_succ_self _
  · exact Nat.lt_add_of_pos_right hslot

theorem applyBlocks_slots {blocks : List SignedBlock}
    (hskip : ctx.skip.witnessScheduleCheck = false) (h : applyBlocks ctx s blocks = .ok s') :
    s.dgp.currentAslot ≤ s'.dgp.currentAslot ∧ (blocks ≠ [] → s.dgp.time < s'.dgp.time) := by
  induction blocks generalizing s with
  | nil => exact pure_eq_ok.1 h ▸ ⟨le_rfl, fun hne ↦ absurd rfl hne⟩
  | cons b rest ih =>
    rw [applyBlocks, List.foldlM_cons, bind_eq_ok] at h
    obtain ⟨s₁, hb, hrest⟩ := h
    obtain ⟨_, htime, _⟩ := applyBlock_slots hskip hb
    obtain ⟨hle, hlater⟩ := ih hrest
    refine ⟨(applyBlock_aslot_lt hskip hb).le.trans hle, fun _ ↦ ?_⟩
    by_cases hnil : rest = []
    · subst hnil
      exact pure_eq_ok.1 hrest ▸ htime
    · exact htime.trans (hlater hnil)

/-- Slots and times are inverse to each other as far as times go. Every block of a chain comes in
a slot after that of its parent, and the count of slots moves on by it; by one where the time of
the parent is not set, as it is for the first block of a chain whose genesis time is zero. -/
theorem slots_of_chain {ctx : Context} (hinterval : 0 < ctx.genesis.blockInterval)
    (hskip : ctx.skip.witnessScheduleCheck = false) :
    (∀ (s : Database) (time : ℕ), s.SlotFits ctx.genesis 1 → time < 4294967296 →
      (s.slotAtTime ctx.genesis time = 0 ∨
        s.getSlotTime ctx.genesis (s.slotAtTime ctx.genesis time) ≤ time) ∧
      ∀ n, s.SlotFits ctx.genesis n → (n = 0 ∨ s.getSlotTime ctx.genesis n ≤ time) →
        n ≤ s.slotAtTime ctx.genesis time) ∧
    (∀ (s : Database) (n m : ℕ), 1 ≤ n → n < m → s.SlotFits ctx.genesis m →
      s.getSlotTime ctx.genesis n < s.getSlotTime ctx.genesis m) ∧
    ∀ s₀ before s b s', initGenesis ctx.genesis = .ok s₀ → applyBlocks ctx s₀ before = .ok s →
      applyBlock ctx s b = .ok s' →
        1 ≤ s.slotAtTime ctx.genesis b.timestamp ∧
        s'.dgp.currentAslot = s.dgp.currentAslot +
          (if s.dgp.time = 0 then 1 else s.slotAtTime ctx.genesis b.timestamp) ∧
        (s.dgp.time = 0 → before = [] ∧ ctx.genesis.genesisTime = 0) ∧
        ∀ later s₁ b' s₂, applyBlocks ctx s' later = .ok s₁ → applyBlock ctx s₁ b' = .ok s₂ →
          s'.dgp.currentAslot < s₂.dgp.currentAslot := by
  refine ⟨fun s time hfirst htime ↦ ⟨?_, fun n hn hle ↦ ?_⟩, fun s n m hn hlt hfits ↦ ?_, ?_⟩
  · by_cases hslot : s.slotAtTime ctx.genesis time = 0
    · exact .inl hslot
    · exact .inr (Database.getSlotTime_slotAtTime_le hinterval hfirst htime hslot)
  · rcases hle with rfl | hle
    · exact Nat.zero_le _
    · by_cases hzero : n = 0
      · exact hzero ▸ Nat.zero_le _
      · exact (Database.le_slotAtTime_iff hinterval hfirst (Nat.pos_of_ne_zero hzero) hn).2 hle
  · exact Database.getSlotTime_lt hinterval hn hlt hfits
  · intro s₀ before s b s' hgenesis hbefore hb
    obtain ⟨hslot, _, haslot⟩ := applyBlock_slots hskip hb
    refine ⟨hslot, haslot, fun hzero ↦ ?_, fun later s₁ b' s₂ hlater hb' ↦ ?_⟩
    · obtain rfl : before = [] := by
        by_contra hne
        have htime := (applyBlocks_slots hskip hbefore).2 hne
        rw [hzero] at htime
        exact Nat.not_lt_zero _ htime
      obtain rfl : s₀ = s := pure_eq_ok.1 hbefore
      refine ⟨rfl, ?_⟩
      simp only [initGenesis, bind_eq_ok, pure_eq_ok] at hgenesis
      obtain ⟨_, _, _, _, _, _, rfl⟩ := hgenesis
      exact hzero
    · calc s'.dgp.currentAslot
          ≤ s₁.dgp.currentAslot := (applyBlocks_slots hskip hlater).1
        _ < s₂.dgp.currentAslot := applyBlock_aslot_lt hskip hb'

/-- The hourly network started at the epoch. -/
def epochGenesis : GenesisState := { hourlyGenesis with genesisTime := 0 }

/-- Its first block comes in the second slot and counts as one. -/
theorem aslot_not_of_epoch_block :
    ∃ s s', initGenesis epochGenesis = .ok s ∧
      applyBlock (devContext epochGenesis) s (devBlock .null 7200 []) = .ok s' ∧
      s.slotAtTime epochGenesis 7200 = 2 ∧
      s'.dgp.currentAslot ≠ s.dgp.currentAslot + s.slotAtTime epochGenesis 7200 := by
  have hok : okAnd (initGenesis epochGenesis) (fun s ↦
      okAnd (applyBlock (devContext epochGenesis) s (devBlock .null 7200 [])) fun s' ↦
        decide (s.slotAtTime epochGenesis 7200 = 2 ∧
          s'.dgp.currentAslot ≠ s.dgp.currentAslot + s.slotAtTime epochGenesis 7200)) = true := by
    decide +kernel
  obtain ⟨s, hgenesis, hs⟩ := exists_of_okAnd hok
  obtain ⟨s', hs', hfacts⟩ := exists_of_okAnd hs
  exact ⟨s, s', hgenesis, hs', of_decide_eq_true hfacts⟩

/-- The first block of the hourly network, in its third slot. -/
theorem slots_of_hourly_block :
    ∃ s s', initGenesis hourlyGenesis = .ok s ∧
      applyBlock (devContext hourlyGenesis) s (devBlock .null 1531522800 []) = .ok s' ∧
      s.slotAtTime hourlyGenesis 1531522800 = 3 ∧ s'.dgp.currentAslot = 3 := by
  have hok : okAnd (initGenesis hourlyGenesis) (fun s ↦
      okAnd (applyBlock (devContext hourlyGenesis) s (devBlock .null 1531522800 [])) fun _ ↦
        decide (s.slotAtTime hourlyGenesis 1531522800 = 3 ∧ s.dgp.currentAslot = 0 ∧
          s.dgp.time ≠ 0)) = true := by
    decide +kernel
  obtain ⟨s, hgenesis, hs⟩ := exists_of_okAnd hok
  obtain ⟨s', hs', hfacts⟩ := exists_of_okAnd hs
  obtain ⟨hslot, haslot, htime⟩ := of_decide_eq_true hfacts
  have hchain := (@slots_of_chain (devContext hourlyGenesis) (by decide) rfl).2.2
  obtain ⟨_, hcount, _⟩ := hchain s [] s _ s' hgenesis rfl hs'
  rw [if_neg htime, haslot, Nat.zero_add] at hcount
  exact ⟨s, s', hgenesis, hs', hslot, hcount.trans hslot⟩

end SophiaTX.Chain
