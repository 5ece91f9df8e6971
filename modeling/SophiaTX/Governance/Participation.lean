import SophiaTX.Chain.Chronicle
import SophiaTX.Chain.Tallies
import SophiaTX.Governance.Slots
import SophiaTX.Protocol.Uint128

/-!
# Participation

The window of recent slots has a bit for each of the last 128 slots, and `participation_count` says
how many of them have a block. A block puts a one into the window and, behind it, a zero for every
slot that was missed before the block; the window starts full.
-/

namespace SophiaTX.Chain

open SophiaTX.Protocol SophiaTX.Lib

/-- The window of recent slots, in the types of the source. -/
structure ParticipationWindow where
  recentSlotsFilled : Uint128
  participationCount : BitVec 8
deriving DecidableEq

namespace ParticipationWindow

/-- `recent_slots_filled.hi & 0x8000000000000000ULL`. -/
def dropsOne (w : ParticipationWindow) : Bool :=
  w.recentSlotsFilled.hi &&& 0x8000000000000000 != 0

/-- One round of the loop of `update_global_dynamic_data`. -/
def round (w : ParticipationWindow) (i : ℕ) : ParticipationWindow where
  recentSlotsFilled := (w.recentSlotsFilled.shiftLeft 1).add (.ofNat (if i = 0 then 1 else 0))
  participationCount :=
    w.participationCount - (if w.dropsOne then 1 else 0) + (if i = 0 then 1 else 0)

/-- The counter does not wrap in a round. -/
structure Exact (w : ParticipationWindow) (i : ℕ) : Prop where
  le : w.dropsOne.toNat ≤ w.participationCount.toNat
  eq : (w.round i).participationCount.toNat =
    w.participationCount.toNat - w.dropsOne.toNat + (decide (i = 0)).toNat

end ParticipationWindow

def DynamicGlobalProperties.window (dgp : DynamicGlobalProperties) : ParticipationWindow where
  recentSlotsFilled := .ofNat dgp.recentSlotsFilled
  participationCount := .ofNat 8 dgp.participationCount

namespace Database

/-- The slots between a block and its parent. A parent whose time is not set leaves none, as the
genesis of a chain that starts at the epoch does. -/
def missedBlocks (g : GenesisState) (s : Database) (b : SignedBlock) : ℕ :=
  if s.dgp.time ≠ 0 then s.slotAtTime g b.timestamp - 1 else 0

/-- `witness_participation_rate`. -/
def witnessParticipationRate (s : Database) : ℕ :=
  uint32 (hundredPercent * s.dgp.window.recentSlotsFilled.popcount.toNat / 128)

end Database

/-! ## One round -/

/-- The fields stand for a string of 128 bits. -/
structure WindowHolds (window : List Bool) (dgp : DynamicGlobalProperties) : Prop where
  length_eq : window.length = 128
  slots : dgp.recentSlotsFilled = ofBits window
  count : dgp.participationCount = window.count true

namespace WindowHolds

variable {window : List Bool} {first : Bool} {dgp : DynamicGlobalProperties} {i : ℕ}

theorem count_le (h : WindowHolds window dgp) : dgp.participationCount ≤ 128 := by
  rw [h.count, ← h.length_eq]
  exact List.count_le_length

theorem slots_lt (h : WindowHolds window dgp) : dgp.recentSlotsFilled < 2 ^ 128 := by
  rw [h.slots, ← h.length_eq]
  exact ofBits_lt

theorem toNat_slots (h : WindowHolds window dgp) :
    dgp.window.recentSlotsFilled.toNat = dgp.recentSlotsFilled := Uint128.toNat_ofNat h.slots_lt

theorem toNat_count (h : WindowHolds window dgp) :
    dgp.window.participationCount.toNat = dgp.participationCount := by
  have hle := h.count_le
  rw [DynamicGlobalProperties.window, BitVec.toNat_ofNat, Nat.mod_eq_of_lt (by omega)]

/-- The bit in front is the one that drops out. -/
theorem slots_div (h : WindowHolds (first :: window) dgp) :
    dgp.recentSlotsFilled / 2 ^ 127 % 2 = first.toNat := by
  have hlength : window.length = 127 := Nat.succ.inj h.length_eq
  rw [h.slots, ← hlength]
  exact ofBits_div_pow

theorem dropsOne_eq (h : WindowHolds (first :: window) dgp) : dgp.window.dropsOne = first := by
  have hdropsOne : dgp.window.dropsOne =
      decide (dgp.window.recentSlotsFilled.toNat / 2 ^ 127 % 2 = 1) := Uint128.hi_and_ne_zero _
  rw [hdropsOne, h.toNat_slots, h.slots_div]
  cases first <;> rfl

theorem count_eq (h : WindowHolds (first :: window) dgp) :
    dgp.participationCount = window.count true + first.toNat := h.count.trans count_cons

theorem shiftSlots_count (h : WindowHolds (first :: window) dgp) :
    (Database.shiftSlots dgp i).participationCount =
      dgp.participationCount - first.toNat + (decide (i = 0)).toNat := by
  have hle := h.count_le
  have hcount := h.count_eq
  have hfilled : (decide (i = 0)).toNat ≤ 1 := Bool.toNat_le _
  have hround : (Database.shiftSlots dgp i).participationCount =
      (dgp.participationCount + 256 - first.toNat + (decide (i = 0)).toNat) % 256 := by
    rw [← h.slots_div]
    by_cases hi : i = 0 <;> simp [Database.shiftSlots, hi]
  rw [hround]
  omega

/-- A round of the loop slides the window on by one bit. -/
theorem shiftSlots (h : WindowHolds (first :: window) dgp) :
    WindowHolds (window ++ [decide (i = 0)]) (Database.shiftSlots dgp i) where
  length_eq := by
    rw [List.length_append, ← h.length_eq]
    rfl
  slots := by
    have hlength : window.length = 127 := Nat.succ.inj h.length_eq
    rw [@ofBits_slide _ _ first, ← h.slots, hlength]
    by_cases hi : i = 0 <;> simp [Database.shiftSlots, hi, uint128Size]
  count := by
    rw [h.shiftSlots_count, count_concat, h.count_eq, Nat.add_sub_cancel]

theorem toNat_round_slots (h : WindowHolds (first :: window) dgp) :
    (dgp.window.round i).recentSlotsFilled.toNat =
      (Database.shiftSlots dgp i).recentSlotsFilled := by
  have hfilled : (Uint128.ofNat (if i = 0 then 1 else 0)).toNat = if i = 0 then 1 else 0 := by
    apply Uint128.toNat_ofNat
    split <;> decide
  rw [ParticipationWindow.round, Uint128.toNat_add, Uint128.toNat_shiftLeft, h.toNat_slots,
    hfilled, Nat.mod_add_mod]
  rfl

theorem toNat_round_count (h : WindowHolds (first :: window) dgp) :
    (dgp.window.round i).participationCount.toNat =
      dgp.participationCount - first.toNat + (decide (i = 0)).toNat := by
  have hle := h.count_le
  have hcount := h.count_eq
  have hdropped : (if dgp.window.dropsOne then 1 else 0 : BitVec 8).toNat = first.toNat := by
    rw [h.dropsOne_eq]
    cases first <;> rfl
  have hfilled : (if i = 0 then 1 else 0 : BitVec 8).toNat = (decide (i = 0)).toNat := by
    by_cases hi : i = 0 <;> simp [hi]
  have hone : (decide (i = 0)).toNat ≤ 1 := Bool.toNat_le _
  rw [ParticipationWindow.round, BitVec.toNat_add, BitVec.toNat_sub, hdropped, hfilled,
    h.toNat_count]
  omega

/-- The words of the source take the same round, and their counter does not wrap. -/
theorem window_shiftSlots (h : WindowHolds (first :: window) dgp) :
    (Database.shiftSlots dgp i).window = dgp.window.round i ∧ dgp.window.Exact i := by
  have hnext : WindowHolds _ (Database.shiftSlots dgp i) := h.shiftSlots
  have hslots : (Database.shiftSlots dgp i).window.recentSlotsFilled =
      (dgp.window.round i).recentSlotsFilled := by
    apply Uint128.ext_toNat
    rw [hnext.toNat_slots, h.toNat_round_slots]
  have hcount : (Database.shiftSlots dgp i).window.participationCount =
      (dgp.window.round i).participationCount := by
    apply BitVec.eq_of_toNat_eq
    rw [hnext.toNat_count, h.shiftSlots_count, h.toNat_round_count]
  refine ⟨?_, ?_, ?_⟩
  · rw [ParticipationWindow.mk.injEq]
    exact ⟨hslots, hcount⟩
  · rw [h.dropsOne_eq, h.toNat_count, h.count_eq]
    exact Nat.le_add_left _ _
  · rw [h.toNat_round_count, h.dropsOne_eq, h.toNat_count]

end WindowHolds

/-! ## One block -/

/-- The bits that a number of rounds puts in. -/
def roundBits (n : ℕ) : List Bool := (List.range n).map fun i ↦ decide (i = 0)

theorem roundBits_succ (missed : ℕ) :
    roundBits (missed + 1) = true :: List.replicate missed false := by
  have hrest : (List.range missed).map ((fun i ↦ decide (i = 0)) ∘ Nat.succ) =
      List.replicate missed false := by
    rw [List.eq_replicate_iff, List.length_map, List.length_range]
    refine ⟨rfl, fun b hb ↦ ?_⟩
    obtain ⟨i, _, rfl⟩ := List.mem_map.1 hb
    exact decide_eq_false (Nat.succ_ne_zero i)
  rw [roundBits, List.range_succ_eq_map, List.map_cons, List.map_map, hrest]
  rfl

/-- What all rounds of a block come to. -/
structure Rounds (bits : List Bool) (dgp : DynamicGlobalProperties) (n : ℕ) : Prop where
  holds : WindowHolds ((bits ++ roundBits n).rtake 128)
    ((List.range n).foldl Database.shiftSlots dgp)
  words : ((List.range n).foldl Database.shiftSlots dgp).window =
    (List.range n).foldl ParticipationWindow.round dgp.window
  exact : ∀ i < n, ((List.range i).foldl ParticipationWindow.round dgp.window).Exact i

theorem WindowHolds.rounds {bits : List Bool} {dgp : DynamicGlobalProperties}
    (hbits : 128 ≤ bits.length) (h : WindowHolds (bits.rtake 128) dgp) (n : ℕ) :
    Rounds bits dgp n := by
  induction n with
  | zero =>
    refine ⟨?_, rfl, fun i hi ↦ absurd hi (Nat.not_lt_zero i)⟩
    rw [roundBits, List.range_zero, List.map_nil, List.append_nil]
    exact h
  | succ n ih =>
    have hlength : 128 ≤ (bits ++ roundBits n).length := by
      rw [List.length_append]
      exact Nat.le_add_right_of_le hbits
    obtain ⟨first, window, hwindow⟩ :=
      List.exists_cons_of_length_eq_add_one (length_rtake hlength)
    have hnow := ih.holds
    rw [hwindow] at hnow
    obtain ⟨hwords, hexact⟩ := hnow.window_shiftSlots (i := n)
    have hslide : (bits ++ roundBits (n + 1)).rtake 128 = window ++ [decide (n = 0)] := by
      rw [roundBits, List.range_succ, List.map_append, ← List.append_assoc]
      exact (rtake_concat hlength).trans (by rw [hwindow]; rfl)
    refine ⟨?_, ?_, ?_⟩
    · rw [hslide, List.range_succ, List.foldl_append]
      exact hnow.shiftSlots
    · rw [List.range_succ, List.foldl_append, List.foldl_append, ← ih.words]
      exact hwords
    · intro i hi
      rcases Nat.lt_succ_iff_lt_or_eq.1 hi with hlt | rfl
      · exact ih.exact i hlt
      · rw [← ih.words]
        exact hexact

variable {ctx : Context} {C : Database → Stage → Prop} {s₀ s s' : Database} {past : List Moment}
  {pending : Option (List Stage)}

theorem Database.missSlot_dgp {g : GenesisState} {producer : AccountName} {slot : ℕ}
    (h : missSlot g producer s slot = .ok s') : s'.dgp = s.dgp := by
  simp only [missSlot, bind_eq_ok] at h
  obtain ⟨_, _, _, _, h⟩ := h
  split at h
  · cases h
    rfl
  · exact congrArg Database.dgp (pure_eq_ok.1 h).symm

/-- A block takes a round for itself and one for every slot that was missed. -/
theorem Database.updateGlobalDynamicData_slots_eq {b : SignedBlock}
    (h : s.updateGlobalDynamicData ctx b = .ok s') :
    let dgp := (List.range (s.missedBlocks ctx.genesis b + 1)).foldl shiftSlots s.dgp
    s'.dgp.recentSlotsFilled = dgp.recentSlotsFilled ∧
      s'.dgp.participationCount = dgp.participationCount := by
  simp only [updateGlobalDynamicData, bind_eq_ok, pure_eq_ok] at h
  obtain ⟨_, _, s₁, hmissed, _, _, rfl⟩ := h
  have hdgp : s₁.dgp = s.dgp := foldlM_invariant (I := fun t ↦ t.dgp = s.dgp)
    (fun _ _ _ _ hround ht ↦ (missSlot_dgp hround).trans ht) hmissed rfl
  rw [missedBlocks, hdgp]
  exact ⟨rfl, rfl⟩

/-! ## Runs -/

/-- The bits of the blocks that have been applied. -/
def slotBits (ctx : Context) : List Moment → List Bool
  | [] => []
  | (s, .updateGlobalDynamicData b) :: past =>
    slotBits ctx past ++ true :: List.replicate (s.missedBlocks ctx.genesis b) false
  | _ :: past => slotBits ctx past

/-- The bits of all slots, behind those the chain starts with. -/
def allSlotBits (ctx : Context) (past : List Moment) : List Bool :=
  List.replicate 128 true ++ slotBits ctx past

theorem length_allSlotBits (ctx : Context) (past : List Moment) :
    128 ≤ (allSlotBits ctx past).length := by
  rw [allSlotBits, List.length_append, List.length_replicate]
  exact Nat.le_add_right _ _

theorem rtake_allSlotBits_nil : (allSlotBits ctx []).rtake 128 = List.replicate 128 true := by
  rw [allSlotBits, slotBits, List.append_nil, List.rtake, List.length_replicate, Nat.sub_self,
    List.drop_zero]

theorem allSlotBits_head {b : SignedBlock} :
    allSlotBits ctx ((s, .updateGlobalDynamicData b) :: past) =
      allSlotBits ctx past ++ roundBits (s.missedBlocks ctx.genesis b + 1) := by
  rw [roundBits_succ, allSlotBits, slotBits, ← List.append_assoc]
  rfl

theorem WindowHolds.congr {window : List Bool} {dgp dgp' : DynamicGlobalProperties}
    (h : WindowHolds window dgp) (hslots : dgp'.recentSlotsFilled = dgp.recentSlotsFilled)
    (hcount : dgp'.participationCount = dgp.participationCount) : WindowHolds window dgp' :=
  ⟨h.length_eq, hslots.trans h.slots, hcount.trans h.count⟩

theorem initGenesis_window {g : GenesisState} (h : initGenesis g = .ok s) :
    WindowHolds (List.replicate 128 true) s.dgp := by
  have hfull : uint128Max = ofBits (List.replicate 128 true) := by decide +kernel
  simp only [initGenesis, bind_eq_ok, pure_eq_ok] at h
  obtain ⟨_, _, _, _, _, _, rfl⟩ := h
  exact ⟨List.length_replicate, hfull, List.count_replicate_self.symm⟩

theorem Chronicle.windowHolds (h : Chronicle ctx C s₀ past pending s)
    (hs₀ : WindowHolds (List.replicate 128 true) s₀.dgp) :
    WindowHolds ((allSlotBits ctx past).rtake 128) s.dgp := by
  induction h with
  | refl =>
    rw [rtake_allSlotBits_nil]
    exact hs₀
  | start b _ ih => exact ih
  | @stage past s s' stage rest _ _ hrun ih =>
    by_cases hstage : ∀ b, stage ≠ .updateGlobalDynamicData b
    · obtain ⟨hslots, hcount⟩ := Stage.recentSlots_eq hrun hstage
      have hbits : allSlotBits ctx ((s, stage) :: past) = allSlotBits ctx past := by
        cases stage with
        | updateGlobalDynamicData b => exact absurd rfl (hstage b)
        | _ => rfl
      rw [hbits]
      exact ih.congr hslots hcount
    · obtain ⟨b, rfl⟩ := not_forall_not.1 hstage
      obtain ⟨hslots, hcount⟩ := Database.updateGlobalDynamicData_slots_eq hrun
      rw [allSlotBits_head]
      exact ((ih.rounds (length_allSlotBits ctx past) _).holds).congr hslots hcount
  | finish _ _ ih => exact ih

theorem WindowHolds.popcount_eq {window : List Bool} {dgp : DynamicGlobalProperties}
    (h : WindowHolds window dgp) :
    dgp.window.recentSlotsFilled.popcount = dgp.window.participationCount := by
  apply BitVec.eq_of_toNat_eq
  rw [h.toNat_count, h.count]
  exact Uint128.popcount_eq h.length_eq (h.toNat_slots.trans h.slots)

/-- The window shows the last 128 slots, its counter counts their blocks, and neither the words of
the one nor the byte of the other wraps in any round of any block. -/
theorem participation_window (hgenesis : initGenesis ctx.genesis = .ok s₀)
    (h : Chronicle ctx C s₀ past pending s) :
    s.dgp.recentSlotsFilled = ofBits ((allSlotBits ctx past).rtake 128) ∧
      s.dgp.participationCount = ((allSlotBits ctx past).rtake 128).count true ∧
      s.dgp.window.recentSlotsFilled.toNat = s.dgp.recentSlotsFilled ∧
      s.dgp.window.participationCount = s.dgp.window.recentSlotsFilled.popcount ∧
      ∀ s₁ b, (s₁, .updateGlobalDynamicData b) ∈ past →
        (∃ s₂, s₁.updateGlobalDynamicData ctx b = .ok s₂ ∧ s₂.dgp.window =
          (List.range (s₁.missedBlocks ctx.genesis b + 1)).foldl .round s₁.dgp.window) ∧
        ∀ i ≤ s₁.missedBlocks ctx.genesis b,
          ((List.range i).foldl ParticipationWindow.round s₁.dgp.window).Exact i := by
  have hs := h.windowHolds (initGenesis_window hgenesis)
  refine ⟨hs.slots, hs.count, hs.toNat_slots, hs.popcount_eq.symm, fun s₁ b hmem ↦ ?_⟩
  obtain ⟨older, rest, hbefore⟩ := h.before hmem
  obtain ⟨_, s₂, hrun⟩ := h.moment hmem
  have hs₁ := hbefore.windowHolds (initGenesis_window hgenesis)
  have hrounds := hs₁.rounds (length_allSlotBits ctx older) (s₁.missedBlocks ctx.genesis b + 1)
  obtain ⟨hslots, hcount⟩ := Database.updateGlobalDynamicData_slots_eq hrun
  refine ⟨⟨s₂, hrun, ?_⟩, fun i hi ↦ hrounds.exact i (Nat.lt_succ_of_le hi)⟩
  rw [← hrounds.words, DynamicGlobalProperties.window, hslots, hcount]
  rfl

/-- The first block of a chain that starts at the epoch, in its second slot: the slot that was
missed leaves no zero. -/
theorem window_not_of_epoch_block :
    ∃ s s', initGenesis epochGenesis = .ok s ∧
      applyBlock (devContext epochGenesis) s (devBlock .null 7200 []) = .ok s' ∧
      s.slotAtTime epochGenesis 7200 = 2 ∧
      s'.dgp.recentSlotsFilled ≠
        ofBits ((List.replicate 128 true ++ [true, false]).rtake 128) := by
  have hok : okAnd (initGenesis epochGenesis) (fun s ↦
      okAnd (applyBlock (devContext epochGenesis) s (devBlock .null 7200 [])) fun s' ↦
        decide (s.slotAtTime epochGenesis 7200 = 2 ∧ s'.dgp.recentSlotsFilled ≠
          ofBits ((List.replicate 128 true ++ [true, false]).rtake 128))) = true := by
    decide +kernel
  obtain ⟨s, hgenesis, hs⟩ := exists_of_okAnd hok
  obtain ⟨s', hs', hfacts⟩ := exists_of_okAnd hs
  exact ⟨s, s', hgenesis, hs', of_decide_eq_true hfacts⟩

/-- The first block of the hourly network, in its third slot. -/
theorem participation_window_hourly_block :
    ∃ s₀ past s, initGenesis hourlyGenesis = .ok s₀ ∧
      Chronicle (devContext hourlyGenesis) (fun _ _ ↦ True) s₀ past none s ∧
      s.dgp.participationCount = 126 := by
  have hok : okAnd (initGenesis hourlyGenesis) (fun s₀ ↦
      okAnd (recordBlocks (devContext hourlyGenesis)
        (fun s stage ↦ stage.run (devContext hourlyGenesis) s)
        [devBlock .null 1531522800 []] ([], s₀)) fun recorded ↦
          decide (((allSlotBits (devContext hourlyGenesis) recorded.1).rtake 128).count true =
            126)) = true := by
    decide +kernel
  obtain ⟨s₀, hgenesis, hs₀⟩ := exists_of_okAnd hok
  obtain ⟨recorded, hblocks, hs⟩ := exists_of_okAnd hs₀
  have hchronicle : Chronicle (devContext hourlyGenesis) (fun _ _ ↦ True) s₀ recorded.1 none
      recorded.2 := Chronicle.recordBlocks (fun _ _ _ hrun ↦ ⟨trivial, hrun⟩) .refl hblocks
  obtain ⟨_, hcount, _⟩ := participation_window hgenesis hchronicle
  exact ⟨s₀, recorded.1, recorded.2, hgenesis, hchronicle, hcount.trans (of_decide_eq_true hs)⟩

end SophiaTX.Chain
