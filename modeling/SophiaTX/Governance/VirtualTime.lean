import SophiaTX.Chain.Quiet
import SophiaTX.Governance.Schedule

/-!
# Virtual time

Witnesses run laps in virtual time, faster the more votes they have. A change of votes moves the
finish of a lap, and the update of the schedule moves the present on to the last witness it takes
up. Times are 128 bits wide and a lap is as long as they go, so both may wrap around; whatever
happens, no witness is due in the past.
-/

namespace SophiaTX.Chain

open SophiaTX.Protocol SophiaTX.Lib

/-- Every witness has been updated up to the present and is due from it on. -/
structure VirtualTimesInOrder (s : Database) : Prop where
  bound : s.wso.currentVirtualTime ≤ uint128Max
  witnesses : s.witnesses.Forall fun _ w ↦ w.OnTime s.wso.currentVirtualTime

theorem Paced.virtualTimesInOrder {s s' : Database} (h : Paced s s')
    (hs : VirtualTimesInOrder s) : VirtualTimesInOrder s' := by
  have hnow := h.virtualTime
  refine ⟨hnow ▸ hs.bound, fun name w' hw' ↦ ?_⟩
  rw [hnow]
  rcases h.witnesses hs.bound name w' hw' with honTime | ⟨w, hw, htimes⟩
  · exact honTime
  · exact (hs.witnesses name w hw).congr htimes

/-! ## The loop over the runners -/

/-- On witnesses in the order of their scheduled times the loop stops at one of these times: those
it has not reached are due from then on. -/
theorem selectRunners_inOrder {maxWitnesses : ℕ} {elected : List AccountName}
    {witnesses : List (AccountName × Witness)} {start : RunnerSelection}
    (hsorted : witnesses.Pairwise fun a b ↦
      a.2.virtualScheduledTime ≤ b.2.virtualScheduledTime)
    (hstart : ∀ entry ∈ witnesses, start.newVirtualTime ≤ entry.2.virtualScheduledTime) :
    ∃ seen rest, witnesses = seen ++ rest ∧
      (selectRunners maxWitnesses elected witnesses start).processed = start.processed ++ seen ∧
      start.newVirtualTime ≤ (selectRunners maxWitnesses elected witnesses start).newVirtualTime ∧
      (∀ entry ∈ rest, (selectRunners maxWitnesses elected witnesses start).newVirtualTime ≤
        entry.2.virtualScheduledTime) ∧
      ((selectRunners maxWitnesses elected witnesses start).newVirtualTime =
          start.newVirtualTime ∨
        ∃ entry ∈ witnesses, (selectRunners maxWitnesses elected witnesses start).newVirtualTime =
          entry.2.virtualScheduledTime) := by
  induction witnesses generalizing start with
  | nil => exact ⟨[], [], rfl, (List.append_nil _).symm, le_rfl, by simp, .inl rfl⟩
  | cons entry rest ih =>
    obtain ⟨name, w⟩ := entry
    rw [List.pairwise_cons] at hsorted
    have hentry : start.newVirtualTime ≤ w.virtualScheduledTime := hstart _ List.mem_cons_self
    -- All three ways to go on take the witness up and differ in what they count.
    have hnext : ∀ next : RunnerSelection, next.newVirtualTime = w.virtualScheduledTime →
        next.processed = start.processed ++ [(name, w)] →
        ∃ seen later, (name, w) :: rest = seen ++ later ∧
          (selectRunners maxWitnesses elected rest next).processed = start.processed ++ seen ∧
          start.newVirtualTime ≤ (selectRunners maxWitnesses elected rest next).newVirtualTime ∧
          (∀ entry ∈ later, (selectRunners maxWitnesses elected rest next).newVirtualTime ≤
            entry.2.virtualScheduledTime) ∧
          ((selectRunners maxWitnesses elected rest next).newVirtualTime = start.newVirtualTime ∨
            ∃ entry ∈ (name, w) :: rest,
              (selectRunners maxWitnesses elected rest next).newVirtualTime =
                entry.2.virtualScheduledTime) := by
      intro next htime hprocessed
      obtain ⟨seen, later, hsplit, hseen, hle, hlater, hwhere⟩ := @ih next hsorted.2 (by
        rw [htime]
        exact hsorted.1)
      refine ⟨(name, w) :: seen, later, by rw [hsplit, List.cons_append], ?_, ?_, hlater, ?_⟩
      · rw [hseen, hprocessed, List.append_assoc, List.singleton_append]
      · exact hentry.trans (htime ▸ hle)
      · right
        rcases hwhere with hsame | ⟨entry, hmem, hsame⟩
        · exact ⟨(name, w), List.mem_cons_self, hsame.trans htime⟩
        · exact ⟨entry, List.mem_cons_of_mem _ hmem, hsame⟩
    rw [selectRunners]
    split
    · split
      · exact hnext _ rfl rfl
      · split
        · exact hnext _ rfl rfl
        · exact hnext _ rfl rfl
    · exact ⟨[], (name, w) :: rest, rfl, (List.append_nil _).symm, le_rfl, hstart, .inl rfl⟩

theorem Database.witnessesByScheduleTime_pairwise (s : Database) :
    s.witnessesByScheduleTime.Pairwise fun a b ↦
      a.2.virtualScheduledTime ≤ b.2.virtualScheduledTime := by
  let before (a b : AccountName × Witness) : Prop :=
    a.2.virtualScheduledTime < b.2.virtualScheduledTime ∨
      (a.2.virtualScheduledTime = b.2.virtualScheduledTime ∧ a.2.id ≤ b.2.id)
  have htotal : Std.Total before := ⟨fun a b ↦ by simp only [before]; omega⟩
  have htrans : IsTrans _ before := ⟨fun a b c ↦ by simp only [before]; omega⟩
  have hsorted := List.pairwise_insertionSort before s.witnesses.entries
  refine List.Pairwise.imp ?_ hsorted
  rintro a b (hlt | ⟨heq, _⟩)
  · exact hlt.le
  · exact heq.le

/-! ## New laps -/

theorem Witness.lapTime_le {w : Witness} {lap : ℕ} (h : w.lapTime = .ok lap) :
    lap ≤ uint128Max := by
  simp only [lapTime, uint128Div] at h
  split at h
  · cases h
  · cases h
    exact Nat.div_le_self _ _

/-- Without an overflow all processed witnesses start a new lap now, and the others stay as they
are. -/
theorem advanceProcessed_spec {now : ℕ} {processed : List (AccountName × Witness)}
    {witnesses witnesses' : Table AccountName Witness}
    (h : advanceProcessed now processed witnesses = .ok (witnesses', false)) :
    ∀ name w, witnesses'.find? name = some w → w.OnTime now ∨
      name ∉ processed.map Prod.fst ∧ witnesses.find? name = some w := by
  induction processed generalizing witnesses with
  | nil =>
    cases h
    exact fun name w hw ↦ .inr ⟨List.not_mem_nil, hw⟩
  | cons entry rest ih =>
    obtain ⟨first, w₀⟩ := entry
    simp only [advanceProcessed, bind_eq_ok] at h
    obtain ⟨lap, hlap, h⟩ := h
    split at h
    · cases h
    · rename_i hkept
      intro name w hw
      rcases ih h name w hw with honTime | ⟨hrest, hrow⟩
      · exact .inl honTime
      · rw [Table.find?_modify] at hrow
        split at hrow
        · obtain ⟨row, _, rfl⟩ := Option.map_eq_some_iff.1 hrow
          left
          refine ⟨le_rfl, not_lt.1 hkept, ?_⟩
          have hlt : (now + lap) % uint128Size < uint128Size := Nat.mod_lt _ (by decide)
          have hsize : uint128Size = uint128Max + 1 := rfl
          simp only [uint128Add]
          omega
        · rename_i hname
          exact .inr ⟨by simp [hname, hrest], hrow⟩

/-- After a reset every witness is at the start of its first lap. -/
theorem resetVirtualScheduleTime_onTime {witnesses witnesses' : Table AccountName Witness}
    (h : resetVirtualScheduleTime witnesses = .ok witnesses') :
    witnesses'.Forall fun _ w ↦ w.OnTime 0 := by
  have hloop : ∀ (entries : List (AccountName × Witness)) (t t' : Table AccountName Witness),
      entries.foldlM (fun t entry ↦ do
        let lap ← entry.2.lapTime
        pure (t.modify entry.1 fun w ↦ { w with
          virtualPosition := 0
          virtualLastUpdate := 0
          virtualScheduledTime := lap })) t = .ok t' →
      ∀ name w, t'.find? name = some w → w.OnTime 0 ∨
        name ∉ entries.map Prod.fst ∧ t.find? name = some w := by
    intro entries
    induction entries with
    | nil =>
      intro t t' ht name w hw
      rw [List.foldlM_nil, pure_eq_ok] at ht
      exact .inr ⟨List.not_mem_nil, ht ▸ hw⟩
    | cons entry rest ih =>
      intro t t' ht name w hw
      rw [List.foldlM_cons] at ht
      simp only [bind_eq_ok, pure_eq_ok] at ht
      obtain ⟨_, ⟨lap, hlap, rfl⟩, ht⟩ := ht
      rcases ih _ t' ht name w hw with honTime | ⟨hrest, hrow⟩
      · exact .inl honTime
      · rw [Table.find?_modify] at hrow
        split at hrow
        · obtain ⟨row, _, rfl⟩ := Option.map_eq_some_iff.1 hrow
          exact .inl ⟨le_rfl, Nat.zero_le _, Witness.lapTime_le hlap⟩
        · rename_i hname
          exact .inr ⟨by simp [hname, hrest], hrow⟩
  intro name w hw
  rcases hloop _ _ _ h name w hw with honTime | ⟨habsent, hrow⟩
  · exact honTime
  · exact absurd (Table.mem_keys_of_find? hrow) habsent

/-! ## The update of the schedule -/

namespace Database

variable {g : GenesisState} {s s' : Database}

/-- The update ends with the times of its two loops. -/
theorem updateWitnessSchedule4_times (h : s.updateWitnessSchedule4 g = .ok s') :
    ∃ advanced overflow, advanceProcessed (s.selectedRunners g).newVirtualTime
        (s.selectedRunners g).processed ((s.setSchedule s.electedWitnesses .top19).setSchedule
          (s.selectedRunners g).runners .timeshare).witnesses = .ok (advanced, overflow) ∧
      (if overflow then resetVirtualScheduleTime advanced else pure advanced) =
        .ok s'.witnesses ∧
      s'.wso.currentVirtualTime =
        if overflow then 0 else (s.selectedRunners g).newVirtualTime := by
  simp only [updateWitnessSchedule4, bind_eq_ok, Prod.exists] at h
  obtain ⟨advanced, overflow, hadvance, witnesses, hreset, _, _, v, hardforks, _, hprops⟩ := h
  refine ⟨advanced, overflow, hadvance, ?_⟩
  simp only [updateMedianWitnessProps, bind_eq_ok] at hprops
  obtain ⟨_, _, hprops⟩ := hprops
  split at hprops
  · cases hprops
    exact ⟨hreset, rfl⟩
  · cases hprops

/-- Marks of the schedule do not touch virtual times. -/
theorem setSchedule_times (s : Database) (names : List AccountName)
    (schedule : WitnessScheduleType) :
    s.witnesses.AgreeOn Witness.virtualTimes (s.setSchedule names schedule).witnesses := by
  refine Table.AgreeOn.mapRows _ fun name w ↦ ?_
  split <;> rfl

theorem runnersInLine_onTime (hs : VirtualTimesInOrder s) {entry : AccountName × Witness}
    (h : entry ∈ s.runnersInLine) : entry.2.OnTime s.wso.currentVirtualTime := by
  have hrow := (Table.find?_eq_some_iff _ _ _).2 ((List.mem_insertionSort _).1 h)
  obtain ⟨w, hw, htimes⟩ := (setSchedule_times s s.electedWitnesses .top19).exists_left hrow
  exact (hs.witnesses _ _ hw).congr htimes

theorem selectedRunners_inOrder (g : GenesisState) (s : Database)
    (hline : ∀ entry ∈ s.runnersInLine, s.wso.currentVirtualTime ≤ entry.2.virtualScheduledTime) :
    ∃ seen rest, s.runnersInLine = seen ++ rest ∧ (s.selectedRunners g).processed = seen ∧
      s.wso.currentVirtualTime ≤ (s.selectedRunners g).newVirtualTime ∧
      (∀ entry ∈ rest, (s.selectedRunners g).newVirtualTime ≤ entry.2.virtualScheduledTime) ∧
      ((s.selectedRunners g).newVirtualTime = s.wso.currentVirtualTime ∨
        ∃ entry ∈ s.runnersInLine,
          (s.selectedRunners g).newVirtualTime = entry.2.virtualScheduledTime) :=
  selectRunners_inOrder (witnessesByScheduleTime_pairwise _) hline

theorem updateWitnessSchedule4_inOrder (hs : VirtualTimesInOrder s)
    (h : s.updateWitnessSchedule4 g = .ok s') : VirtualTimesInOrder s' := by
  obtain ⟨advanced, overflow, hadvance, hreset, hnow⟩ := updateWitnessSchedule4_times h
  cases overflow with
  | true =>
    have hzero : s'.wso.currentVirtualTime = 0 := hnow
    refine ⟨hzero ▸ Nat.zero_le _, ?_⟩
    rw [hzero]
    exact resetVirtualScheduleTime_onTime hreset
  | false =>
    have hnow : s'.wso.currentVirtualTime = (s.selectedRunners g).newVirtualTime := hnow
    obtain rfl : advanced = s'.witnesses := pure_eq_ok.1 hreset
    have hline : ∀ entry ∈ s.runnersInLine, entry.2.OnTime s.wso.currentVirtualTime :=
      fun entry hentry ↦ runnersInLine_onTime hs hentry
    obtain ⟨seen, rest, hsplit, hseen, hle, hrest, hwhere⟩ := s.selectedRunners_inOrder g
      fun entry hentry ↦ (hline entry hentry).scheduled
    refine ⟨?_, fun name w hw ↦ ?_⟩
    · rw [hnow]
      rcases hwhere with hsame | ⟨entry, hentry, hsame⟩
      · exact hsame ▸ hs.bound
      · exact hsame ▸ (hline entry hentry).bound
    · rw [hnow]
      rcases advanceProcessed_spec hadvance name w hw with honTime | ⟨habsent, hrow⟩
      · exact honTime
      · -- A witness that was not taken up stands behind the last one that was.
        obtain ⟨w₁, hw₁, htimes⟩ := (setSchedule_times _ _ _).exists_left hrow
        have hmem : (name, w₁) ∈ seen ++ rest := by
          rw [← hsplit]
          exact (List.mem_insertionSort _).2 ((Table.find?_eq_some_iff _ _ _).1 hw₁)
        have hlater : (name, w₁) ∈ rest := by
          refine (List.mem_append.1 hmem).resolve_left fun hfirst ↦ habsent ?_
          rw [hseen]
          exact List.mem_map.2 ⟨(name, w₁), hfirst, rfl⟩
        have honTime := hline (name, w₁) (hsplit ▸ hmem)
        have hnew : w₁.OnTime (s.selectedRunners g).newVirtualTime :=
          ⟨honTime.lastUpdate.trans hle, hrest (name, w₁) hlater, honTime.bound⟩
        exact hnew.congr htimes

end Database

/-! ## Runs -/

theorem Stage.virtualTimesInOrder {ctx : Context} {stage : Stage} {s s' : Database}
    (h : stage.run ctx s = .ok s') (hs : VirtualTimesInOrder s) : VirtualTimesInOrder s' := by
  cases stage with
  | operation trx op => exact (Database.applyOperation_paced h).2.virtualTimesInOrder hs
  | updateGlobalDynamicData b =>
    obtain ⟨_, _, hpaced, _⟩ := Database.updateGlobalDynamicData_slots h
    exact hpaced.virtualTimesInOrder hs
  | updateWitnessSchedule =>
    simp only [run, Database.updateWitnessSchedule] at h
    split at h
    · cases h
    · split at h
      · exact Database.updateWitnessSchedule4_inOrder hs h
      · exact pure_eq_ok.1 h ▸ hs
  | _ => exact (Stage.quiet h id).paced.virtualTimesInOrder hs

theorem initGenesis_virtualTimes {g : GenesisState} {s : Database} (h : initGenesis g = .ok s) :
    VirtualTimesInOrder s := by
  simp only [initGenesis, bind_eq_ok, pure_eq_ok] at h
  obtain ⟨_, _, initial, _, economics, _, rfl⟩ := h
  refine ⟨Nat.zero_le _, fun name w hw ↦ ?_⟩
  rw [Table.find?_eq_some_iff, genesisWitnesses, List.mem_singleton] at hw
  cases hw
  exact ⟨Nat.zero_le _, Nat.zero_le _, le_rfl⟩

/-- In whatever order votes change, witnesses register and the schedule is updated: no witness is
due in the past, and none was last updated in the future. -/
theorem virtual_times_in_order {ctx : Context} {s₀ s : Database} {stages : List Stage}
    (hgenesis : initGenesis ctx.genesis = .ok s₀)
    (h : Run (fun s stage s' ↦ Stage.run ctx s stage = .ok s') s₀ stages s)
    {name : AccountName} {w : Witness} (hw : s.witnesses.find? name = some w) :
    s.wso.currentVirtualTime ≤ w.virtualScheduledTime ∧
      w.virtualLastUpdate ≤ s.wso.currentVirtualTime := by
  have hs : VirtualTimesInOrder s := h.invariant (I := VirtualTimesInOrder)
    (fun _ _ _ _ hstage ↦ Stage.virtualTimesInOrder hstage) (initGenesis_virtualTimes hgenesis)
  have honTime := hs.witnesses name w hw
  exact ⟨honTime.scheduled, honTime.lastUpdate⟩

/-- A vote for the init miner, and the schedule after it. -/
def voteStages : List Stage :=
  [.operation (devTransaction 1531512600 8 (.accountWitnessVote 1000 initMinerName true))
    ⟨.accountWitnessVote 1000 initMinerName true, ⟨0, sophiatxSymbol⟩⟩, .updateWitnessSchedule]

theorem virtual_times_in_order_after_vote :
    ∃ s₀ s w, initGenesis hourlyGenesis = .ok s₀ ∧
      runStages (devContext hourlyGenesis) voteStages s₀ = .ok s ∧
      s.witnesses.find? initMinerName = some w ∧ w.votes = 50 ∧
      0 < s.wso.currentVirtualTime ∧ s.wso.currentVirtualTime ≤ w.virtualScheduledTime ∧
      w.virtualLastUpdate ≤ s.wso.currentVirtualTime := by
  have hok : okAnd (initGenesis hourlyGenesis) (fun s₀ ↦
      okAnd (runStages (devContext hourlyGenesis) voteStages s₀) fun s ↦
        decide ((s.witnesses.find? initMinerName).map (fun w ↦ w.votes) = some 50 ∧
          0 < s.wso.currentVirtualTime)) = true := by
    decide +kernel
  obtain ⟨s₀, hgenesis, hs₀⟩ := exists_of_okAnd hok
  obtain ⟨s, hrun, hs⟩ := exists_of_okAnd hs₀
  obtain ⟨hvotes, hpos⟩ := of_decide_eq_true hs
  obtain ⟨w, hw, hfifty⟩ := Option.map_eq_some_iff.1 hvotes
  exact ⟨s₀, s, w, hgenesis, hrun, hw, hfifty, hpos,
    @virtual_times_in_order (devContext hourlyGenesis) s₀ s voteStages hgenesis (.of_foldlM hrun)
      initMinerName w hw⟩

end SophiaTX.Chain
