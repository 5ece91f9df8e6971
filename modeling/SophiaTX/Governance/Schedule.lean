import SophiaTX.Chain.Council
import SophiaTX.Chain.Genesis

/-!
# The witness schedule

`update_witness_schedule4` takes the most voted witnesses and fills the schedule up with the
runners next in virtual time, passing over those without a signing key. What comes out is a
schedule of distinct witnesses with keys, shuffled in its own range.
-/

namespace SophiaTX.Chain

open SophiaTX.Protocol SophiaTX.Lib

/-! ## The shuffle -/

theorem swapAt_append {names others : List AccountName} {i j : ℕ} (hi : i < names.length)
    (hj : j < names.length) :
    ∃ names', swapAt (names ++ others) i j = names' ++ others ∧ names'.Perm names := by
  refine ⟨(names.set i names[j]).set j names[i], ?_, List.set_set_perm hi hj⟩
  have hfirst : (names ++ others)[i]? = some names[i] := by
    rw [List.getElem?_append_left hi, List.getElem?_eq_getElem hi]
  have hsecond : (names ++ others)[j]? = some names[j] := by
    rw [List.getElem?_append_left hj, List.getElem?_eq_getElem hj]
  simp only [swapAt, hfirst, hsecond]
  rw [List.set_append_left _ _ hi, List.set_append_left _ _ (by rwa [List.length_set])]

/-- Every index of the shuffle is in range. -/
theorem shuffleIndex_lt (time : Time) {count i : ℕ} (hi : i < count) :
    i + shuffleNumber time i % (count - i) < count := by
  have hmod : shuffleNumber time i % (count - i) < count - i := Nat.mod_lt _ (Nat.sub_pos_of_lt hi)
  omega

/-- The shuffle permutes the names in its range and leaves the others where they are. -/
theorem shuffle_append (time : Time) (names others : List AccountName) :
    ∃ names', shuffle time names.length (names ++ others) = names' ++ others ∧
      names'.Perm names := by
  have hloop : ∀ (places : List ℕ), (∀ i ∈ places, i < names.length) → ∀ start : List AccountName,
      start.Perm names → ∃ names', places.foldl (fun names' i ↦ swapAt names' i
        (i + shuffleNumber time i % (names.length - i))) (start ++ others) = names' ++ others ∧
          names'.Perm names := by
    intro places
    induction places with
    | nil => exact fun _ start hstart ↦ ⟨start, rfl, hstart⟩
    | cons i rest ih =>
      intro hplaces start hstart
      have hi : i < start.length := hstart.length_eq ▸ hplaces i List.mem_cons_self
      have hj := shuffleIndex_lt time hi
      obtain ⟨start', hswap, hstart'⟩ := @swapAt_append start others i _ hi hj
      rw [List.foldl_cons, ← hstart.length_eq, hswap, hstart.length_eq]
      exact ih (fun place hplace ↦ hplaces place (List.mem_cons_of_mem _ hplace)) start'
        (hstart'.trans hstart)
  exact hloop _ (fun i hi ↦ List.mem_range.1 hi) names (.refl _)

/-! ## The runners -/

/-- A witness with a signing key. -/
def Witness.hasKey (w : Witness) : Bool := decide (w.signingKey ≠ nullKey)

/-- The loop over the runners goes through the witnesses up to a point: to the end, or to where
the schedule is full. -/
theorem selectRunners_spec {maxWitnesses : ℕ} {elected : List AccountName}
    {witnesses : List (AccountName × Witness)} {start : RunnerSelection}
    (hroom : elected.length + start.runners.length ≤ maxWitnesses) :
    ∃ seen rest, witnesses = seen ++ rest ∧
      (selectRunners maxWitnesses elected witnesses start).runners = start.runners ++
        (seen.filter fun entry ↦ entry.2.hasKey && decide (entry.1 ∉ elected)).map Prod.fst ∧
      (selectRunners maxWitnesses elected witnesses start).skipped =
        start.skipped + seen.countP (fun entry ↦ !entry.2.hasKey) ∧
      elected.length +
        (selectRunners maxWitnesses elected witnesses start).runners.length ≤ maxWitnesses ∧
      (rest = [] ∨ elected.length +
        (selectRunners maxWitnesses elected witnesses start).runners.length = maxWitnesses) := by
  induction witnesses generalizing start with
  | nil => exact ⟨[], [], rfl, by simp [selectRunners], by simp [selectRunners], hroom, .inl rfl⟩
  | cons entry rest ih =>
    obtain ⟨name, w⟩ := entry
    rw [selectRunners]
    split
    · rename_i hfree
      split
      · rename_i hnull
        obtain ⟨seen, later, hsplit, hrunners, hskipped, hle, hfull⟩ := @ih { start with
          newVirtualTime := w.virtualScheduledTime
          processed := start.processed ++ [(name, w)]
          skipped := start.skipped + 1 } hroom
        refine ⟨(name, w) :: seen, later, by rw [hsplit, List.cons_append], ?_, ?_, hle, hfull⟩
        · rw [hrunners, List.filter_cons_of_neg (by simp [Witness.hasKey, hnull])]
        · rw [hskipped, List.countP_cons_of_pos (by simp [Witness.hasKey, hnull])]
          exact Nat.succ_add_eq_add_succ _ _
      · rename_i hkey
        split
        · rename_i hmem
          obtain ⟨seen, later, hsplit, hrunners, hskipped, hle, hfull⟩ := @ih { start with
            newVirtualTime := w.virtualScheduledTime
            processed := start.processed ++ [(name, w)] } hroom
          refine ⟨(name, w) :: seen, later, by rw [hsplit, List.cons_append], ?_, ?_, hle, hfull⟩
          · rw [hrunners, List.filter_cons_of_neg (by simp [hmem])]
          · rw [hskipped, List.countP_cons_of_neg (by simp [Witness.hasKey, hkey])]
        · rename_i hnew
          obtain ⟨seen, later, hsplit, hrunners, hskipped, hle, hfull⟩ := @ih { start with
            newVirtualTime := w.virtualScheduledTime
            processed := start.processed ++ [(name, w)]
            runners := start.runners ++ [name] } (by
              rw [List.length_append, List.length_singleton]
              omega)
          refine ⟨(name, w) :: seen, later, by rw [hsplit, List.cons_append], ?_, ?_, hle, hfull⟩
          · rw [hrunners, List.filter_cons_of_pos (by simp [Witness.hasKey, hkey, hnew]),
              List.map_cons, List.append_assoc, List.singleton_append]
          · rw [hskipped, List.countP_cons_of_neg (by simp [Witness.hasKey, hkey])]
    · rename_i hfull
      exact ⟨[], (name, w) :: rest, rfl, by simp, by simp, hroom, .inr (by omega)⟩

/-! ## Counting -/

namespace Database

variable {g : GenesisState} {s s' : Database}

/-- How many witnesses have a signing key. -/
def keyedWitnesses (s : Database) : ℕ := s.witnesses.entries.countP fun entry ↦ entry.2.hasKey

/-- The witnesses with a signing key, the best first. -/
def rankedWitnesses (s : Database) : List AccountName :=
  (s.witnessesByVote.filter fun entry ↦ entry.2.hasKey).map Prod.fst

theorem electedWitnesses_eq (s : Database) :
    s.electedWitnesses = s.rankedWitnesses.take s.wso.maxVotedWitnesses :=
  List.map_take

theorem rankedWitnesses_perm (s : Database) : s.rankedWitnesses.Perm
    ((s.witnesses.entries.filter fun entry ↦ entry.2.hasKey).map Prod.fst) :=
  ((List.perm_insertionSort _ _).filter _).map _

theorem rankedWitnesses_length (s : Database) : s.rankedWitnesses.length = s.keyedWitnesses := by
  rw [s.rankedWitnesses_perm.length_eq, List.length_map, keyedWitnesses,
    List.countP_eq_length_filter]

theorem rankedWitnesses_nodup (s : Database) : s.rankedWitnesses.Nodup := by
  rw [s.rankedWitnesses_perm.nodup_iff]
  exact s.witnesses.nodup.sublist (List.filter_sublist.map Prod.fst)

theorem mem_rankedWitnesses {name : AccountName} : name ∈ s.rankedWitnesses ↔
    ∃ w, s.witnesses.find? name = some w ∧ w.signingKey ≠ nullKey := by
  rw [s.rankedWitnesses_perm.mem_iff, List.mem_map]
  constructor
  · rintro ⟨⟨_, w⟩, hmem, rfl⟩
    rw [List.mem_filter] at hmem
    exact ⟨w, (Table.find?_eq_some_iff _ _ _).2 hmem.1, of_decide_eq_true hmem.2⟩
  · rintro ⟨w, hw, hkey⟩
    exact ⟨(name, w), List.mem_filter.2
      ⟨(Table.find?_eq_some_iff _ _ _).1 hw, decide_eq_true hkey⟩, rfl⟩

/-- A witness before another by `(votes, name)`. -/
def better (a b : AccountName × Witness) : Bool :=
  decide (b.2.votes < a.2.votes ∨ (a.2.votes = b.2.votes ∧ a.1 < b.1))

/-- The witnesses with a key before a given one. -/
def betterWitnesses (s : Database) (entry : AccountName × Witness) : ℕ :=
  s.witnesses.entries.countP fun other ↦ other.2.hasKey && better other entry

theorem witnessesByVote_pairwise (s : Database) : s.witnessesByVote.Pairwise fun a b ↦
    b.2.votes < a.2.votes ∨ (a.2.votes = b.2.votes ∧ a.1 ≤ b.1) := by
  have htotal : Std.Total fun a b : AccountName × Witness ↦
      b.2.votes < a.2.votes ∨ (a.2.votes = b.2.votes ∧ a.1 ≤ b.1) := by
    refine ⟨fun a b ↦ ?_⟩
    rcases lt_trichotomy a.2.votes b.2.votes with hlt | heq | hgt
    · exact .inr (.inl hlt)
    · exact (le_total a.1 b.1).imp (fun hname ↦ .inr ⟨heq, hname⟩) fun hname ↦
        .inr ⟨heq.symm, hname⟩
    · exact .inl (.inl hgt)
  have htrans : IsTrans (AccountName × Witness) fun a b ↦
      b.2.votes < a.2.votes ∨ (a.2.votes = b.2.votes ∧ a.1 ≤ b.1) := by
    refine ⟨fun a b c hab hbc ↦ ?_⟩
    rcases hab with hab | ⟨hab, hname⟩
    · rcases hbc with hbc | ⟨hbc, _⟩
      · exact .inl (hbc.trans hab)
      · exact .inl (hbc ▸ hab)
    · rcases hbc with hbc | ⟨hbc, hname'⟩
      · exact .inl (hab ▸ hbc)
      · exact .inr ⟨hab.trans hbc, hname.trans hname'⟩
  exact List.pairwise_insertionSort _ _

/-- A witness with fewer than `max_voted_witnesses` better ones is elected. -/
theorem mem_electedWitnesses {name : AccountName} {w : Witness}
    (hw : s.witnesses.find? name = some w) (hkey : w.signingKey ≠ nullKey)
    (hbest : s.betterWitnesses (name, w) < s.wso.maxVotedWitnesses) :
    name ∈ s.electedWitnesses := by
  have hperm : s.witnessesByVote.Perm s.witnesses.entries := List.perm_insertionSort _ _
  have hmem : (name, w) ∈ s.witnessesByVote.filter fun entry ↦ entry.2.hasKey :=
    List.mem_filter.2 ⟨hperm.mem_iff.2 ((Table.find?_eq_some_iff _ _ _).1 hw), decide_eq_true hkey⟩
  have hsorted := s.witnessesByVote_pairwise.filter fun entry ↦ entry.2.hasKey
  have hnames := s.rankedWitnesses_nodup
  rw [rankedWitnesses] at hnames
  have hcount : s.betterWitnesses (name, w) =
      (s.witnessesByVote.filter fun entry ↦ entry.2.hasKey).countP fun other ↦
        better other (name, w) := by
    rw [List.countP_filter, hperm.countP_eq]
    simp only [betterWitnesses, Bool.and_comm]
  obtain ⟨before, after, hsplit⟩ := List.append_of_mem hmem
  rw [hsplit] at hsorted hnames hcount
  -- the witnesses before it in the list are better, so there are not many
  have hbefore : before.length ≤ s.betterWitnesses (name, w) := by
    have hall : before.countP (fun other ↦ better other (name, w)) = before.length := by
      rw [List.countP_eq_length]
      intro other hother
      rw [List.map_append, List.map_cons] at hnames
      have hne : other.1 ≠ name := by
        rintro rfl
        exact List.disjoint_of_nodup_append hnames (List.mem_map_of_mem hother)
          List.mem_cons_self
      rcases (List.pairwise_append.1 hsorted).2.2 other hother (name, w) List.mem_cons_self with
        hvotes | ⟨hvotes, hle⟩
      · exact decide_eq_true (.inl hvotes)
      · exact decide_eq_true (.inr ⟨hvotes, lt_of_le_of_ne hle hne⟩)
    rw [hcount, List.countP_append, hall]
    exact Nat.le_add_right _ _
  unfold electedWitnesses
  refine List.mem_map.2 ⟨(name, w), ?_, rfl⟩
  have htake : (name, w) ∈ (before ++ (name, w) :: after).take s.wso.maxVotedWitnesses := by
    rw [List.take_append, List.mem_append]
    obtain ⟨room, hroom⟩ : ∃ room, s.wso.maxVotedWitnesses - before.length = room + 1 :=
      ⟨s.wso.maxVotedWitnesses - before.length - 1, by omega⟩
    rw [hroom, List.take_succ_cons]
    exact .inr List.mem_cons_self
  rwa [← hsplit] at htake

/-- The witnesses in the order of virtual time are the same, up to the marks of the schedule. -/
theorem witnessesByScheduleTime_perm {β : Type} (s : Database) (names : List AccountName)
    (schedule : WitnessScheduleType) {f : Witness → β}
    (hf : ∀ w : Witness, f { w with schedule := schedule } = f w) :
    (((s.setSchedule names schedule).witnessesByScheduleTime).map
      fun entry ↦ (entry.1, f entry.2)).Perm
        (s.witnesses.entries.map fun entry ↦ (entry.1, f entry.2)) := by
  refine ((List.perm_insertionSort _ _).map _).trans (.of_eq ?_)
  simp only [setSchedule, Table.mapRows, List.map_map]
  apply List.map_congr_left
  rintro ⟨name, w⟩ _
  simp only [Function.comp_apply]
  split
  · rw [hf]
  · rfl

/-- The witnesses in the order of virtual time, after the elected ones have been marked. -/
def runnersInLine (s : Database) : List (AccountName × Witness) :=
  (s.setSchedule s.electedWitnesses .top19).witnessesByScheduleTime

theorem runnersInLine_perm {β : Type} (s : Database) {f : Witness → β}
    (hf : ∀ (w : Witness) schedule, f { w with schedule := schedule } = f w) :
    (s.runnersInLine.map fun entry ↦ (entry.1, f entry.2)).Perm
      (s.witnesses.entries.map fun entry ↦ (entry.1, f entry.2)) :=
  s.witnessesByScheduleTime_perm s.electedWitnesses .top19 fun w ↦ hf w .top19

theorem runnersInLine_nodup (s : Database) : (s.runnersInLine.map Prod.fst).Nodup := by
  have hperm := (s.runnersInLine_perm (f := Witness.hasKey) fun _ _ ↦ rfl).map Prod.fst
  simp only [List.map_map, Function.comp_def] at hperm
  exact hperm.nodup_iff.2 s.witnesses.nodup

/-- A witness in line is a witness, marked or not. -/
theorem exists_row_of_runnersInLine {β : Type} {entry : AccountName × Witness} {f : Witness → β}
    (hf : ∀ (w : Witness) schedule, f { w with schedule := schedule } = f w)
    (hmem : entry ∈ s.runnersInLine) :
    ∃ w, (entry.1, w) ∈ s.witnesses.entries ∧ f w = f entry.2 := by
  have hpair : (entry.1, f entry.2) ∈ s.witnesses.entries.map fun entry ↦ (entry.1, f entry.2) :=
    (s.runnersInLine_perm hf).mem_iff.1 (List.mem_map_of_mem hmem)
  obtain ⟨row, hrow, hsame⟩ := List.mem_map.1 hpair
  rw [Prod.mk.injEq] at hsame
  exact ⟨row.2, hsame.1 ▸ hrow, hsame.2⟩

theorem mem_rankedWitnesses_of_runnersInLine {entry : AccountName × Witness}
    (hmem : entry ∈ s.runnersInLine) (hkey : entry.2.hasKey = true) :
    entry.1 ∈ s.rankedWitnesses := by
  obtain ⟨w, hw, hsame⟩ := exists_row_of_runnersInLine (f := Witness.hasKey) (fun _ _ ↦ rfl) hmem
  rw [s.rankedWitnesses_perm.mem_iff]
  exact List.mem_map.2 ⟨(entry.1, w), List.mem_filter.2 ⟨hw, hsame.trans hkey⟩, rfl⟩

theorem exists_runnersInLine {name : AccountName} (h : name ∈ s.rankedWitnesses) :
    ∃ entry ∈ s.runnersInLine, entry.1 = name ∧ entry.2.hasKey = true := by
  rw [s.rankedWitnesses_perm.mem_iff, List.mem_map] at h
  obtain ⟨row, hrow, hname⟩ := h
  rw [List.mem_filter] at hrow
  have hpair := (s.runnersInLine_perm (f := Witness.hasKey) fun _ _ ↦ rfl).mem_iff.2
    (List.mem_map_of_mem hrow.1)
  obtain ⟨entry, hentry, hsame⟩ := List.mem_map.1 hpair
  rw [Prod.mk.injEq] at hsame
  exact ⟨entry, hentry, hsame.1.trans hname, hsame.2.trans hrow.2⟩

/-- The witnesses without a key are those the keyed ones leave. -/
theorem keyless_add_keyed (s : Database) :
    s.runnersInLine.countP (fun entry ↦ !entry.2.hasKey) + s.keyedWitnesses =
      s.witnesses.size := by
  have hperm := (s.runnersInLine_perm (f := Witness.hasKey) fun _ _ ↦ rfl).countP_eq
    fun pair ↦ !pair.2
  rw [List.countP_map, List.countP_map] at hperm
  have hsplit := s.witnesses.entries.length_eq_countP_add_countP fun entry ↦ entry.2.hasKey
  calc s.runnersInLine.countP (fun entry ↦ !entry.2.hasKey) + s.keyedWitnesses
      = s.witnesses.entries.countP (fun entry ↦ !entry.2.hasKey) + s.keyedWitnesses :=
        congrArg (· + s.keyedWitnesses) hperm
    _ = s.witnesses.size := by
        simp only [Bool.not_eq_true] at hsplit
        simp only [keyedWitnesses, Table.size, hsplit, Bool.decide_eq_false]
        exact Nat.add_comm _ _

/-- What the loop over the runners collects. -/
def selectedRunners (g : GenesisState) (s : Database) : RunnerSelection :=
  selectRunners g.maxWitnesses s.electedWitnesses s.runnersInLine
    ⟨s.wso.currentVirtualTime, [], 0, []⟩

/-- The witnesses that will be scheduled, before the shuffle. -/
def activeWitnesses (g : GenesisState) (s : Database) : List AccountName :=
  s.electedWitnesses ++ (s.selectedRunners g).runners

/-- What the two selection loops have chosen. -/
theorem activeWitnesses_spec (s : Database) (hvoted : s.wso.maxVotedWitnesses ≤ g.maxWitnesses) :
    (s.activeWitnesses g).Nodup ∧ (∀ name ∈ s.activeWitnesses g, name ∈ s.rankedWitnesses) ∧
      (s.activeWitnesses g).length = min g.maxWitnesses s.keyedWitnesses ∧
      (s.activeWitnesses g).length =
        min g.maxWitnesses (s.witnesses.size - (s.selectedRunners g).skipped) := by
  have helected : s.electedWitnesses.length ≤ g.maxWitnesses := by
    rw [electedWitnesses_eq, List.length_take]
    omega
  obtain ⟨seen, rest, hsplit, hrunners, hskipped, hle, hfull⟩ :=
    @selectRunners_spec g.maxWitnesses s.electedWitnesses s.runnersInLine
      ⟨s.wso.currentVirtualTime, [], 0, []⟩ helected
  change (s.selectedRunners g).runners = _ at hrunners
  change (s.selectedRunners g).skipped = _ at hskipped
  change _ + (s.selectedRunners g).runners.length ≤ _ at hle
  change _ ∨ _ + (s.selectedRunners g).runners.length = _ at hfull
  rw [List.nil_append] at hrunners
  rw [Nat.zero_add] at hskipped
  have hnodup : (s.activeWitnesses g).Nodup := by
    refine List.Nodup.append ?_ ?_ ?_
    · rw [electedWitnesses_eq]
      exact s.rankedWitnesses_nodup.sublist (List.take_sublist _ _)
    · rw [hrunners]
      have hseen := s.runnersInLine_nodup
      rw [hsplit, List.map_append] at hseen
      exact (hseen.sublist (List.sublist_append_left _ _)).sublist (List.filter_sublist.map _)
    · intro name hmem hrunner
      rw [hrunners, List.mem_map] at hrunner
      obtain ⟨entry, hentry, rfl⟩ := hrunner
      simp only [List.mem_filter, Bool.and_eq_true, decide_eq_true_eq] at hentry
      exact hentry.2.2 hmem
  have hranked : ∀ name ∈ s.activeWitnesses g, name ∈ s.rankedWitnesses := by
    intro name hname
    rcases List.mem_append.1 hname with hmem | hmem
    · rw [electedWitnesses_eq] at hmem
      exact List.mem_of_mem_take hmem
    · rw [hrunners, List.mem_map] at hmem
      obtain ⟨entry, hentry, rfl⟩ := hmem
      simp only [List.mem_filter, Bool.and_eq_true] at hentry
      exact mem_rankedWitnesses_of_runnersInLine
        (hsplit ▸ List.mem_append_left _ hentry.1) hentry.2.1
  have hlength : (s.activeWitnesses g).length ≤ s.keyedWitnesses := by
    rw [← rankedWitnesses_length]
    exact (hnodup.subperm hranked).length_le
  have hkeyless := s.keyless_add_keyed
  have hactive : (s.activeWitnesses g).length =
      s.electedWitnesses.length + (s.selectedRunners g).runners.length := List.length_append
  refine ⟨hnodup, hranked, ?_⟩
  rcases hfull with rfl | hfull
  · -- the loop has gone through all the witnesses, so every keyed one is active
    rw [List.append_nil] at hsplit
    rw [← hsplit] at hskipped hrunners
    have hall : s.keyedWitnesses ≤ (s.activeWitnesses g).length := by
      rw [← rankedWitnesses_length]
      refine (s.rankedWitnesses_nodup.subperm fun name hname ↦ ?_).length_le
      by_cases hmem : name ∈ s.electedWitnesses
      · exact List.mem_append_left _ hmem
      · obtain ⟨entry, hentry, rfl, hkey⟩ := exists_runnersInLine hname
        refine List.mem_append_right _ (hrunners ▸ List.mem_map_of_mem (List.mem_filter.2 ?_))
        exact ⟨hentry, by simp [hkey, hmem]⟩
    omega
  · -- the schedule is full before the end, so at most as many have been skipped as are keyless
    have hseen : (s.selectedRunners g).skipped ≤
        s.runnersInLine.countP (fun entry ↦ !entry.2.hasKey) := by
      rw [hskipped, hsplit, List.countP_append]
      exact Nat.le_add_right _ _
    omega

/-! ## Virtual times -/

theorem lapTime_ne_error {w : Witness} {message : String} :
    w.lapTime ≠ .error (.assertion message) := by
  unfold Witness.lapTime uint128Div
  split <;> simp

theorem lapTime_ok {w : Witness} (hlow : 0 ≤ w.votes) (hhigh : w.votes ≤ int64Max) :
    ∃ lap, w.lapTime = .ok lap := by
  have hsmall : (w.votes + 1) % 340282366920938463463374607431768211456 = w.votes + 1 :=
    Int.emod_eq_of_lt (Int.add_nonneg hlow Int.one_nonneg)
      ((Int.add_le_add_right hhigh 1).trans_lt (by decide))
  refine ⟨_, if_neg fun hzero ↦ ?_⟩
  rw [uint128OfInt, hsmall, Int.toNat_eq_zero] at hzero
  exact absurd (Int.lt_add_one_of_le hlow) (not_lt.2 hzero)

theorem advanceProcessed_ne_error {time : ℕ} {processed : List (AccountName × Witness)}
    {witnesses : Table AccountName Witness} {message : String} :
    advanceProcessed time processed witnesses ≠ .error (.assertion message) := by
  induction processed generalizing witnesses with
  | nil => intro h; cases h
  | cons entry rest ih =>
    simp only [advanceProcessed]
    intro h
    rcases bind_eq_error.1 h with hlap | ⟨lap, _, h⟩
    · exact lapTime_ne_error hlap
    · split at h
      · cases h
      · exact ih h

theorem advanceProcessed_ok {time : ℕ} {processed : List (AccountName × Witness)}
    {witnesses : Table AccountName Witness}
    (h : ∀ entry ∈ processed, ∃ lap, entry.2.lapTime = .ok lap) :
    ∃ result, advanceProcessed time processed witnesses = .ok result := by
  induction processed generalizing witnesses with
  | nil => exact ⟨_, rfl⟩
  | cons entry rest ih =>
    obtain ⟨lap, hlap⟩ := h entry List.mem_cons_self
    simp only [advanceProcessed, hlap, ok_bind]
    split
    · exact ⟨_, rfl⟩
    · exact ih fun entry hentry ↦ h entry (List.mem_cons_of_mem _ hentry)

theorem resetVirtualScheduleTime_ne_error {witnesses : Table AccountName Witness}
    {message : String} : resetVirtualScheduleTime witnesses ≠ .error (.assertion message) := by
  refine foldlM_ne_error (fun _ entry _ h ↦ ?_) _
  rcases bind_eq_error.1 h with hlap | ⟨_, _, h⟩
  · exact lapTime_ne_error hlap
  · cases h

theorem resetVirtualScheduleTime_ok {witnesses : Table AccountName Witness}
    (h : ∀ entry ∈ witnesses.entries, ∃ lap, entry.2.lapTime = .ok lap) :
    ∃ witnesses', resetVirtualScheduleTime witnesses = .ok witnesses' := by
  refine foldlM_ok (fun witnesses entry hentry ↦ ?_) _
  obtain ⟨lap, hlap⟩ := h entry hentry
  exact ⟨_, bind_eq_ok.2 ⟨lap, hlap, rfl⟩⟩

/-- The loop over the runners processes witnesses in line only. -/
theorem mem_selectRunners_processed {maxWitnesses : ℕ} {elected : List AccountName}
    {witnesses : List (AccountName × Witness)} {start : RunnerSelection}
    {entry : AccountName × Witness}
    (h : entry ∈ (selectRunners maxWitnesses elected witnesses start).processed) :
    entry ∈ start.processed ∨ entry ∈ witnesses := by
  induction witnesses generalizing start with
  | nil => exact .inl h
  | cons first rest ih =>
    have hmore : entry ∈ start.processed ++ [first] ∨ entry ∈ rest →
        entry ∈ start.processed ∨ entry ∈ first :: rest := by
      rw [List.mem_append, List.mem_singleton, List.mem_cons]
      tauto
    rw [selectRunners] at h
    split at h
    · split at h
      · exact hmore (ih h)
      · split at h
        · exact hmore (ih h)
        · exact hmore (ih h)
    · exact .inl h

/-! ## The witnesses of a schedule -/

/-- Every place of the schedule is held by a witness. -/
def Seated (s : Database) : Prop :=
  ∀ place < s.wso.numScheduledWitnesses, ∃ name w,
    s.wso.currentShuffledWitnesses[place]? = some name ∧ s.witnesses.find? name = some w

theorem scheduledWitnesses_ok (h : s.Seated) :
    ∃ scheduled, s.scheduledWitnesses = .ok scheduled ∧
      scheduled.length = s.wso.numScheduledWitnesses := by
  suffices hfound : ∃ scheduled, s.scheduledWitnesses = .ok scheduled ∧
      scheduled.length = (List.range s.wso.numScheduledWitnesses).length by
    simpa using hfound
  unfold scheduledWitnesses
  refine mapM_ok fun place hplace ↦ ?_
  obtain ⟨name, w, hname, hw⟩ := h place (List.mem_range.1 hplace)
  rw [hname]
  exact ⟨(name, w), bind_eq_ok.2 ⟨w, orUnknownKey_eq_ok.2 hw, rfl⟩⟩

theorem scheduledWitnesses_ne_error {message : String} :
    s.scheduledWitnesses ≠ .error (.assertion message) := by
  refine mapM_ne_error fun place _ h ↦ ?_
  split at h
  · rcases bind_eq_error.1 h with hw | ⟨_, _, h⟩
    · unfold getWitness orUnknownKey at hw
      split at hw <;> cases hw
    · cases h
  · cases h

theorem countHardforkVotes_ok (h : s.Seated) :
    ∃ result, s.countHardforkVotes = .ok result := by
  obtain ⟨scheduled, hscheduled, _⟩ := scheduledWitnesses_ok h
  simp only [countHardforkVotes, hscheduled, ok_bind]
  split
  · exact ⟨_, rfl⟩
  · exact ⟨_, rfl⟩

theorem countHardforkVotes_ne_error {message : String} :
    s.countHardforkVotes ≠ .error (.assertion message) := by
  intro h
  simp only [countHardforkVotes, bind_eq_error] at h
  rcases h with hscheduled | ⟨_, _, h⟩
  · exact scheduledWitnesses_ne_error hscheduled
  · split at h
    · cases h
    · cases h

theorem updateMedianWitnessProps_ok (h : s.Seated) (hpos : 0 < s.wso.numScheduledWitnesses) :
    ∃ s', s.updateMedianWitnessProps = .ok s' := by
  obtain ⟨scheduled, hscheduled, hlength⟩ := scheduledWitnesses_ok h
  simp only [updateMedianWitnessProps, hscheduled, ok_bind]
  generalize hactive : (scheduled.map fun entry ↦ entry.2.props) = active
  have hmiddle : active.length / 2 < active.length := by
    rw [← hactive, List.length_map, hlength]
    omega
  rw [List.getElem?_eq_getElem (by rwa [List.length_insertionSort]),
    List.getElem?_eq_getElem (by rwa [List.length_insertionSort])]
  exact ⟨_, rfl⟩

theorem updateMedianWitnessProps_ne_error {message : String} :
    s.updateMedianWitnessProps ≠ .error (.assertion message) := by
  intro h
  simp only [updateMedianWitnessProps, bind_eq_error] at h
  rcases h with hscheduled | ⟨_, _, h⟩
  · exact scheduledWitnesses_ne_error hscheduled
  · split at h
    · cases h
    · cases h

theorem updateMedianWitnessProps_wso (h : s.updateMedianWitnessProps = .ok s') :
    s'.wso.currentShuffledWitnesses = s.wso.currentShuffledWitnesses ∧
      s'.wso.numScheduledWitnesses = s.wso.numScheduledWitnesses := by
  simp only [updateMedianWitnessProps, bind_eq_ok] at h
  obtain ⟨_, _, h⟩ := h
  split at h
  · cases h
    exact ⟨rfl, rfl⟩
  · cases h

/-! ## The new schedule -/

/-- `num_scheduled_witnesses` of the new schedule, an eight bit number. -/
def newScheduled (g : GenesisState) (s : Database) : ℕ :=
  max ((s.activeWitnesses g).length % 256) 1

/-- `current_shuffled_witnesses` of the new schedule. -/
def newShuffled (g : GenesisState) (s : Database) : List AccountName :=
  shuffle s.dgp.time (s.newScheduled g) (s.activeWitnesses g ++
    List.replicate (g.maxWitnesses - (s.activeWitnesses g).length) 0)

theorem updateWitnessSchedule4_wso (h : s.updateWitnessSchedule4 g = .ok s') :
    s'.wso.currentShuffledWitnesses = s.newShuffled g ∧
      s'.wso.numScheduledWitnesses = s.newScheduled g := by
  simp only [updateWitnessSchedule4, bind_eq_ok, Prod.exists] at h
  obtain ⟨_, _, _, _, _, _, _, _, _, _, hprops⟩ := h
  obtain ⟨hnames, hcount⟩ := updateMedianWitnessProps_wso hprops
  exact ⟨hnames, hcount⟩

section WellFormed

variable (hvoted : s.wso.maxVotedWitnesses ≤ g.maxWitnesses) (hmax : g.maxWitnesses ≤ 85)
  (hpos : 0 < g.maxWitnesses) (hkeyed : 0 < s.keyedWitnesses)

include hvoted hmax hpos hkeyed

theorem newScheduled_eq : s.newScheduled g = (s.activeWitnesses g).length := by
  obtain ⟨_, _, hlength, _⟩ := activeWitnesses_spec s hvoted
  unfold newScheduled
  omega

theorem newShuffled_eq : ∃ names, names.Perm (s.activeWitnesses g) ∧
    s.newShuffled g =
      names ++ List.replicate (g.maxWitnesses - (s.activeWitnesses g).length) 0 := by
  unfold newShuffled
  rw [newScheduled_eq hvoted hmax hpos hkeyed]
  obtain ⟨names, hshuffled, hperm⟩ := shuffle_append s.dgp.time (s.activeWitnesses g)
    (List.replicate (g.maxWitnesses - (s.activeWitnesses g).length) 0)
  exact ⟨names, hperm, hshuffled⟩

/-- The new places are held by witnesses. -/
theorem newShuffled_seated {witnesses : Table AccountName Witness}
    (hagree : s.witnesses.AgreeOn Witness.unscheduled witnesses) :
    ∀ place < s.newScheduled g, ∃ name w,
      (s.newShuffled g)[place]? = some name ∧ witnesses.find? name = some w := by
  intro place hplace
  obtain ⟨names, hperm, hshuffled⟩ := newShuffled_eq hvoted hmax hpos hkeyed
  rw [newScheduled_eq hvoted hmax hpos hkeyed, ← hperm.length_eq] at hplace
  have hranked : names[place] ∈ s.rankedWitnesses :=
    (activeWitnesses_spec s hvoted).2.1 _ (hperm.mem_iff.1 (List.getElem_mem hplace))
  obtain ⟨w, hw, _⟩ := mem_rankedWitnesses.1 hranked
  obtain ⟨w', hw', _⟩ := hagree.exists_right hw
  refine ⟨names[place], w', ?_, hw'⟩
  rw [hshuffled, List.getElem?_append_left hplace, List.getElem?_eq_getElem hplace]

end WellFormed

end Database

/-- What `update_witness_schedule4` makes of the witnesses of `s`. -/
structure ScheduleWellFormed (g : GenesisState) (s s' : Database) : Prop where
  scheduled : s'.wso.numScheduledWitnesses = min g.maxWitnesses s.keyedWitnesses
  distinct : (s'.wso.currentShuffledWitnesses.take s'.wso.numScheduledWitnesses).Nodup
  keyed : ∀ name ∈ s'.wso.currentShuffledWitnesses.take s'.wso.numScheduledWitnesses,
    ∃ w, s'.witnesses.find? name = some w ∧ w.signingKey ≠ nullKey
  best : ∀ name w, s.witnesses.find? name = some w → w.signingKey ≠ nullKey →
    s.betterWitnesses (name, w) < s.wso.maxVotedWitnesses →
      name ∈ s'.wso.currentShuffledWitnesses.take s'.wso.numScheduledWitnesses
  padded : s'.wso.currentShuffledWitnesses.drop s'.wso.numScheduledWitnesses =
    List.replicate (g.maxWitnesses - s'.wso.numScheduledWitnesses) 0
  shuffled : ∀ i < s'.wso.numScheduledWitnesses,
    i + shuffleNumber s.dgp.time i % (s'.wso.numScheduledWitnesses - i) <
      s'.wso.currentShuffledWitnesses.length

namespace Database

variable {g : GenesisState} {s s' : Database}

theorem updateWitnessSchedule4_wellFormed (hvoted : s.wso.maxVotedWitnesses ≤ g.maxWitnesses)
    (hmax : g.maxWitnesses ≤ 85) (hpos : 0 < g.maxWitnesses) (hkeyed : 0 < s.keyedWitnesses)
    (h : s.updateWitnessSchedule4 g = .ok s') : ScheduleWellFormed g s s' := by
  obtain ⟨hnodup, hranked, hlength, _⟩ := activeWitnesses_spec s hvoted
  obtain ⟨names, hperm, hshuffled⟩ := newShuffled_eq hvoted hmax hpos hkeyed
  obtain ⟨hcurrent, hcount⟩ := updateWitnessSchedule4_wso h
  rw [newScheduled_eq hvoted hmax hpos hkeyed] at hcount
  rw [hshuffled] at hcurrent
  have htake : s'.wso.currentShuffledWitnesses.take s'.wso.numScheduledWitnesses = names := by
    rw [hcurrent, hcount, ← hperm.length_eq, List.take_left]
  refine ⟨hcount.trans hlength, ?_, ?_, ?_, ?_, ?_⟩
  · rw [htake]
    exact hperm.nodup_iff.2 hnodup
  · rw [htake]
    intro name hname
    obtain ⟨w, hw, hkey⟩ := mem_rankedWitnesses.1 (hranked name (hperm.mem_iff.1 hname))
    obtain ⟨witnesses, _, _, hagree, _, hs'⟩ := updateWitnessSchedule4_eq_ok h
    obtain ⟨w', hw', hsame⟩ := hagree.exists_right hw
    rw [hs']
    exact ⟨w', hw', fun hnull ↦ hkey ((congrArg Witness.signingKey hsame).symm.trans hnull)⟩
  · rw [htake]
    intro name w hw hkey hbest
    exact hperm.mem_iff.2 (List.mem_append_left _ (mem_electedWitnesses hw hkey hbest))
  · rw [hcurrent, hcount, ← hperm.length_eq, List.drop_left]
  · intro i hi
    have hindex := shuffleIndex_lt s.dgp.time hi
    rw [hcurrent, List.length_append, hperm.length_eq, ← hcount]
    exact Nat.lt_add_right _ hindex

section VirtualTimes

variable {advanced witnesses : Table AccountName Witness} {overflow : Bool}
  (hadvance : advanceProcessed (s.selectedRunners g).newVirtualTime
    (s.selectedRunners g).processed ((s.setSchedule s.electedWitnesses .top19).setSchedule
      (s.selectedRunners g).runners .timeshare).witnesses = .ok (advanced, overflow))

include hadvance

theorem advance_agree : s.witnesses.AgreeOn Witness.unscheduled advanced :=
  ((setSchedule_agree s s.electedWitnesses .top19).trans
    (setSchedule_agree (s.setSchedule s.electedWitnesses .top19)
      (s.selectedRunners g).runners .timeshare)).trans (advanceProcessed_agree hadvance)

theorem advance_reset_agree
    (hreset : (if overflow = true then resetVirtualScheduleTime advanced else pure advanced) =
      .ok witnesses) : s.witnesses.AgreeOn Witness.unscheduled witnesses := by
  refine (advance_agree hadvance).trans ?_
  split at hreset
  · exact resetVirtualScheduleTime_agree hreset
  · exact pure_eq_ok.1 hreset ▸ .refl _

theorem advance_reset_ok
    (hvotes : s.witnesses.Forall fun _ w ↦ 0 ≤ w.votes ∧ w.votes ≤ int64Max) :
    ∃ witnesses, (if overflow = true then resetVirtualScheduleTime advanced else pure advanced) =
      .ok witnesses := by
  split
  · refine resetVirtualScheduleTime_ok fun entry hentry ↦ ?_
    have hadvanced : advanced.Forall fun _ w ↦ 0 ≤ w.votes ∧ w.votes ≤ int64Max :=
      ((advance_agree hadvance).forall_iff (fun _ w ↦ 0 ≤ w.votes ∧ w.votes ≤ int64Max)
        fun _ _ ↦ Iff.rfl).2 hvotes
    obtain ⟨hlow, hhigh⟩ := hadvanced entry.1 entry.2 ((Table.find?_eq_some_iff _ _ _).2 hentry)
    exact lapTime_ok hlow hhigh
  · exact ⟨_, rfl⟩

end VirtualTimes

/-- The number of active witnesses is the expected one. -/
theorem expected_active_witnesses {witnesses : Table AccountName Witness}
    (hvoted : s.wso.maxVotedWitnesses ≤ g.maxWitnesses)
    (hagree : s.witnesses.AgreeOn Witness.unscheduled witnesses) :
    (s.electedWitnesses ++ (s.selectedRunners g).runners).length =
      min g.maxWitnesses (witnesses.size - (s.selectedRunners g).skipped) := by
  have hsize : witnesses.size = s.witnesses.size := by
    have hkeys := congrArg List.length hagree.1
    rwa [Table.keys, Table.keys, List.length_map, List.length_map] at hkeys
  rw [hsize]
  exact (activeWitnesses_spec s hvoted).2.2.2

theorem updateWitnessSchedule4_ne_error (hvoted : s.wso.maxVotedWitnesses ≤ g.maxWitnesses)
    (message : String) : s.updateWitnessSchedule4 g ≠ .error (.assertion message) := by
  intro h
  simp only [updateWitnessSchedule4, bind_eq_error, Prod.exists] at h
  rcases h with hadvance | ⟨advanced, overflow, hadvance, h⟩
  · exact advanceProcessed_ne_error hadvance
  rcases h with hreset | ⟨witnesses, hreset, h⟩
  · split at hreset
    · exact resetVirtualScheduleTime_ne_error hreset
    · cases hreset
  rcases h with hexpected | ⟨_, _, h⟩
  · have hsize := expected_active_witnesses hvoted (advance_reset_agree hadvance hreset)
    exact error_ne_ok (hexpected.symm.trans (if_pos hsize))
  rcases h with hvotes | ⟨_, _, _, h⟩
  · exact countHardforkVotes_ne_error hvotes
  · exact updateMedianWitnessProps_ne_error h

/-- The schedule is updated whenever the votes are amounts and the old schedule is held by
witnesses. -/
theorem updateWitnessSchedule4_ok (hvoted : s.wso.maxVotedWitnesses ≤ g.maxWitnesses)
    (hmax : g.maxWitnesses ≤ 85) (hpos : 0 < g.maxWitnesses) (hkeyed : 0 < s.keyedWitnesses)
    (hvotes : s.witnesses.Forall fun _ w ↦ 0 ≤ w.votes ∧ w.votes ≤ int64Max) (hseated : s.Seated) :
    ∃ s', s.updateWitnessSchedule4 g = .ok s' := by
  have hlap : ∀ entry ∈ (s.selectedRunners g).processed, ∃ lap, entry.2.lapTime = .ok lap := by
    intro entry hentry
    have hmem : entry ∈ s.runnersInLine :=
      (mem_selectRunners_processed hentry).resolve_left List.not_mem_nil
    obtain ⟨w, hw, hsame⟩ := exists_row_of_runnersInLine (f := Witness.votes) (fun _ _ ↦ rfl) hmem
    obtain ⟨hlow, hhigh⟩ := hvotes entry.1 w ((Table.find?_eq_some_iff _ _ _).2 hw)
    exact lapTime_ok (hsame ▸ hlow) (hsame ▸ hhigh)
  obtain ⟨⟨advanced, overflow⟩, hadvance⟩ := @advanceProcessed_ok
    (s.selectedRunners g).newVirtualTime (s.selectedRunners g).processed
    ((s.setSchedule s.electedWitnesses .top19).setSchedule
      (s.selectedRunners g).runners .timeshare).witnesses hlap
  obtain ⟨witnesses, hreset⟩ := advance_reset_ok hadvance hvotes
  have hagree := advance_reset_agree hadvance hreset
  have hold : Seated { (s.setSchedule s.electedWitnesses .top19).setSchedule
      (s.selectedRunners g).runners .timeshare with witnesses := witnesses } := by
    intro place hplace
    obtain ⟨name, w, hname, hw⟩ := hseated place hplace
    obtain ⟨w', hw', _⟩ := hagree.exists_right hw
    exact ⟨name, w', hname, hw'⟩
  obtain ⟨⟨version, hardforks⟩, hcount⟩ := countHardforkVotes_ok hold
  have hexpected := expected_active_witnesses hvoted hagree
  refine exists_bind_ok hadvance (exists_bind_ok hreset (exists_bind_ok (a := ())
    (fcAssert_eq_ok.2 hexpected) (exists_bind_ok hcount ?_)))
  refine updateMedianWitnessProps_ok ?_ ?_
  · exact newShuffled_seated hvoted hmax hpos hkeyed hagree
  · exact Nat.lt_of_lt_of_le Nat.one_pos (Nat.le_max_right _ _)

end Database

/-- The update of the schedule does not fail its assertion, and where it has votes and an old
schedule to work on, it ends with a schedule that is well formed. -/
theorem witness_schedule_well_formed (g : GenesisState) (s : Database)
    (hkey : ∃ name w, s.witnesses.find? name = some w ∧ w.signingKey ≠ nullKey)
    (hvoted : s.wso.maxVotedWitnesses ≤ g.maxWitnesses) (hmax : g.maxWitnesses ≤ 85)
    (hpos : 0 < g.maxWitnesses) :
    s.updateWitnessSchedule4 g ≠ .error
      (.assertion "number of active witnesses does not equal expected_active_witnesses") ∧
    ((s.witnesses.Forall fun _ w ↦ 0 ≤ w.votes ∧ w.votes ≤ int64Max) → s.Seated →
      ∃ s', s.updateWitnessSchedule4 g = .ok s') ∧
    ∀ s', s.updateWitnessSchedule4 g = .ok s' → ScheduleWellFormed g s s' := by
  have hkeyed : 0 < s.keyedWitnesses := by
    obtain ⟨name, w, hw, hnotnull⟩ := hkey
    rw [← Database.rankedWitnesses_length]
    exact List.length_pos_of_mem (Database.mem_rankedWitnesses.2 ⟨w, hw, hnotnull⟩)
  refine ⟨Database.updateWitnessSchedule4_ne_error hvoted _, ?_, ?_⟩
  · exact Database.updateWitnessSchedule4_ok hvoted hmax hpos hkeyed
  · intro s' hs'
    exact Database.updateWitnessSchedule4_wellFormed hvoted hmax hpos hkeyed hs'

/-! ## A network with several witnesses -/

/-- A development network with four accounts, where a witness needs no vesting. -/
def councilGenesis : GenesisState :=
  { devGenesis with
    initialSupply := 500
    totalSupply := 20500
    maxWitnesses := 4
    hardforkReqWitnesses := 3
    maxVotedWitnesses := 2
    maxRunnerWitnesses := 2
    initialWitnessReqVestingBalance := 0
    finalWitnessReqVestingBalance := 0
    blockInterval := 3600
    genesisTime := 1531512000
    initialAccounts := [⟨1000, 11, 50⟩, ⟨1001, 12, 50⟩, ⟨1002, 13, 50⟩, ⟨1003, 14, 50⟩] }

/-- An account signs that it becomes a witness. -/
def registration (expiration : Time) (account : AccountName) (key signingKey : PublicKey) :
    Transaction :=
  devTransaction expiration key
    (.witnessUpdate account [97] signingKey ⟨⟨0, sophiatxSymbol⟩, 131072, []⟩)

/-- Three accounts become witnesses, one of them without a signing key, and the fourth votes. -/
def registrations (now : Time) : List Transaction :=
  [registration (now + 1) 1000 11 21, registration (now + 2) 1001 12 22,
    registration (now + 3) 1002 13 nullKey,
    devTransaction (now + 4) 14 (.accountWitnessVote 1003 1001 true)]

/-- Three of the four witnesses have keys. They are scheduled, and the fourth seat stays empty. -/
theorem witness_schedule_of_council :
    ∃ s₀ s s', initGenesis councilGenesis = .ok s₀ ∧
      applyBlock (devContext councilGenesis) s₀ (devBlock .null 1531515600
        (registrations 1531512000)) = .ok s ∧
      s.updateWitnessSchedule4 councilGenesis = .ok s' ∧
      (s.witnesses.find? 1002).map Witness.signingKey = some nullKey ∧
      s'.wso.numScheduledWitnesses = 3 ∧
      s'.wso.currentShuffledWitnesses.Perm [1001, initMinerName, 1000, 0] ∧
      ScheduleWellFormed councilGenesis s s' := by
  have hok : okAnd (initGenesis councilGenesis) (fun s₀ ↦
      okAnd (applyBlock (devContext councilGenesis) s₀ (devBlock .null 1531515600
        (registrations 1531512000))) fun s ↦
          okAnd (s.updateWitnessSchedule4 councilGenesis) fun s' ↦
            decide ((s.witnesses.find? 1001).map Witness.signingKey = some 22 ∧
              (s.witnesses.find? 1002).map Witness.signingKey = some nullKey ∧
              s.wso.maxVotedWitnesses ≤ councilGenesis.maxWitnesses ∧
              s'.wso.numScheduledWitnesses = 3 ∧
              s'.wso.currentShuffledWitnesses.Perm [1001, initMinerName, 1000, 0])) = true := by
    decide +kernel
  obtain ⟨s₀, hgenesis, hs₀⟩ := exists_of_okAnd hok
  obtain ⟨s, hblock, hs⟩ := exists_of_okAnd hs₀
  obtain ⟨s', hs', hfacts⟩ := exists_of_okAnd hs
  obtain ⟨hkey, hnull, hvoted, hcount, hnames⟩ := of_decide_eq_true hfacts
  obtain ⟨w, hw, hsigning⟩ := Option.map_eq_some_iff.1 hkey
  have hnotnull : w.signingKey ≠ nullKey := by
    rw [hsigning]
    decide
  have hformed := (witness_schedule_well_formed councilGenesis s ⟨1001, w, hw, hnotnull⟩ hvoted
    (by decide) (by decide)).2.2 s' hs'
  exact ⟨s₀, s, s', hgenesis, hblock, hs', hnull, hcount, hnames, hformed⟩

end SophiaTX.Chain
