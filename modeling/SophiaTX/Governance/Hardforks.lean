import SophiaTX.Chain.Chronicle
import SophiaTX.Chain.Council
import SophiaTX.Voting.Recount

/-!
# Hardforks

Hardforks are applied one after another. Apart from those that a first block applies, each of them
was voted for by enough scheduled witnesses when the votes were last counted. The loop of
`process_hardforks` ends, with nothing left to apply or with an unknown hardfork, unless the
recount of votes for hardfork 1_1 overflows.
-/

namespace SophiaTX.Chain

open SophiaTX.Protocol SophiaTX.Lib

variable {ctx : Context} {g : GenesisState} {s s' : Database}

/-! ## Steps -/

/-- As many hardforks have been processed as the last one says, and its version is in force. -/
structure HardforkProperty.Ordered (h : HardforkProperty) : Prop where
  processed : h.processedHardforks.length = h.lastHardfork + 1
  version : h.currentHardforkVersion = hardforkVersions h.lastHardfork

/-- Hardforks are applied from one state to another, and the next one stays as voted. -/
structure HardforkProperty.Advances (h h' : HardforkProperty) : Prop where
  last : h.lastHardfork ≤ h'.lastHardfork
  ordered : h.Ordered → h'.Ordered

/-- A hardfork has been voted for, and its time has come. -/
def Database.hardforkDue (s : Database) : Prop :=
  hardforkVersions s.hardforks.lastHardfork < s.hardforks.nextHardfork ∧
    s.hardforks.nextHardforkTime ≤ s.dgp.time

instance (s : Database) : Decidable s.hardforkDue :=
  inferInstanceAs (Decidable (_ ∧ _))

namespace HardforkProperty.Advances

theorem refl (h : HardforkProperty) : h.Advances h := ⟨le_rfl, id⟩

theorem trans {h₁ h₂ h₃ : HardforkProperty} (h : h₁.Advances h₂) (h' : h₂.Advances h₃) :
    h₁.Advances h₃ :=
  ⟨h.last.trans h'.last, fun hordered ↦ h'.ordered (h.ordered hordered)⟩

end HardforkProperty.Advances

namespace Database

theorem applyHardfork_hardforks {hardfork : ℕ} (h : s.applyHardfork g hardfork = .ok s') :
    hardfork = s.hardforks.lastHardfork + 1 ∧ s.hardforks.Advances s'.hardforks ∧
      s'.hardforks.lastHardfork = hardfork ∧
      s'.hardforks.nextHardfork = s.hardforks.nextHardfork ∧
      s'.hardforks.nextHardforkTime = s.hardforks.nextHardforkTime ∧ s'.dgp.time = s.dgp.time := by
  obtain ⟨hlast, hlength, hcouncil⟩ := applyHardfork_council h
  have htime : s'.dgp.time = s.dgp.time := congrArg Registry.time (applyHardfork_registry h)
  have hforks : s'.hardforks = _ := congrArg Council.hardforks hcouncil
  rw [hforks]
  refine ⟨hlast, ⟨?_, fun _ ↦ ⟨?_, rfl⟩⟩, rfl, rfl, rfl, htime⟩
  · rw [hlast]
    exact Nat.le_succ _
  · rw [List.length_append, hlength, List.length_singleton]

/-- The loop of `process_hardforks` applies hardforks that are due. -/
theorem processHardforksLoop_hardforks {rounds : ℕ}
    (h : processHardforksLoop g rounds s = .ok s') :
    s.hardforks.Advances s'.hardforks ∧
      s'.hardforks.nextHardfork = s.hardforks.nextHardfork ∧
      s'.hardforks.nextHardforkTime = s.hardforks.nextHardforkTime ∧
      ∀ i, s.hardforks.lastHardfork < i → i ≤ s'.hardforks.lastHardfork →
        hardforkVersions (i - 1) < s.hardforks.nextHardfork ∧
          s.hardforks.nextHardforkTime ≤ s.dgp.time ∧ s.hardforkDue := by
  induction rounds generalizing s with
  | zero =>
    rw [← pure_eq_ok.1 h]
    exact ⟨.refl _, rfl, rfl, fun i hlow hhigh ↦ absurd hhigh (not_le.2 hlow)⟩
  | succ rounds ih =>
    unfold processHardforksLoop at h
    split at h
    · rename_i hdue
      split at h
      · simp only [bind_eq_ok] at h
        obtain ⟨s₁, hfork, h⟩ := h
        obtain ⟨_, hadvances, hlast, hnext, hnextTime, htime⟩ := applyHardfork_hardforks hfork
        obtain ⟨hadvances', hnext', hnextTime', happlied⟩ := ih h
        refine ⟨hadvances.trans hadvances', hnext'.trans hnext, hnextTime'.trans hnextTime,
          fun i hlow hhigh ↦ ?_⟩
        rcases Nat.lt_or_ge s.hardforks.lastHardfork.succ i with hlater | hfirst
        · obtain ⟨hversion, hdueTime, _⟩ := happlied i (by rwa [hlast]) hhigh
          rw [hnext] at hversion
          exact ⟨hversion, hdue.2, hdue⟩
        · obtain rfl : i = s.hardforks.lastHardfork + 1 := by omega
          exact ⟨hdue.1, hdue.2, hdue⟩
      · cases h
    · rw [← pure_eq_ok.1 h]
      exact ⟨.refl _, rfl, rfl, fun i hlow hhigh ↦ absurd hhigh (not_le.2 hlow)⟩

/-- The hardforks of a first block leave none that is due. -/
theorem setHardfork_hardforks {hardfork : ℕ} (h : s.setHardfork g hardfork = .ok s') :
    s.hardforks.Advances s'.hardforks ∧ (s'.hardforks = s.hardforks ∨
      s'.hardforks.nextHardfork = hardforkVersions s'.hardforks.lastHardfork) := by
  refine foldlM_invariant (I := fun t ↦ s.hardforks.Advances t.hardforks ∧
    (t.hardforks = s.hardforks ∨
      t.hardforks.nextHardfork = hardforkVersions t.hardforks.lastHardfork)) ?_ h
      ⟨.refl _, .inl rfl⟩
  rintro s₁ i s₂ - hround ⟨hadvances, _⟩
  obtain ⟨_, hadvances', hlast, hnext, _⟩ := applyHardfork_hardforks hround
  refine ⟨hadvances.trans ⟨hadvances'.last, fun hordered ↦ ?_⟩, .inr ?_⟩
  · exact hadvances'.ordered ⟨hordered.processed, hordered.version⟩
  · rw [hnext, hlast]

theorem openBlock_hardforks {b : SignedBlock} (h : s.openBlock ctx b = .ok s') :
    s'.hardforks = s.hardforks ∨ b.blockNum = 1 ∧ s.hardforks.Advances s'.hardforks ∧
      s'.hardforks.nextHardfork = hardforkVersions s'.hardforks.lastHardfork := by
  obtain ⟨s₁, hforks, hcouncil⟩ := openBlock_council h
  have hs' : s'.hardforks = s₁.hardforks := congrArg Council.hardforks hcouncil
  rw [hs']
  simp only [applyGenesisHardforks] at hforks
  split at hforks
  · rename_i hfirst
    simp only [bind_eq_ok, pure_eq_ok] at hforks
    obtain ⟨s₂, hfork, _, _, rfl⟩ := hforks
    obtain ⟨hadvances, hsame | hnext⟩ := setHardfork_hardforks hfork
    · exact .inl hsame
    · exact .inr ⟨hfirst.1, hadvances, hnext⟩
  · exact .inl (pure_eq_ok.1 hforks ▸ rfl)

/-! ## Votes -/

/-- What the witness at a place of the schedule votes for. -/
def scheduledVote (s : Database) (place : ℕ) : Option (Version × Time) :=
  s.wso.currentShuffledWitnesses[place]?.bind fun name ↦
    (s.witnesses.find? name).map fun w ↦ (w.hardforkVersionVote, w.hardforkTimeVote)

/-- The scheduled witnesses that vote for a version at a time. -/
def hardforkVotes (s : Database) (vote : Version × Time) : ℕ :=
  (List.range s.wso.numScheduledWitnesses).countP fun place ↦
    decide (s.scheduledVote place = some vote)

def requiredHardforkVotes (s : Database) : ℕ :=
  if s.dgp.privateNet then s.wso.numScheduledWitnesses / 2 + 1 else s.wso.hardforkRequiredWitnesses

theorem hardforkVotes_of_agree {witnesses : Table AccountName Witness}
    (h : s.witnesses.AgreeOn Witness.unscheduled witnesses) (vote : Version × Time) :
    { s with witnesses := witnesses }.hardforkVotes vote = s.hardforkVotes vote := by
  have hplace : ∀ place, { s with witnesses := witnesses }.scheduledVote place =
      s.scheduledVote place := by
    intro place
    simp only [scheduledVote]
    congr 1
    funext name
    exact (h.map fun w ↦ (w.hardforkVersionVote, w.hardforkTimeVote)).2 name
  simp only [hardforkVotes, hplace]

theorem scheduledWitnesses_votes {scheduled : List (AccountName × Witness)}
    (h : s.scheduledWitnesses = .ok scheduled) (vote : Version × Time) :
    (scheduled.map fun entry ↦ (entry.2.hardforkVersionVote, entry.2.hardforkTimeVote)).countP
      (fun other ↦ decide (other = vote)) = s.hardforkVotes vote := by
  unfold scheduledWitnesses at h
  unfold hardforkVotes
  generalize List.range s.wso.numScheduledWitnesses = places at h
  induction places generalizing scheduled with
  | nil =>
    cases h
    rfl
  | cons place rest ih =>
    simp only [List.mapM_cons, bind_eq_ok, pure_eq_ok] at h
    obtain ⟨entry, hentry, others, hothers, rfl⟩ := h
    have hvote : s.scheduledVote place =
        some (entry.2.hardforkVersionVote, entry.2.hardforkTimeVote) := by
      split at hentry
      · rename_i name hname
        simp only [getWitness, bind_eq_ok, orUnknownKey_eq_ok, pure_eq_ok] at hentry
        obtain ⟨w, hw, rfl⟩ := hentry
        simp [scheduledVote, hname, hw]
      · cases hentry
    rw [List.map_cons, List.countP_cons, ih hothers, List.countP_cons, hvote]
    simp only [Option.some.injEq]

/-- The votes for hardforks are counted: one that has enough becomes the next, and without such
nothing is due. -/
theorem countHardforkVotes_hardforks {v : Version} {hardforks : HardforkProperty}
    (h : s.countHardforkVotes = .ok (v, hardforks)) :
    (∃ vote : Version × Time, s.requiredHardforkVotes ≤ s.hardforkVotes vote ∧
      hardforks = { s.hardforks with nextHardfork := vote.1, nextHardforkTime := vote.2 }) ∨
    hardforks = { s.hardforks with nextHardfork := s.hardforks.currentHardforkVersion } := by
  simp only [countHardforkVotes, bind_eq_ok] at h
  obtain ⟨scheduled, hscheduled, h⟩ := h
  split at h
  · rename_i found hfound
    cases h
    refine .inl ⟨found.1, ?_, rfl⟩
    have henough := List.find?_some hfound
    rw [decide_eq_true_eq] at henough
    have hmem := (List.perm_insertionSort _ _).mem_iff.1 (List.mem_of_find?_eq_some hfound)
    obtain ⟨key, _, rfl⟩ := List.mem_map.1 hmem
    exact henough.trans_eq (scheduledWitnesses_votes hscheduled key)
  · cases h
    exact .inr rfl

theorem updateWitnessSchedule_hardforks (h : s.updateWitnessSchedule g = .ok s') :
    s.hardforks.Advances s'.hardforks ∧
      s'.hardforks.lastHardfork = s.hardforks.lastHardfork ∧
      if s.dgp.headBlockNumber % g.maxWitnesses = 0 then
        s'.hardforks.nextHardfork = s.hardforks.currentHardforkVersion ∨
          s.requiredHardforkVotes ≤
            s.hardforkVotes (s'.hardforks.nextHardfork, s'.hardforks.nextHardforkTime)
      else s'.hardforks = s.hardforks := by
  unfold updateWitnessSchedule at h
  split at h
  · cases h
  · split at h
    · rename_i hround
      rw [if_pos hround]
      obtain ⟨witnesses, v, hardforks, hwitnesses, hvotes, hs'⟩ := updateWitnessSchedule4_eq_ok h
      have hforks : s'.hardforks = hardforks := by rw [hs']
      rw [hforks]
      obtain ⟨vote, henough, hcounted⟩ | hcounted := countHardforkVotes_hardforks hvotes
      · rw [hardforkVotes_of_agree hwitnesses] at henough
        rw [hcounted]
        exact ⟨⟨le_rfl, fun hordered ↦ ⟨hordered.processed, hordered.version⟩⟩, rfl, .inr henough⟩
      · rw [hcounted]
        exact ⟨⟨le_rfl, fun hordered ↦ ⟨hordered.processed, hordered.version⟩⟩, rfl, .inl rfl⟩
    · rename_i hround
      rw [if_neg hround, ← pure_eq_ok.1 h]
      exact ⟨.refl _, rfl, rfl⟩

end Database

/-! ## Runs -/

/-- The moments at which `update_witness_schedule4` runs. -/
def CountsVotes (g : GenesisState) (moment : Moment) : Prop :=
  moment.2 = .updateWitnessSchedule ∧ moment.1.dgp.headBlockNumber % g.maxWitnesses = 0

/-- When the votes were last counted, enough scheduled witnesses voted for a version at a time. -/
def Elected (g : GenesisState) (past : List Moment) (vote : Version × Time) : Prop :=
  Since (fun moment _ ↦ CountsVotes g moment ∧
      moment.1.requiredHardforkVotes ≤ moment.1.hardforkVotes vote)
    (fun later ↦ ¬ CountsVotes g later) past

/-- Stages that apply hardforks, or count the votes for them. -/
def Stage.TouchesHardforks : Stage → Prop
  | .openBlock _ | .updateWitnessSchedule | .processHardforks => True
  | _ => False

theorem Council.Step.hardforks_eq {c c' : Council} {stage : Stage} (h : c.Step stage c')
    (hstage : ¬ stage.TouchesHardforks) : c'.hardforks = c.hardforks := by
  cases stage with
  | openBlock _ | updateWitnessSchedule | processHardforks => exact absurd trivial hstage
  | updateGlobalDynamicData _ => exact h.1
  | operation trx op =>
    simp only [Council.Step, Council.OperationStep] at h
    split at h
    · rw [h]
      rfl
    · rw [h]
      rfl
    · rw [h]
    · obtain ⟨_, _, _, h⟩ := h
      rw [h]
      rfl
    · rw [h]
  | _ =>
    obtain rfl : c' = c := h
    rfl

/-- No stage takes a hardfork back. -/
theorem Stage.hardforks_advance {stage : Stage} (h : stage.run ctx s = .ok s') :
    s.hardforks.Advances s'.hardforks := by
  by_cases hstage : stage.TouchesHardforks
  · cases stage with
    | openBlock b =>
      obtain hsame | ⟨_, hadvances, _⟩ := Database.openBlock_hardforks h
      · exact hsame ▸ .refl _
      · exact hadvances
    | updateWitnessSchedule => exact (Database.updateWitnessSchedule_hardforks h).1
    | processHardforks => exact (Database.processHardforksLoop_hardforks h).1
    | _ => exact absurd hstage id
  · have hsame : s'.hardforks = s.hardforks := (Stage.council_step h).hardforks_eq hstage
    exact hsame ▸ .refl _

namespace Chronicle

variable {C : Database → Stage → Prop} {s₀ : Database} {pending : Option (List Stage)}
  {past : List Moment}

theorem hardforks_ordered (hgenesis : initGenesis ctx.genesis = .ok s₀)
    (h : Chronicle ctx C s₀ past pending s) : s.hardforks.Ordered := by
  induction h with
  | refl =>
    simp only [initGenesis, bind_eq_ok, pure_eq_ok] at hgenesis
    obtain ⟨_, _, _, _, _, _, rfl⟩ := hgenesis
    exact ⟨rfl, rfl⟩
  | start _ _ ih => exact ih
  | stage _ _ hrun ih => exact (Stage.hardforks_advance hrun).ordered ih
  | finish _ _ ih => exact ih

/-- A hardfork that is waiting for its time has been elected. -/
theorem hardfork_elected (hgenesis : initGenesis ctx.genesis = .ok s₀)
    (h : Chronicle ctx C s₀ past pending s)
    (hnext : hardforkVersions s.hardforks.lastHardfork < s.hardforks.nextHardfork) :
    Elected ctx.genesis past (s.hardforks.nextHardfork, s.hardforks.nextHardforkTime) := by
  induction h with
  | refl =>
    simp only [initGenesis, bind_eq_ok, pure_eq_ok] at hgenesis
    obtain ⟨_, _, _, _, _, _, rfl⟩ := hgenesis
    exact absurd hnext (Nat.not_lt_zero _)
  | start _ _ ih => exact ih hnext
  | finish _ _ ih => exact ih hnext
  | @stage past s s' stage rest h _ hrun ih =>
    by_cases hcounts : CountsVotes ctx.genesis (s, stage)
    · -- The votes are counted now: without a majority nothing waits.
      obtain ⟨rfl, hround⟩ := hcounts
      obtain ⟨_, hlast, hcounted⟩ := Database.updateWitnessSchedule_hardforks hrun
      rw [if_pos hround] at hcounted
      rcases hcounted with hnone | henough
      · rw [hnone, hlast, (h.hardforks_ordered hgenesis).version] at hnext
        exact absurd hnext (lt_irrefl _)
      · exact .now ⟨⟨rfl, hround⟩, henough⟩
    · refine .step hcounts ?_
      by_cases hstage : stage.TouchesHardforks
      · cases stage with
        | openBlock b =>
          obtain hsame | ⟨_, _, hnone⟩ := Database.openBlock_hardforks hrun
          · rw [hsame] at hnext ⊢
            exact ih hnext
          · rw [hnone] at hnext
            exact absurd hnext (lt_irrefl _)
        | updateWitnessSchedule =>
          obtain ⟨_, _, hsame⟩ := Database.updateWitnessSchedule_hardforks hrun
          rw [if_neg fun hround ↦ hcounts ⟨rfl, hround⟩] at hsame
          rw [hsame] at hnext ⊢
          exact ih hnext
        | processHardforks =>
          obtain ⟨hadvances, hsame, hsameTime, happlied⟩ :=
            Database.processHardforksLoop_hardforks hrun
          rw [hsame, hsameTime]
          rcases hadvances.last.eq_or_lt with hlast | hlast
          · rw [hsame, ← hlast] at hnext
            exact ih hnext
          · exact ih (happlied _ hlast le_rfl).2.2.1
        | _ => exact absurd hstage id
      · have hsame : s'.hardforks = s.hardforks := (Stage.council_step hrun).hardforks_eq hstage
        rw [hsame] at hnext ⊢
        exact ih hnext

end Chronicle

/-! ## The loop of `process_hardforks` -/

namespace Database

theorem applyHardfork_ok (hordered : s.hardforks.Ordered)
    (hrecount : s.hardforks.lastHardfork = 0 → ∃ t, s.recalculateAllVotes = .ok t) :
    ∃ s', s.applyHardfork g (s.hardforks.lastHardfork + 1) = .ok s' := by
  obtain ⟨s₁, hs₁, hforks⟩ : ∃ s₁, (if s.hardforks.lastHardfork + 1 = 1 then
      s.recalculateAllVotes else pure s) = .ok s₁ ∧ s₁.hardforks = s.hardforks := by
    split
    · rename_i hfirst
      obtain ⟨s₁, hs₁⟩ := hrecount (Nat.succ.inj hfirst)
      exact ⟨s₁, hs₁, congrArg Council.hardforks (recalculateAllVotes_commerce hs₁).council⟩
    · exact ⟨s, rfl, rfl⟩
  have hlast : s.hardforks.lastHardfork + 1 = s₁.hardforks.lastHardfork + 1 := by rw [hforks]
  have hlength : s₁.hardforks.processedHardforks.length = s.hardforks.lastHardfork + 1 := by
    rw [hforks, hordered.processed]
  exact ⟨_, bind_eq_ok.2 ⟨s₁, hs₁, bind_eq_ok.2 ⟨(), fcAssert_eq_ok.2 hlast,
    bind_eq_ok.2 ⟨(), fcAssert_eq_ok.2 hlength, rfl⟩⟩⟩⟩

/-- With rounds enough, the loop ends with nothing due or with an unknown hardfork. -/
theorem processHardforksLoop_ends {rounds : ℕ} (hpos : 0 < rounds)
    (hrounds : numHardforks < s.hardforks.lastHardfork + rounds) (hordered : s.hardforks.Ordered)
    (hrecount : s.hardforkDue → s.hardforks.lastHardfork = 0 →
      ∃ t, s.recalculateAllVotes = .ok t) :
    (∃ s', processHardforksLoop g rounds s = .ok s' ∧ ¬ s'.hardforkDue) ∨
      processHardforksLoop g rounds s = .error .unknownHardfork := by
  induction rounds generalizing s with
  | zero => exact absurd hpos (lt_irrefl 0)
  | succ rounds ih =>
    by_cases hdue : s.hardforkDue
    · have hguard : hardforkVersions s.hardforks.lastHardfork < s.hardforks.nextHardfork ∧
        s.hardforks.nextHardforkTime ≤ s.dgp.time := hdue
      unfold processHardforksLoop
      rw [if_pos hguard]
      by_cases hknown : s.hardforks.lastHardfork < numHardforks
      · obtain ⟨s₁, hs₁⟩ := applyHardfork_ok (g := g) hordered (hrecount hdue)
        obtain ⟨_, hadvances, hlast, _⟩ := applyHardfork_hardforks hs₁
        rw [if_pos hknown, hs₁]
        refine ih (by omega) (by omega) (hadvances.ordered hordered) fun _ hzero ↦ ?_
        rw [hlast] at hzero
        exact absurd hzero (Nat.succ_ne_zero _)
      · rw [if_neg hknown]
        exact .inr rfl
    · refine .inl ⟨s, ?_, hdue⟩
      unfold processHardforksLoop
      exact if_neg hdue

end Database

/-- What a stage of a run may do about hardforks. -/
structure HardforksKept (ctx : Context) (past : List Moment) (s : Database) (stage : Stage) :
    Prop where
  advances : ∀ s', stage.run ctx s = .ok s' → s.hardforks.lastHardfork ≤ s'.hardforks.lastHardfork
  elected : ∀ s', stage.run ctx s = .ok s' →
    ∀ i, s.hardforks.lastHardfork < i → i ≤ s'.hardforks.lastHardfork →
      (∃ b, stage = .openBlock b ∧ b.blockNum = 1) ∨
      stage = .processHardforks ∧ ∃ vote, Elected ctx.genesis past vote ∧
        hardforkVersions (i - 1) < vote.1 ∧ vote.2 ≤ s.dgp.time
  ends : stage = .processHardforks →
    (s.hardforkDue → s.hardforks.lastHardfork = 0 → RecountFits s) →
      (∃ s', s.processHardforks ctx.genesis = .ok s' ∧ ¬ s'.hardforkDue) ∨
        s.processHardforks ctx.genesis = .error .unknownHardfork

/-- Hardforks are applied in order and by election, and the loop that applies them ends as long as
the recount of hardfork 1_1 does not overflow. -/
theorem hardforks_in_order (hskip : ctx.skip.validate = false) {s₀ : Database}
    {past : List Moment} {pending : Option (List Stage)}
    (hgenesis : initGenesis ctx.genesis = .ok s₀)
    (h : Chronicle ctx (fun _ _ ↦ True) s₀ past pending s) :
    (s.hardforks.processedHardforks.length = s.hardforks.lastHardfork + 1 ∧
      s.hardforks.currentHardforkVersion = hardforkVersions s.hardforks.lastHardfork) ∧
    ∀ stage rest, pending = some (stage :: rest) → HardforksKept ctx past s stage := by
  have hordered := h.hardforks_ordered hgenesis
  refine ⟨⟨hordered.processed, hordered.version⟩, ?_⟩
  rintro stage rest rfl
  refine ⟨fun s' hrun ↦ (Stage.hardforks_advance hrun).last, fun s' hrun i hlow hhigh ↦ ?_, ?_⟩
  · by_cases hstage : stage.TouchesHardforks
    · cases stage with
      | openBlock b =>
        obtain hsame | ⟨hfirst, _⟩ := Database.openBlock_hardforks hrun
        · rw [hsame] at hhigh
          exact absurd hhigh (not_le.2 hlow)
        · exact .inl ⟨b, rfl, hfirst⟩
      | updateWitnessSchedule =>
        rw [(Database.updateWitnessSchedule_hardforks hrun).2.1] at hhigh
        exact absurd hhigh (not_le.2 hlow)
      | processHardforks =>
        obtain ⟨_, _, _, happlied⟩ := Database.processHardforksLoop_hardforks hrun
        obtain ⟨hversion, htime, hdue⟩ := happlied i hlow hhigh
        exact .inr ⟨rfl, _, h.hardfork_elected hgenesis hdue.1, hversion, htime⟩
      | _ => exact absurd hstage id
    · have hsame : s'.hardforks = s.hardforks := (Stage.council_step hrun).hardforks_eq hstage
      rw [hsame] at hhigh
      exact absurd hhigh (not_le.2 hlow)
  · rintro rfl hfits
    have hballots := h.runsFrom.ballotsInOrder hskip hgenesis
    refine Database.processHardforksLoop_ends (Nat.succ_pos _) (by omega) hordered ?_
    exact fun hdue hzero ↦ Database.recalculateAllVotes_ok hballots (hfits hdue hzero)

/-! ## A recount that overflows -/

/-- A network with one witness, and two accounts with a balance each. -/
def soloGenesis (balance balance' : ShareType) : GenesisState :=
  { devGenesis with
    initialSupply := balance + balance' + 300
    totalSupply := balance + balance' + 2300
    initialAccounts := [⟨1000, 8, balance⟩, ⟨1001, 8, balance'⟩]
    maxWitnesses := 1
    maxVotedWitnesses := 1
    hardforkReqWitnesses := 1 }

/-- Two accounts give their votes to the init miner, who votes for hardfork 1_1 in the header. -/
def electingBlock : SignedBlock :=
  { devBlock .null 1531512803
      [devTransaction 1531512900 8 (.accountWitnessProxy 1000 initMinerName),
        devTransaction 1531512901 8 (.accountWitnessProxy 1001 initMinerName)] with
    extensions := [.version blockchainVersion, .hardforkVersionVote (hardforkVersions 1) 0] }

theorem electingBlock_stages : SignedBlock.stages electingBlock =
    (SignedBlock.stages electingBlock).take 20 ++ [.processHardforks, .recordBlock electingBlock] :=
  rfl

/-- The run through the block up to its hardforks. -/
theorem electing_chronicle {g : GenesisState} {s₀ s : Database}
    (h : runStages (devContext g) ((SignedBlock.stages electingBlock).take 20) s₀ = .ok s) :
    ∃ past, Chronicle (devContext g) (fun _ _ ↦ True) s₀ past
      (some [.processHardforks, .recordBlock electingBlock]) s := by
  refine RunsFrom.chronicle (RunsFrom.runStages ?_ (fun _ _ _ ↦ trivial) h)
  rw [← electingBlock_stages]
  exact RunsFrom.refl.start electingBlock

theorem hardforks_in_order_when_elected :
    ∃ s₀ s s' past, initGenesis (soloGenesis 50 60) = .ok s₀ ∧
      Chronicle (devContext (soloGenesis 50 60)) (fun _ _ ↦ True) s₀ past
        (some [.processHardforks, .recordBlock electingBlock]) s ∧
      RecountFits s ∧ s.processHardforks (soloGenesis 50 60) = .ok s' ∧ ¬ s'.hardforkDue ∧
      s.hardforks.lastHardfork = 0 ∧ s'.hardforks.lastHardfork = 1 ∧
      ∃ vote, Elected (soloGenesis 50 60) past vote ∧ hardforkVersions 0 < vote.1 ∧
        vote.2 ≤ s.dgp.time := by
  have hok : okAnd (initGenesis (soloGenesis 50 60)) (fun s₀ ↦
      okAnd (runStages (devContext (soloGenesis 50 60))
        ((SignedBlock.stages electingBlock).take 20) s₀) fun s ↦
          okAnd (s.processHardforks (soloGenesis 50 60)) fun s' ↦
            decide (RecountFits s ∧ s.hardforks.lastHardfork = 0 ∧
              s'.hardforks.lastHardfork = 1)) = true := by decide +kernel
  obtain ⟨s₀, hgenesis, hs₀⟩ := exists_of_okAnd hok
  obtain ⟨s, hs, hs'⟩ := exists_of_okAnd hs₀
  obtain ⟨s', hforks, hlast⟩ := exists_of_okAnd hs'
  obtain ⟨hfits, hbefore, hafter⟩ := of_decide_eq_true hlast
  obtain ⟨past, hpast⟩ := electing_chronicle hs
  have hkept := (hardforks_in_order rfl hgenesis hpast).2 _ _ rfl
  have hdue : ¬ s'.hardforkDue := by
    rcases hkept.ends rfl fun _ _ ↦ hfits with ⟨t, ht, hdue⟩ | herror
    · cases ht.symm.trans hforks
      exact hdue
    · cases herror.symm.trans hforks
  rcases hkept.elected s' hforks 1 (by omega) (by omega) with ⟨b, hb, _⟩ | ⟨_, hvote⟩
  · cases hb
  · exact ⟨s₀, s, s', past, hgenesis, hpast, hfits, hforks, hdue, hbefore, hafter, hvote⟩

/-- What has been proxied to the init miner is counted twice and overflows, and the block that
would apply the hardfork throws. -/
theorem hardfork_recount_overflows :
    ∃ s₀ s past, initGenesis (soloGenesis 4000000000000000000 1000000000000000000) = .ok s₀ ∧
      Chronicle (devContext (soloGenesis 4000000000000000000 1000000000000000000))
        (fun _ _ ↦ True) s₀ past (some [.processHardforks, .recordBlock electingBlock]) s ∧
      s.hardforkDue ∧ s.hardforks.lastHardfork = 0 ∧
      s.processHardforks (soloGenesis 4000000000000000000 1000000000000000000) =
        .error .overflow := by
  have hok : okAnd (initGenesis (soloGenesis 4000000000000000000 1000000000000000000)) (fun s₀ ↦
      okAnd (runStages (devContext (soloGenesis 4000000000000000000 1000000000000000000))
        ((SignedBlock.stages electingBlock).take 20) s₀) fun s ↦
          decide (s.hardforkDue ∧ s.hardforks.lastHardfork = 0 ∧
            errorOf (s.processHardforks
              (soloGenesis 4000000000000000000 1000000000000000000)) = some .overflow)) = true := by
    decide +kernel
  obtain ⟨s₀, hgenesis, hs₀⟩ := exists_of_okAnd hok
  obtain ⟨s, hs, hs'⟩ := exists_of_okAnd hs₀
  obtain ⟨hdue, hlast, herror⟩ := of_decide_eq_true hs'
  obtain ⟨past, hpast⟩ := electing_chronicle hs
  exact ⟨s₀, s, past, hgenesis, hpast, hdue, hlast, eq_error_of_errorOf herror⟩

end SophiaTX.Chain
