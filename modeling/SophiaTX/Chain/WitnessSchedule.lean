import SophiaTX.Chain.Evaluators

/-!
# Witness schedule

`update_witness_schedule4`: the most voted witnesses and the runners next in virtual time form
the new schedule, which is then shuffled. The same pass counts the votes for the next hardfork
and takes the medians of the witnesses' properties.
-/

namespace SophiaTX.Chain

open SophiaTX.Protocol SophiaTX.Lib

namespace Database

/-- The first `num_scheduled_witnesses` names of the schedule with their objects. -/
def scheduledWitnesses (s : Database) : Exec (List (AccountName × Witness)) :=
  (List.range s.wso.numScheduledWitnesses).mapM fun i ↦ do
    match s.wso.currentShuffledWitnesses[i]? with
    | some name => do
      let w ← s.getWitness name
      pure (name, w)
    | none => .error .undefinedBehaviour

/-- Witnesses by virtual scheduled time, ties by id. -/
def witnessesByScheduleTime (s : Database) : List (AccountName × Witness) :=
  s.witnesses.entries.insertionSort fun a b ↦
    a.2.virtualScheduledTime < b.2.virtualScheduledTime ∨
      (a.2.virtualScheduledTime = b.2.virtualScheduledTime ∧ a.2.id ≤ b.2.id)

def setSchedule (s : Database) (names : List AccountName) (schedule : WitnessScheduleType) :
    Database :=
  { s with witnesses := s.witnesses.mapRows fun name w ↦
      if name ∈ names then { w with schedule := schedule } else w }

end Database

/-- What the loop over the runners has collected. -/
structure RunnerSelection where
  newVirtualTime : ℕ
  processed : List (AccountName × Witness)
  skipped : ℕ
  runners : List AccountName

/-- The loop that adds the running witnesses in the lead. It stops when the schedule is full;
witnesses without a signing key are passed over, elected ones are only advanced. -/
def selectRunners (maxWitnesses : ℕ) (elected : List AccountName) :
    List (AccountName × Witness) → RunnerSelection → RunnerSelection
  | [], selection => selection
  | (name, w) :: rest, selection =>
    if elected.length + selection.runners.length < maxWitnesses then
      let selection := { selection with
        newVirtualTime := w.virtualScheduledTime
        processed := selection.processed ++ [(name, w)] }
      if w.signingKey = nullKey then
        selectRunners maxWitnesses elected rest { selection with skipped := selection.skipped + 1 }
      else if name ∈ elected then
        selectRunners maxWitnesses elected rest selection
      else
        selectRunners maxWitnesses elected rest
          { selection with runners := selection.runners ++ [name] }
    else selection

/-- Time for one lap of a witness. -/
def Witness.lapTime (w : Witness) : Exec ℕ :=
  uint128Div virtualScheduleLapLength2 (uint128OfInt (w.votes + 1))

/-- New virtual times of the processed witnesses, up to the first that overflows. The flag tells
whether one did. -/
def advanceProcessed (newVirtualTime : ℕ) :
    List (AccountName × Witness) → Table AccountName Witness →
      Exec (Table AccountName Witness × Bool)
  | [], witnesses => pure (witnesses, false)
  | (name, w) :: rest, witnesses => do
    let lap ← w.lapTime
    let scheduled := uint128Add newVirtualTime lap
    if scheduled < newVirtualTime then
      pure (witnesses, true)
    else
      advanceProcessed newVirtualTime rest (witnesses.modify name fun w ↦ { w with
        virtualPosition := 0
        virtualLastUpdate := newVirtualTime
        virtualScheduledTime := scheduled })

/-- `reset_virtual_schedule_time` on the witnesses. -/
def resetVirtualScheduleTime (witnesses : Table AccountName Witness) :
    Exec (Table AccountName Witness) :=
  witnesses.entries.foldlM (fun witnesses entry ↦ do
    let lap ← entry.2.lapTime
    pure (witnesses.modify entry.1 fun w ↦ { w with
      virtualPosition := 0
      virtualLastUpdate := 0
      virtualScheduledTime := lap })) witnesses

/-- Each key of a list once, with the number of its occurrences. -/
def tally {α : Type} [DecidableEq α] (keys : List α) : List (α × ℕ) :=
  keys.dedup.map fun key ↦ (key, keys.count key)

/-- The highest version that enough witnesses run at least. -/
def majorityVersion (required : ℕ) : List (Version × ℕ) → ℕ → Option Version
  | [], _ => none
  | (v, count) :: rest, sum =>
    if required ≤ sum + count then some v else majorityVersion required rest (sum + count)

/-- Pseudo-random number for position `i` of the shuffle, in `uint64_t` arithmetic. -/
def shuffleNumber (time : Time) (i : ℕ) : ℕ :=
  let size := 18446744073709551616
  let k := (time * 4294967296 + i * 2685821657736338717) % size
  let k := k ^^^ (k >>> 12)
  let k := k ^^^ ((k <<< 25) % size)
  let k := k ^^^ (k >>> 27)
  k * 2685821657736338717 % size

def swapAt (names : List AccountName) (i j : ℕ) : List AccountName :=
  match names[i]?, names[j]? with
  | some a, some b => (names.set i b).set j a
  | _, _ => names

def shuffle (time : Time) (count : ℕ) (names : List AccountName) : List AccountName :=
  (List.range count).foldl
    (fun names i ↦ swapAt names i (i + shuffleNumber time i % (count - i))) names

namespace Database

/-- The elected witnesses, by votes. -/
def electedWitnesses (s : Database) : List AccountName :=
  ((s.witnessesByVote.filter fun entry ↦ decide (entry.2.signingKey ≠ nullKey)).take
    s.wso.maxVotedWitnesses).map Prod.fst

/-- The votes of the current schedule for a version and for the next hardfork. -/
def countHardforkVotes (s : Database) : Exec (Version × HardforkProperty) := do
  let scheduled ← s.scheduledWitnesses
  let required := if s.dgp.privateNet then s.wso.numScheduledWitnesses / 2 + 1
    else s.wso.hardforkRequiredWitnesses
  let versions := (tally (scheduled.map fun entry ↦ entry.2.runningVersion)).insertionSort
    fun a b ↦ b.1 ≤ a.1
  let votes := (tally (scheduled.map fun entry ↦
      (entry.2.hardforkVersionVote, entry.2.hardforkTimeVote))).insertionSort
    fun a b ↦ a.1.1 < b.1.1 ∨ (a.1.1 = b.1.1 ∧ a.1.2 ≤ b.1.2)
  let version := (Chain.majorityVersion required versions 0).getD s.wso.majorityVersion
  match votes.find? fun vote ↦ decide (required ≤ vote.2) with
  | some vote =>
    pure (version, { s.hardforks with nextHardfork := vote.1.1, nextHardforkTime := vote.1.2 })
  | none =>
    pure (version, { s.hardforks with nextHardfork := s.hardforks.currentHardforkVersion })

/-- `update_median_witness_props`. -/
def updateMedianWitnessProps (s : Database) : Exec Database := do
  let active := (← s.scheduledWitnesses).map fun entry ↦ entry.2.props
  let byFee := active.insertionSort fun a b ↦
    a.accountCreationFee.amount ≤ b.accountCreationFee.amount
  let bySize := active.insertionSort fun a b ↦ a.maximumBlockSize ≤ b.maximumBlockSize
  match byFee[active.length / 2]?, bySize[active.length / 2]? with
  | some fee, some size =>
    pure { s with
      wso := { s.wso with medianProps := { s.wso.medianProps with
        accountCreationFee := fee.accountCreationFee
        maximumBlockSize := size.maximumBlockSize } }
      dgp := { s.dgp with maximumBlockSize := size.maximumBlockSize } }
  | _, _ => .error .undefinedBehaviour

def updateWitnessSchedule4 (g : GenesisState) (s : Database) : Exec Database := do
  let elected := s.electedWitnesses
  let s := s.setSchedule elected .top19
  let selection := selectRunners g.maxWitnesses elected s.witnessesByScheduleTime
    ⟨s.wso.currentVirtualTime, [], 0, []⟩
  let s := s.setSchedule selection.runners .timeshare
  let active := elected ++ selection.runners
  let (witnesses, overflow) ← advanceProcessed selection.newVirtualTime selection.processed
    s.witnesses
  let witnesses ← (if overflow then resetVirtualScheduleTime witnesses else pure witnesses)
  let newVirtualTime := if overflow then 0 else selection.newVirtualTime
  let s := { s with witnesses := witnesses }
  fcAssert (active.length = min g.maxWitnesses (s.witnesses.size - selection.skipped))
    "number of active witnesses does not equal expected_active_witnesses"
  let (majorityVersion, hardforks) ← s.countHardforkVotes
  let padded := active ++ List.replicate (g.maxWitnesses - active.length) 0
  let numScheduled := max (active.length % 256) 1
  let top19Weight := active.length % 256
  let s := { s with
    hardforks := hardforks
    wso := { s.wso with
      currentShuffledWitnesses := shuffle s.dgp.time numScheduled padded
      numScheduledWitnesses := numScheduled
      top19Weight := top19Weight
      timeshareWeight := 3 * top19Weight % 256
      witnessPayNormalizationFactor := elected.length + 3 * selection.runners.length
      currentVirtualTime := newVirtualTime
      nextShuffleBlockNum := s.dgp.headBlockNumber + numScheduled
      majorityVersion := majorityVersion } }
  s.updateMedianWitnessProps

/-- `update_witness_schedule`, once per round. -/
def updateWitnessSchedule (g : GenesisState) (s : Database) : Exec Database :=
  if g.maxWitnesses = 0 then .error .divideByZero
  else if s.dgp.headBlockNumber % g.maxWitnesses = 0 then s.updateWitnessSchedule4 g
  else pure s

end Database

end SophiaTX.Chain
