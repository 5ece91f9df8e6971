import SophiaTX.Lib.Cursor
import SophiaTX.Lib.Numbering
import SophiaTX.Plugins.CustomTokens

/-!
# Errors of the token plugin

`save_token_error` files an error under its transaction and its token and then cleans up: it walks
back along the errors in the order of their times, from the youngest one before the present, as
long as they are old. The clock is read twice, for the time of the new error and for the present.
-/

namespace SophiaTX.Plugins

open SophiaTX.Protocol SophiaTX.Lib

/-- `custom_token_error_object`, whose time counts nanoseconds. -/
structure TimedTokenError extends CustomTokenError where
  time : Int64
deriving DecidableEq

/-- Stored errors by the transaction they happened in. -/
abbrev TokenErrors := Table ℕ TimedTokenError

/-- What may go wrong: the creation of an object throws, or the walk leaves the index or the range
of its numbers. -/
inductive CleanupFault where
  | uniqueness
  | undefinedBehaviour
deriving DecidableEq

namespace TokenErrors

/-! ## The function -/

def hourNanoseconds : ℤ := 3600000000000

/-- A result of signed 64-bit arithmetic. -/
def checkedInt64 (x : ℤ) : Except CleanupFault ℤ :=
  if int64Min ≤ x ∧ x ≤ int64Max then .ok x else .error .undefinedBehaviour

/-- `std::chrono::hours( 24 * cleanup_day_ )` in nanoseconds. The product of the days is one of
`uint32_t`. -/
def cleanupAge (cleanupDay : UInt32) : Except CleanupFault ℤ :=
  checkedInt64 ((24 * cleanupDay).toNat * hourNanoseconds)

/-- The order of `by_time`. -/
abbrev NotLater (entry entry' : ℕ × TimedTokenError) : Prop :=
  entry.2.time.toInt ≤ entry'.2.time.toInt

/-- The errors in front of `lower_bound( now )`, the youngest first. -/
def beforeNow (now : Int64) (errors : TokenErrors) : List (ℕ × TimedTokenError) :=
  ((errors.entries.insertionSort NotLater).takeWhile fun entry ↦
    decide (entry.2.time.toInt < now.toInt)).reverse

/-- The loop that collects what is to be removed. There is no error in front of the first one. -/
def collectOld (cleanupDay : UInt32) (now : Int64) :
    List (ℕ × TimedTokenError) → List ℕ → Except CleanupFault (List ℕ)
  | [], _ => .error .undefinedBehaviour
  | entry :: older, toRemove => do
    let age ← checkedInt64 (now.toInt - entry.2.time.toInt)
    let limit ← cleanupAge cleanupDay
    if limit < age then collectOld cleanupDay now older (toRemove ++ [entry.1])
    else pure toRemove

def cleanUp (cleanupDay : UInt32) (now : Int64) (errors : TokenErrors) :
    Except CleanupFault TokenErrors :=
  if cleanupDay = 0 then pure errors
  else
    match beforeNow now errors with
    | [] => pure errors
    | youngest :: older => do
      let toRemove ← collectOld cleanupDay now (youngest :: older) []
      pure (toRemove.foldl Table.erase errors)

/-- The sequence numbers of a token's errors. -/
def sequences (errors : TokenErrors) (tokenSymbol : AssetSymbol) : List UInt64 :=
  (errors.entries.filter fun entry ↦ entry.2.tokenSymbol = tokenSymbol).map fun entry ↦
    entry.2.tokenSequence

def create (created : Int64) (trxId : ℕ) (error : String) (tokenSymbol : AssetSymbol)
    (errors : TokenErrors) : Except CleanupFault TokenErrors :=
  let tokenSequence := nextSequence (errors.sequences tokenSymbol)
  match errors.emplace? trxId { tokenSymbol, error, tokenSequence, time := created } with
  | some errors => .ok errors
  | none => .error .uniqueness

/-- `save_token_error`, with the two readings of the clock. -/
def saveTokenError (cleanupDay : UInt32) (created now : Int64) (trxId : ℕ) (error : String)
    (tokenSymbol : AssetSymbol) (errors : TokenErrors) : Except CleanupFault TokenErrors := do
  let errors ← errors.create created trxId error tokenSymbol
  errors.cleanUp cleanupDay now

/-! ## The walk -/

/-- An error is no older than the age the walk computes, if 64 bits hold that. -/
def Recent (cleanupDay : UInt32) (now time : Int64) : Prop :=
  (24 * cleanupDay).toNat * hourNanoseconds ≤ int64Max ∧
    now.toInt - time.toInt ≤ (24 * cleanupDay).toNat * hourNanoseconds

variable {cleanupDay : UInt32} {now time created : Int64} {errors errors' : TokenErrors}
  {entry : ℕ × TimedTokenError} {entries : List (ℕ × TimedTokenError)} {toRemove : List ℕ}

theorem checkedInt64_eq_error {x : ℤ} (h : ¬ (int64Min ≤ x ∧ x ≤ int64Max)) :
    checkedInt64 x = .error .undefinedBehaviour := if_neg h

theorem cleanupAge_nonneg : 0 ≤ ((24 * cleanupDay).toNat : ℤ) * hourNanoseconds :=
  Int.mul_nonneg (Int.natCast_nonneg _) (by decide)

theorem Recent.mono {time' : Int64} (h : Recent cleanupDay now time)
    (hle : time.toInt ≤ time'.toInt) : Recent cleanupDay now time' :=
  ⟨h.1, (Int.sub_le_sub_left hle _).trans h.2⟩

theorem collectOld_of_recent (hrecent : Recent cleanupDay now entry.2.time)
    (hbefore : entry.2.time.toInt < now.toInt) :
    collectOld cleanupDay now (entry :: entries) toRemove = .ok toRemove := by
  obtain ⟨hlimit, hage⟩ := hrecent
  have hnonneg := @cleanupAge_nonneg cleanupDay
  have hmin : int64Min ≤ 0 := by decide
  have hlimit' : cleanupAge cleanupDay = .ok ((24 * cleanupDay).toNat * hourNanoseconds) :=
    if_pos ⟨hmin.trans hnonneg, hlimit⟩
  have hage' : checkedInt64 (now.toInt - entry.2.time.toInt) =
      .ok (now.toInt - entry.2.time.toInt) := if_pos ⟨by omega, hage.trans hlimit⟩
  rw [collectOld, hage', ok_bind, hlimit', ok_bind, if_neg (not_lt_of_ge hage)]
  rfl

/-- A walk over old errors alone runs off the front of the index. -/
theorem collectOld_of_not_recent (hold : ∀ entry ∈ entries, ¬ Recent cleanupDay now entry.2.time) :
    collectOld cleanupDay now entries toRemove = .error .undefinedBehaviour := by
  induction entries generalizing toRemove with
  | nil => rfl
  | cons entry older ih =>
    have hrest (toRemove : List ℕ) := @ih toRemove fun e he ↦ hold e (List.mem_cons_of_mem _ he)
    rw [collectOld]
    by_cases hage : int64Min ≤ now.toInt - entry.2.time.toInt ∧
        now.toInt - entry.2.time.toInt ≤ int64Max
    · by_cases hlimit : (24 * cleanupDay).toNat * hourNanoseconds ≤ int64Max
      · have hnonneg := @cleanupAge_nonneg cleanupDay
        have hlimit' : cleanupAge cleanupDay = .ok ((24 * cleanupDay).toNat * hourNanoseconds) :=
          if_pos ⟨le_trans (by decide) hnonneg, hlimit⟩
        have hlt : (24 * cleanupDay).toNat * hourNanoseconds <
            now.toInt - entry.2.time.toInt := by
          apply lt_of_not_ge
          intro hle
          exact hold entry List.mem_cons_self ⟨hlimit, hle⟩
        rw [checkedInt64, if_pos hage, ok_bind, hlimit', ok_bind, if_pos hlt, hrest]
      · rw [checkedInt64, if_pos hage, ok_bind, cleanupAge,
          checkedInt64_eq_error fun h ↦ hlimit h.2, error_bind]
    · rw [checkedInt64_eq_error hage, error_bind]

instance : Std.Total NotLater := ⟨fun _ _ ↦ le_total _ _⟩

instance : IsTrans (ℕ × TimedTokenError) NotLater := ⟨fun _ _ _ h h' ↦ le_trans h h'⟩

theorem mem_beforeNow :
    entry ∈ beforeNow now errors ↔ entry ∈ errors.entries ∧ entry.2.time.toInt < now.toInt := by
  rw [beforeNow, List.mem_reverse]
  constructor
  · intro hmem
    have hbefore := List.mem_takeWhile_imp hmem
    exact ⟨(List.mem_insertionSort NotLater).1 ((List.takeWhile_prefix _).subset hmem),
      of_decide_eq_true hbefore⟩
  · rintro ⟨hmem, hbefore⟩
    apply mem_takeWhile_of_pairwise (List.pairwise_insertionSort NotLater errors.entries)
    · exact (List.mem_insertionSort NotLater).2 hmem
    · exact decide_eq_true hbefore
    · intro other _ hle
      exact decide_eq_true (hle.trans_lt hbefore)

theorem beforeNow_pairwise (now : Int64) (errors : TokenErrors) :
    (beforeNow now errors).Pairwise fun entry entry' ↦ NotLater entry' entry := by
  rw [beforeNow, List.pairwise_reverse]
  exact (List.pairwise_insertionSort NotLater errors.entries).sublist
    (List.takeWhile_prefix _).sublist

def times (errors : TokenErrors) : List Int64 := errors.entries.map fun entry ↦ entry.2.time

theorem mem_times : time ∈ errors.times ↔ ∃ entry ∈ errors.entries, entry.2.time = time :=
  List.mem_map

/-- The walk over errors of these times ends before it begins, or at an error that is recent. -/
def Stops (cleanupDay : UInt32) (now : Int64) (times : List Int64) : Prop :=
  (∀ time ∈ times, now.toInt ≤ time.toInt) ∨
    ∃ time ∈ times, time.toInt < now.toInt ∧ Recent cleanupDay now time

theorem stops_of_nil (hbefore : beforeNow now errors = []) : Stops cleanupDay now errors.times := by
  left
  intro time htime
  obtain ⟨entry, hentry, rfl⟩ := mem_times.1 htime
  apply le_of_not_gt
  intro hlt
  have hmem : entry ∈ beforeNow now errors := mem_beforeNow.2 ⟨hentry, hlt⟩
  rw [hbefore] at hmem
  cases hmem

/-- Only the youngest error before the present counts. -/
theorem stops_iff_of_cons (hbefore : beforeNow now errors = entry :: entries) :
    Stops cleanupDay now errors.times ↔ Recent cleanupDay now entry.2.time := by
  have hmem : entry ∈ beforeNow now errors := by
    rw [hbefore]
    exact List.mem_cons_self
  obtain ⟨hstored, hlt⟩ := mem_beforeNow.1 hmem
  have htime : entry.2.time ∈ errors.times := mem_times.2 ⟨entry, hstored, rfl⟩
  constructor
  · rintro (hnone | ⟨time, hother, hotherlt, hrecent⟩)
    · exact absurd (hnone entry.2.time htime) (not_le_of_gt hlt)
    · obtain ⟨other, hstored, rfl⟩ := mem_times.1 hother
      have hpairwise := beforeNow_pairwise now errors
      have hothermem : other ∈ beforeNow now errors := mem_beforeNow.2 ⟨hstored, hotherlt⟩
      rw [hbefore] at hpairwise hothermem
      rcases List.mem_cons.1 hothermem with rfl | hothermem
      · exact hrecent
      · exact hrecent.mono ((List.pairwise_cons.1 hpairwise).1 other hothermem)
  · intro hrecent
    exact Or.inr ⟨entry.2.time, htime, hlt, hrecent⟩

/-- Nothing is ever cleaned up: the walk ends at its first error or runs off the index. -/
theorem cleanUp_eq_ok (hday : cleanupDay ≠ 0) :
    errors.cleanUp cleanupDay now = .ok errors' ↔
      errors' = errors ∧ Stops cleanupDay now errors.times := by
  rw [cleanUp, if_neg hday]
  cases hbefore : beforeNow now errors with
  | nil =>
    have hstops : Stops cleanupDay now errors.times := stops_of_nil hbefore
    rw [and_iff_left hstops]
    exact pure_eq_ok.trans eq_comm
  | cons youngest older =>
    have hmem : youngest ∈ beforeNow now errors := by
      rw [hbefore]
      exact List.mem_cons_self
    rw [stops_iff_of_cons hbefore]
    by_cases hrecent : Recent cleanupDay now youngest.2.time
    · rw [and_iff_left hrecent]
      simp only [collectOld_of_recent hrecent (mem_beforeNow.1 hmem).2, ok_bind]
      exact pure_eq_ok.trans eq_comm
    · have hold : ∀ entry ∈ youngest :: older, ¬ Recent cleanupDay now entry.2.time := by
        have hpairwise := beforeNow_pairwise now errors
        rw [hbefore] at hpairwise
        intro entry hentry
        rcases List.mem_cons.1 hentry with rfl | hentry
        · exact hrecent
        · intro holder
          exact hrecent (holder.mono ((List.pairwise_cons.1 hpairwise).1 entry hentry))
      simp only [collectOld_of_not_recent hold, error_bind, error_ne_ok, hrecent, and_false]

end TokenErrors

/-! ## Sequence numbers -/

theorem lawfulOrderMax_uint64 : Std.LawfulOrderMax UInt64 := by
  apply Std.LawfulOrderMax.of_max_le_iff
  · intro a b c
    by_cases h : a ≤ b
    · rw [show max a b = b from if_pos h]
      exact (and_iff_right_of_imp (UInt64.le_trans h)).symm
    · rw [show max a b = a from if_neg h]
      have hba : b ≤ a := UInt64.le_of_lt (UInt64.not_le.1 h)
      exact (and_iff_left_of_imp (UInt64.le_trans hba)).symm
  · intro a b
    exact (ite_eq_or_eq (a ≤ b) b a).symm

/-- The number after the largest one does not fit its type when that is the last of it. -/
theorem nextSequence_iff (sequences : List UInt64) :
    (nextSequence sequences).toNat = nextNumber (sequences.map UInt64.toNat) ↔
      uint64Max ∉ sequences := by
  have hlawful := lawfulOrderMax_uint64
  cases hmax : sequences.max? with
  | none =>
    rw [nextSequence, hmax, List.max?_eq_none_iff.1 hmax]
    apply iff_of_true rfl
    exact List.not_mem_nil
  | some last =>
    obtain ⟨hlast, hle⟩ := List.max?_eq_some_iff.1 hmax
    have hnumber : nextNumber (sequences.map UInt64.toNat) = last.toNat + 1 := by
      apply nextNumber_eq
      · intro number hnumber
        obtain ⟨sequence, hsequence, rfl⟩ := List.mem_map.1 hnumber
        exact UInt64.le_iff_toNat_le.1 (hle sequence hsequence)
      · intro _
        exact List.mem_map_of_mem hlast
    have hbound := last.toNat_lt
    have hone : (1 : UInt64).toNat = 1 := rfl
    rw [nextSequence, hmax, hnumber, UInt64.toNat_add, hone]
    constructor
    · intro hnext hmem
      have hge := UInt64.le_iff_toNat_le.1 (hle uint64Max hmem)
      have huint64Max : uint64Max.toNat = 2 ^ 64 - 1 := rfl
      omega
    · intro hmem
      have hne : last.toNat ≠ 2 ^ 64 - 1 := by
        intro heq
        have hlast' : last = uint64Max := UInt64.toNat_inj.1 heq
        exact hmem (hlast' ▸ hlast)
      omega

namespace TokenErrors

/-! ## What the function is for -/

variable {cleanupDay : UInt32} {now created : Int64} {errors errors' : TokenErrors}
  {tokenSymbol : AssetSymbol} {error : String} {trxId : ℕ}

/-- An error is older than so many days. -/
def OlderThan (cleanupDay : UInt32) (now : Int64) (row : TimedTokenError) : Prop :=
  cleanupDay.toNat * (24 * hourNanoseconds) < now.toInt - row.time.toInt

instance {row : TimedTokenError} : Decidable (OlderThan cleanupDay now row) :=
  inferInstanceAs (Decidable (_ < _))

/-- The row is the new error of its token, under the number that comes next. -/
structure Announces (created : Int64) (error : String) (tokenSymbol : AssetSymbol)
    (errors : TokenErrors) (row : TimedTokenError) : Prop where
  tokenSymbol_eq : row.tokenSymbol = tokenSymbol
  error_eq : row.error = error
  time_eq : row.time = created
  tokenSequence_eq : row.tokenSequence.toNat =
    nextNumber ((errors.sequences tokenSymbol).map UInt64.toNat)

/-- The call returns; it has stored the new error, and of the others just those are left that are
not too old. -/
def SavesAndCleans (cleanupDay : UInt32) (created now : Int64) (trxId : ℕ) (error : String)
    (tokenSymbol : AssetSymbol) (errors : TokenErrors) : Prop :=
  ∃ errors' row,
    errors.saveTokenError cleanupDay created now trxId error tokenSymbol = .ok errors' ∧
      Announces created error tokenSymbol errors row ∧
      ∀ id row', errors'.find? id = some row' ↔
        (id = trxId ∧ row' = row) ∨
          (errors.find? id = some row' ∧ ¬ OlderThan cleanupDay now row')

/-- What `create` stores. -/
def newError (created : Int64) (error : String) (tokenSymbol : AssetSymbol)
    (errors : TokenErrors) : TimedTokenError :=
  { tokenSymbol, error
    tokenSequence := nextSequence (errors.sequences tokenSymbol)
    time := created }

theorem create_eq_ok :
    errors.create created trxId error tokenSymbol = .ok errors' ↔
      errors.emplace? trxId (newError created error tokenSymbol errors) = some errors' := by
  have hcreate : errors.create created trxId error tokenSymbol =
      match errors.emplace? trxId (newError created error tokenSymbol errors) with
      | some errors => .ok errors
      | none => .error .uniqueness := rfl
  rw [hcreate]
  cases errors.emplace? trxId (newError created error tokenSymbol errors) with
  | none => exact iff_of_false nofun nofun
  | some errors'' => rw [Except.ok.injEq, Option.some.injEq]

theorem announces_newError :
    Announces created error tokenSymbol errors (newError created error tokenSymbol errors) ↔
      uint64Max ∉ errors.sequences tokenSymbol := by
  rw [← nextSequence_iff]
  constructor
  · intro hannounces
    exact hannounces.tokenSequence_eq
  · intro hsequence
    exact ⟨rfl, rfl, rfl, hsequence⟩

/-- A call that returns has stored the new error and removed none. -/
theorem saveTokenError_eq_ok (hday : cleanupDay ≠ 0) :
    errors.saveTokenError cleanupDay created now trxId error tokenSymbol = .ok errors' ↔
      errors.emplace? trxId (newError created error tokenSymbol errors) = some errors' ∧
        Stops cleanupDay now errors'.times := by
  rw [saveTokenError, bind_eq_ok]
  constructor
  · rintro ⟨stored, hcreate, hclean⟩
    obtain ⟨rfl, hstops⟩ := (cleanUp_eq_ok hday).1 hclean
    exact ⟨create_eq_ok.1 hcreate, hstops⟩
  · rintro ⟨hemplace, hstops⟩
    exact ⟨errors', create_eq_ok.2 hemplace, (cleanUp_eq_ok hday).2 ⟨rfl, hstops⟩⟩

theorem times_emplace?
    (h : errors.emplace? trxId (newError created error tokenSymbol errors) = some errors') :
    errors'.times = errors.times ++ [created] := by
  rw [times, (Table.emplace?_eq_some h).2, List.map_append]
  rfl

/-- The function does what it is for just where there is nothing to clean up: the transaction has
no error yet, the numbers of the token are not used up, no stored error is too old, and the walk
ends at once. -/
theorem savesAndCleans_iff (hday : cleanupDay ≠ 0) :
    SavesAndCleans cleanupDay created now trxId error tokenSymbol errors ↔
      errors.find? trxId = none ∧
      uint64Max ∉ errors.sequences tokenSymbol ∧
      (∀ id row, errors.find? id = some row → ¬ OlderThan cleanupDay now row) ∧
      Stops cleanupDay now (errors.times ++ [created]) := by
  constructor
  · rintro ⟨errors', row, hsave, hrow, hfind⟩
    obtain ⟨hemplace, hstops⟩ := (saveTokenError_eq_ok hday).1 hsave
    have hfresh : errors.find? trxId = none := (Table.emplace?_eq_some hemplace).1
    have hnew : errors'.find? trxId = some (newError created error tokenSymbol errors) := by
      rw [Table.find?_emplace? hemplace, if_pos rfl]
    refine ⟨hfresh, ?_, ?_, ?_⟩
    · rcases (hfind _ _).1 hnew with ⟨-, rfl⟩ | ⟨hstored, -⟩
      · exact announces_newError.1 hrow
      · rw [hfresh] at hstored
        cases hstored
    · intro id other hother
      have hne : id ≠ trxId := by
        rintro rfl
        rw [hfresh] at hother
        cases hother
      have hkept : errors'.find? id = some other := by
        rw [Table.find?_emplace? hemplace, if_neg hne, hother]
      rcases (hfind id other).1 hkept with ⟨hid, -⟩ | ⟨-, hyoung⟩
      · exact absurd hid hne
      · exact hyoung
    · rw [times_emplace? hemplace] at hstops
      exact hstops
  · rintro ⟨hfresh, hsequences, hyoung, hstops⟩
    have hemplace := Table.emplace?_of_find?_eq_none hfresh
      (newError created error tokenSymbol errors)
    rw [← times_emplace? hemplace] at hstops
    refine ⟨_, newError created error tokenSymbol errors,
      (saveTokenError_eq_ok hday).2 ⟨hemplace, hstops⟩, announces_newError.2 hsequences, ?_⟩
    intro id row
    rw [Table.find?_emplace? hemplace]
    split
    · rename_i hid
      subst hid
      rw [hfresh, Option.some.injEq]
      simp [eq_comm]
    · rename_i hid
      constructor
      · intro hrow
        exact Or.inr ⟨hrow, hyoung id row hrow⟩
      · rintro (⟨rfl, -⟩ | ⟨hrow, -⟩)
        · exact absurd rfl hid
        · exact hrow

def noSuchToken (tokenSequence : UInt64) (time : Int64) : TimedTokenError :=
  { tokenSymbol := noneSymbol, error := "No such a token!", tokenSequence, time }

/-- Two errors of twenty and of nineteen days. -/
def recentErrors : TokenErrors :=
  ⟨[(3, noSuchToken 1 0), (5, noSuchToken 2 86400000000000)], by decide⟩

/-- Both are kept when a third one comes in. -/
theorem savesAndCleans_recent :
    SavesAndCleans 30 1728000000000000 1728000000000001 7 "Insufficient balance" noneSymbol
      recentErrors := by
  apply (savesAndCleans_iff (by decide)).2
  have hyoung : recentErrors.Forall fun _ row ↦ ¬ OlderThan 30 1728000000000001 row := by decide
  refine ⟨by decide, by decide, hyoung, .inr ⟨0, by decide, by decide, ?_⟩⟩
  exact ⟨by decide, by decide⟩

/-- An error of forty days, after which another one comes in. -/
def fortyDays : TokenErrors := ⟨[(3, noSuchToken 1 0)], List.nodup_singleton _⟩

/-- It is not removed after thirty. -/
theorem not_savesAndCleans_fortyDays :
    ¬ SavesAndCleans 30 3456000000000000 3456000000000001 7 "Insufficient balance" noneSymbol
      fortyDays := by
  rintro ⟨errors', row, hsave, -, hfind⟩
  obtain ⟨hemplace, -⟩ := (saveTokenError_eq_ok (by decide)).1 hsave
  have hkept : errors'.find? 3 = fortyDays.find? 3 := by
    rw [Table.find?_emplace? hemplace]
    exact if_neg (by decide)
  rcases (hfind 3 _).1 hkept with ⟨hid, -⟩ | ⟨-, hyoung⟩
  · exact absurd hid (by decide)
  · apply hyoung
    decide

/-! ## Errors without their times -/

/-- The errors as the rest of the plugin sees them. -/
def untimed (errors : TokenErrors) : Table ℕ CustomTokenError where
  entries := errors.entries.map fun entry ↦ (entry.1, entry.2.toCustomTokenError)
  nodup := by
    rw [List.map_map]
    exact errors.nodup

theorem sequences_untimed :
    (errors.untimed.entries.filter fun entry ↦ entry.2.tokenSymbol = tokenSymbol).map
        (fun entry ↦ entry.2.tokenSequence) = errors.sequences tokenSymbol := by
  rw [untimed, List.filter_map, List.map_map]
  rfl

theorem untimed_emplace? {row : TimedTokenError} (h : errors.emplace? trxId row = some errors') :
    errors.untimed.emplace? trxId row.toCustomTokenError = some errors'.untimed := by
  have hfresh : trxId ∉ errors.entries.map Prod.fst :=
    (Table.find?_eq_none_iff errors trxId).1 (Table.emplace?_eq_some h).1
  have hkeys : errors.untimed.entries.map Prod.fst = errors.entries.map Prod.fst := List.map_map
  have hfresh' : trxId ∉ errors.untimed.entries.map Prod.fst := by
    rw [hkeys]
    exact hfresh
  rw [Table.emplace?, dif_neg hfresh] at h
  obtain rfl := Option.some.inj h
  rw [Table.emplace?, dif_neg hfresh', Option.some.injEq]
  unfold untimed
  rw [Table.mk.injEq, List.map_append]
  rfl

/-- A call that returns does to the store what the handlers of the plugin take it to do: without the
times, it is the call without a clean-up. -/
theorem ends_saveTokenError_untimed {s : TokenTables} (hday : cleanupDay ≠ 0)
    (h : errors.saveTokenError cleanupDay created now trxId error tokenSymbol = .ok errors') :
    Ends (Plugins.saveTokenError trxId error tokenSymbol) { s with errors := errors.untimed }
      (fun _ s' ↦ s' = { s with errors := errors'.untimed }) fun _ _ ↦ False := by
  have hemplace : errors.untimed.emplace? trxId
      ⟨tokenSymbol, error, nextSequence (errors.sequences tokenSymbol)⟩ = some errors'.untimed :=
    untimed_emplace? ((saveTokenError_eq_ok hday).1 h).1
  rw [← sequences_untimed] at hemplace
  simp only [Plugins.saveTokenError, ends_bind, ends_get, hemplace, ends_set]

end TokenErrors

end SophiaTX.Plugins
