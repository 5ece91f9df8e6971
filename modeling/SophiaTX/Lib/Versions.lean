import Mathlib.Data.Int.Order.Basic
import Mathlib.Data.List.Basic

/-!
# Versions and logs of changes

`Versions` keeps whole copies of a value to go back to. A log keeps one record a version instead,
each of which says how its version became the next one. `Tracks` relates the two, and its rules
say what has to hold of the records for each operation.
-/

namespace SophiaTX.Lib

universe u v

/-- A value with its saved versions, the newest first, and the number of the newest. -/
@[ext]
structure Versions (σ : Type u) where
  current : σ
  saved : List σ
  revision : ℤ

namespace Versions

variable {σ : Type u} {τ : Type v}

def change (v : Versions σ) (f : σ → σ) : Versions σ := { v with current := f v.current }

def save (v : Versions σ) : Versions σ where
  current := v.current
  saved := v.current :: v.saved
  revision := v.revision + 1

/-- Back to the newest saved version. -/
def undo (v : Versions σ) : Versions σ :=
  match v.saved with
  | [] => v
  | version :: rest => ⟨version, rest, v.revision - 1⟩

/-- The newest saved version is forgotten. If it was the only one, its number stays in use. -/
def squash (v : Versions σ) : Versions σ :=
  match v.saved with
  | [] => v
  | [_] => { v with saved := [] }
  | _ :: rest => { v with saved := rest, revision := v.revision - 1 }

/-- Versions up to a number are forgotten. -/
def commit (v : Versions σ) (revision : ℤ) : Versions σ :=
  { v with saved := v.saved.take (v.revision - revision).toNat }

/-- Back to the oldest saved version. -/
def undoAll (v : Versions σ) : Versions σ :=
  match v.saved.getLast? with
  | none => v
  | some version => ⟨version, [], v.revision - v.saved.length⟩

/-- The versions of a part. -/
def map (f : σ → τ) (v : Versions σ) : Versions τ := ⟨f v.current, v.saved.map f, v.revision⟩

variable (f : σ → τ) (v : Versions σ)

@[simp]
theorem map_save : v.save.map f = (v.map f).save := rfl

@[simp]
theorem map_undo : v.undo.map f = (v.map f).undo := by
  obtain ⟨current, saved, revision⟩ := v
  cases saved <;> rfl

@[simp]
theorem map_squash : v.squash.map f = (v.map f).squash := by
  obtain ⟨current, saved, revision⟩ := v
  match saved with
  | [] => rfl
  | [_] => rfl
  | _ :: _ :: _ => rfl

@[simp]
theorem map_commit (revision : ℤ) : (v.commit revision).map f = (v.map f).commit revision := by
  simp [commit, map, List.map_take]

@[simp]
theorem map_undoAll : v.undoAll.map f = (v.map f).undoAll := by
  unfold undoAll map
  rw [List.getLast?_map]
  cases v.saved.getLast? <;> simp

/-- Going back all the way is going back once and then all the way. -/
theorem undoAll_undo : v.undo.undoAll = v.undoAll := by
  obtain ⟨current, saved, revision⟩ := v
  match saved with
  | [] => rfl
  | [_] => simp [undo, undoAll]
  | version :: next :: rest =>
    obtain ⟨last, hlast⟩ : ∃ last, (next :: rest).getLast? = some last :=
      ⟨_, List.getLast?_eq_some_getLast (List.cons_ne_nil next rest)⟩
    have hlast' : (version :: next :: rest).getLast? = some last := by
      rwa [List.getLast?_cons_cons]
    unfold undo undoAll
    dsimp only
    rw [hlast, hlast']
    simp only [List.length_cons, Versions.mk.injEq, true_and]
    omega

end Versions

/-! ## Logs -/

variable {σ : Type u} {δ : Type v}

/-- A record for every saved version, that leads from it to the next newer one. -/
inductive Tracks (R : σ → δ → σ → Prop) : σ → List σ → List δ → Prop
  | nil (current : σ) : Tracks R current [] []
  | cons {before current : σ} {record : δ} {saved : List σ} {log : List δ}
      (hrecord : R before record current) (hrest : Tracks R before saved log) :
      Tracks R current (before :: saved) (record :: log)

namespace Tracks

variable {R : σ → δ → σ → Prop} {current current' : σ} {saved : List σ} {log : List δ}

theorem length_eq (h : Tracks R current saved log) : log.length = saved.length := by
  induction h with
  | nil _ => rfl
  | cons _ _ ih => rw [List.length_cons, List.length_cons, ih]

/-- What every record leads to, the current value aside. -/
theorem exists_before (h : Tracks R current saved log) {record : δ} {rest : List δ}
    (hlog : log = record :: rest) :
    ∃ before older, saved = before :: older ∧ R before record current ∧ Tracks R before older rest
    := by
  subst hlog
  cases h with
  | cons hrecord hrest => exact ⟨_, _, rfl, hrecord, hrest⟩

theorem eq_nil_iff (h : Tracks R current saved log) : log = [] ↔ saved = [] := by
  rw [← List.length_eq_zero_iff, h.length_eq, List.length_eq_zero_iff]

/-- The oldest versions can be forgotten. -/
theorem take (h : Tracks R current saved log) (n : ℕ) :
    Tracks R current (saved.take n) (log.take n) := by
  induction h generalizing n with
  | nil current => simpa using .nil current
  | cons hrecord _ ih =>
    cases n with
    | zero => exact .nil _
    | succ n => exact .cons hrecord (ih n)

end Tracks

end SophiaTX.Lib
