import Mathlib.Data.List.FinRange
import SophiaTX.Chainbase.Squash
import SophiaTX.Lib.Versions

/-!
# A database of indices

A `database` starts, merges, drops and undoes the sessions of all its indices together. Each index
keeps a record of changes for every session; what these records stand for are whole copies of the
contents, one for every session.
-/

namespace SophiaTX.Chainbase

open SophiaTX.Lib

/-! ## The contents of an index -/

/-- What an index holds, without the way back. -/
structure Contents (V : Type) where
  objects : ℕ → Option V
  nextId : ℕ

namespace Contents

variable {V κ : Type} (keys : V → List κ)

/-- A value clashes with an object under another id. -/
def Taken (x : Contents V) (id : ℕ) (v : V) : Prop :=
  ∃ other w, x.objects other = some w ∧ other ≠ id ∧ Clash keys v w

open Classical in
/-- What a call is for. A creation with a key that is taken changes nothing. -/
noncomputable def call (x : Contents V) : Call V → Contents V
  | .emplace c =>
    if x.Taken keys x.nextId (c x.nextId) then x
    else ⟨Function.update x.objects x.nextId (some (c x.nextId)), x.nextId + 1⟩
  | .modify id m => { x with objects := Function.update x.objects id ((x.objects id).map m) }
  | .remove id => { x with objects := Function.update x.objects id none }

/-- A modification does not lead to a key that is taken. -/
def Allows (x : Contents V) : Call V → Prop
  | .modify id m => ∀ v, x.objects id = some v → ¬ x.Taken keys id (m v)
  | _ => True

/-- No key that a surviving object had in a version is held by an object with a larger id. -/
def Restorable (x version : Contents V) : Prop :=
  ∀ id v other w, version.objects id = some v → (x.objects id).isSome → id < other →
    x.objects other = some w → ¬ Clash keys v w

/-- Ids are given out in order, and no two objects clash. -/
structure Sound (x : Contents V) : Prop where
  below : ∀ id v, x.objects id = some v → id < x.nextId
  unique : Unique keys x.objects

end Contents

/-! ## Requests -/

variable {n : ℕ} {V κ : Fin (n + 1) → Type} {keys : (i : Fin (n + 1)) → V i → List (κ i)}

/-- The indices of a database, in the order of its list of indices. -/
abbrev Database (keys : (i : Fin (n + 1)) → V i → List (κ i)) :=
  (i : Fin (n + 1)) → GenericIndex (keys i)

inductive Request (V : Fin (n + 1) → Type) where
  | startUndoSession
  | call (i : Fin (n + 1)) (c : Call (V i))
  | squash
  | undo
  | commit (revision : ℤ)
  | undoAll
  | setRevision (revision : ℤ)

/-- Ways in which a request throws. A modification that throws has lost its object. -/
inductive DatabaseError where
  | undo (e : IndexError)
  | modification
  | openSessions
  deriving DecidableEq, Repr

namespace Database

/-- `revision`, that of the first index. -/
def revision (db : Database keys) : ℤ := (db 0).revision

/-- The loop over the list of indices. -/
def forEach (f : (i : Fin (n + 1)) → GenericIndex (keys i) →
      Except DatabaseError (GenericIndex (keys i)))
    (db : Database keys) : Except DatabaseError (Database keys) :=
  (List.finRange (n + 1)).foldlM (fun db i ↦ do
    let index ← f i (db i)
    pure (Function.update db i index)) db

variable [(i : Fin (n + 1)) → DecidableEq (κ i)]

def run (db : Database keys) : Request V → Except DatabaseError (Database keys)
  | .startUndoSession => .ok fun i ↦ (db i).startUndoSession
  | .call i c =>
    match c, (db i).call c with
    | .modify _ _, (_, false) => .error .modification
    -- A creation that throws leaves its index as it was, and the run goes on.
    | _, (index, _) => .ok (Function.update db i index)
  | .squash => .ok fun i ↦ (db i).squash
  | .undo => db.forEach fun _ index ↦ index.undo.mapError .undo
  | .commit revision => .ok fun i ↦ (db i).commit revision
  | .undoAll => db.forEach fun _ index ↦ index.undoAll.mapError .undo
  | .setRevision revision => db.forEach fun _ index ↦
    (index.setRevision revision).elim (.error .openSessions) .ok

def runAll (db : Database keys) (requests : List (Request V)) :
    Except DatabaseError (Database keys) :=
  requests.foldlM run db

/-- A database without objects, as it is made in a new file. -/
def empty (keys : (i : Fin (n + 1)) → V i → List (κ i)) : Database keys :=
  fun i ↦ GenericIndex.empty (keys i)

end Database

/-! ## What requests are for -/

/-- A request on whole copies. -/
noncomputable def Request.onCopies (keys : (i : Fin (n + 1)) → V i → List (κ i))
    (v : Versions ((i : Fin (n + 1)) → Contents (V i))) :
    Request V → Versions ((i : Fin (n + 1)) → Contents (V i))
  | .startUndoSession => v.save
  | .call i c => v.change fun x ↦ Function.update x i ((x i).call (keys i) c)
  | .squash => v.squash
  | .undo => v.undo
  | .commit revision => v.commit revision
  | .undoAll => v.undoAll
  | .setRevision revision => { v with revision := revision }

noncomputable def Request.allOnCopies (keys : (i : Fin (n + 1)) → V i → List (κ i))
    (v : Versions ((i : Fin (n + 1)) → Contents (V i))) (requests : List (Request V)) :
    Versions ((i : Fin (n + 1)) → Contents (V i)) :=
  requests.foldl (Request.onCopies keys) v

/-- What copies would do and records cannot: a modification to a key that is taken, a way back that
gives an object a key of an object with a larger id, and another revision while sessions are
open. -/
def Request.Allowed (keys : (i : Fin (n + 1)) → V i → List (κ i))
    (v : Versions ((i : Fin (n + 1)) → Contents (V i))) : Request V → Prop
  | .call i c => (v.current i).Allows (keys i) c
  | .undo => ∀ version ∈ v.saved.head?, ∀ i, (v.current i).Restorable (keys i) (version i)
  | .undoAll => (v.current :: v.saved).IsChain fun x version ↦
      ∀ i, (x i).Restorable (keys i) (version i)
  | .setRevision _ => v.saved = []
  | _ => True

/-- Each request is allowed on the copies that those before it lead to. -/
def Request.AllAllowed (keys : (i : Fin (n + 1)) → V i → List (κ i)) :
    Versions ((i : Fin (n + 1)) → Contents (V i)) → List (Request V) → Prop
  | _, [] => True
  | v, r :: rest => r.Allowed keys v ∧ AllAllowed keys (r.onCopies keys v) rest

end SophiaTX.Chainbase
