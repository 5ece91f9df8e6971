import Mathlib.Data.Finset.Sort
import Mathlib.Data.List.DropRight
import SophiaTX.Lib.MultiIndex

/-!
# Indices with undo

A `generic_index` keeps a stack of undo states. Each one records, for the session it belongs to,
the values that were changed or removed and the ids that were created, and `undo` plays them back.
-/

namespace SophiaTX.Chainbase

open SophiaTX.Lib

/-- What a session has changed. -/
structure UndoState (V : Type) where
  oldValues : Table ℕ V
  removedValues : Table ℕ V
  newIds : Finset ℕ
  oldNextId : ℕ
  revision : ℤ

/-- How `undo` can fail: at an iterator past the end, which is undefined behaviour, or at a
uniqueness constraint, where it throws. -/
inductive IndexError where
  | pastTheEnd
  | uniqueness
  deriving DecidableEq, Repr

/-- The undo states are listed from the innermost session outwards. -/
structure GenericIndex {V κ : Type} (keys : V → List κ) where
  indices : MultiIndex keys
  nextId : ℕ
  stack : List (UndoState V)
  revision : ℤ

namespace UndoState

variable {V : Type}

def onModify (head : UndoState V) (id : ℕ) (v : V) : UndoState V :=
  if id ∈ head.newIds then head
  else if (head.oldValues.find? id).isSome then head
  else { head with oldValues := head.oldValues.emplace id v }

def onRemove (head : UndoState V) (id : ℕ) (v : V) : UndoState V :=
  if id ∈ head.newIds then { head with newIds := head.newIds.erase id }
  else match head.oldValues.find? id with
    | some old => { head with
        removedValues := head.removedValues.emplace id old
        oldValues := head.oldValues.erase id }
    | none =>
      if (head.removedValues.find? id).isSome then head
      else { head with removedValues := head.removedValues.emplace id v }

def onCreate (head : UndoState V) (id : ℕ) : UndoState V :=
  { head with newIds := insert id head.newIds }

/-! ## Merging two sessions -/

/-- A value changed in the inner session. -/
def mergeOld (prev : UndoState V) (item : ℕ × V) : UndoState V :=
  if item.1 ∈ prev.newIds then prev
  else if (prev.oldValues.find? item.1).isSome then prev
  else { prev with oldValues := prev.oldValues.emplace item.1 item.2 }

/-- A value removed in the inner session. -/
def mergeRemoved (prev : UndoState V) (obj : ℕ × V) : UndoState V :=
  if obj.1 ∈ prev.newIds then { prev with newIds := prev.newIds.erase obj.1 }
  else match prev.oldValues.find? obj.1 with
    | some old => { prev with
        removedValues := prev.removedValues.emplace obj.1 old
        oldValues := prev.oldValues.erase obj.1 }
    | none => { prev with removedValues := prev.removedValues.emplace obj.1 obj.2 }

/-- The loops of `squash`. -/
def merge (state prev : UndoState V) : UndoState V :=
  let prev := state.oldValues.sorted.foldl mergeOld prev
  let prev := { prev with newIds := prev.newIds ∪ state.newIds }
  state.removedValues.sorted.foldl mergeRemoved prev

end UndoState

namespace GenericIndex

variable {V κ : Type} {keys : V → List κ}

/-- Record a change in the undo state of the current session, if there is one. -/
def record (s : GenericIndex keys) (f : UndoState V → UndoState V) : GenericIndex keys :=
  match s.stack with
  | [] => s
  | head :: rest => { s with stack := f head :: rest }

def startUndoSession (s : GenericIndex keys) : GenericIndex keys :=
  { s with
    stack := ⟨Table.empty, Table.empty, ∅, s.nextId, s.revision + 1⟩ :: s.stack
    revision := s.revision + 1 }

def squash (s : GenericIndex keys) : GenericIndex keys :=
  match s.stack with
  | [] => s
  | [_] => { s with stack := [] }
  | state :: prev :: rest =>
    { s with stack := state.merge prev :: rest, revision := s.revision - 1 }

/-- Sessions up to a revision can no longer be undone. -/
def commit (s : GenericIndex keys) (revision : ℤ) : GenericIndex keys :=
  { s with stack := s.stack.rdropWhile fun u ↦ decide (u.revision ≤ revision) }

/-- The revision can be set when there are no sessions; otherwise the call throws. -/
def setRevision (s : GenericIndex keys) (revision : ℤ) : Option (GenericIndex keys) :=
  if s.stack.isEmpty then some { s with revision := revision } else none

def remove (s : GenericIndex keys) (id : ℕ) (v : V) : GenericIndex keys :=
  let s := s.record fun head ↦ head.onRemove id v
  { s with indices := s.indices.erase id }

variable [DecidableEq κ]

/-- Creation of an object, with whether the call returned. The value may depend on the new id. -/
def emplace (s : GenericIndex keys) (c : ℕ → V) : GenericIndex keys × Bool :=
  match s.indices.emplace? s.nextId (c s.nextId) with
  | none => (s, false)
  | some indices =>
    ({ s with indices := indices, nextId := s.nextId + 1 }.record fun head ↦
      head.onCreate s.nextId, true)

/-- Modification of an object, with whether the call returned. -/
def modify (s : GenericIndex keys) (id : ℕ) (v : V) (m : V → V) : GenericIndex keys × Bool :=
  let s := s.record fun head ↦ head.onModify id v
  let result := s.indices.modify id (m v)
  ({ s with indices := result.1 }, result.2)

/-! ## Undo -/

/-- Put back a value that was changed. -/
def restore (indices : MultiIndex keys) (item : ℕ × V) : Except IndexError (MultiIndex keys) :=
  if (indices.find? item.1).isNone then .error .pastTheEnd
  else
    let result := indices.modify item.1 item.2
    if result.2 then .ok result.1 else .error .uniqueness

omit [DecidableEq κ] in
/-- Erase an object that was created. -/
def eraseNew (indices : MultiIndex keys) (id : ℕ) : Except IndexError (MultiIndex keys) :=
  if (indices.find? id).isNone then .error .pastTheEnd else .ok (indices.erase id)

/-- Put back an object that was removed. -/
def reinsert (indices : MultiIndex keys) (item : ℕ × V) : Except IndexError (MultiIndex keys) :=
  match indices.emplace? item.1 item.2 with
  | none => .error .uniqueness
  | some indices => .ok indices

def undo (s : GenericIndex keys) : Except IndexError (GenericIndex keys) :=
  match s.stack with
  | [] => .ok s
  | head :: rest => do
    let indices ← head.oldValues.sorted.foldlM restore s.indices
    let indices ← (head.newIds.sort (· ≤ ·)).foldlM eraseNew indices
    let indices ← head.removedValues.sorted.foldlM reinsert indices
    .ok ⟨indices, head.oldNextId, rest, s.revision - 1⟩

/-- The loop of `undo_all`, for a number of turns at most. -/
def undoTurns : ℕ → GenericIndex keys → Except IndexError (GenericIndex keys)
  | 0, s => .ok s
  | turns + 1, s => if s.stack.isEmpty then .ok s else s.undo >>= undoTurns turns

/-- An undo takes away one session. -/
def undoAll (s : GenericIndex keys) : Except IndexError (GenericIndex keys) :=
  s.undoTurns s.stack.length

/-! ## Calls -/

end GenericIndex

/-- Calls that change an index. Objects are named by their id. -/
inductive Call (V : Type) where
  | emplace (c : ℕ → V)
  | modify (id : ℕ) (m : V → V)
  | remove (id : ℕ)

namespace GenericIndex

variable {V κ : Type} {keys : V → List κ} [DecidableEq κ]

/-- The index after a call, with whether it returned. Only objects of the index can be modified or
removed: for other ids there is no call to make. -/
def call (s : GenericIndex keys) : Call V → GenericIndex keys × Bool
  | .emplace c => s.emplace c
  | .modify id m =>
    match s.indices.find? id with
    | none => (s, true)
    | some v => s.modify id v m
  | .remove id =>
    match s.indices.find? id with
    | none => (s, true)
    | some v => (s.remove id v, true)

/-- Calls one after another; exceptions are caught by the caller. -/
def calls (s : GenericIndex keys) (cs : List (Call V)) : GenericIndex keys :=
  cs.foldl (fun s c ↦ (s.call c).1) s

end GenericIndex

end SophiaTX.Chainbase
