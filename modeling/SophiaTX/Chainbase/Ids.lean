import Mathlib.Order.Interval.Finset.Nat
import SophiaTX.Chainbase.Undo

/-!
# Contiguous ids

An index from which nothing is removed has the objects with the ids below its next one. A creation
that fails takes no id, and the undo of a session gives back the ids that it took.
-/

namespace SophiaTX.Chainbase.GenericIndex

open SophiaTX.Lib

variable {V κ : Type} {keys : V → List κ}

/-- What the sessions of an index have recorded when nothing was removed: each created the ids from
its first one up to that of the session inside it. -/
def Layered (next : ℕ) : List (UndoState V) → Prop
  | [] => True
  | u :: rest => u.oldNextId ≤ next ∧ u.newIds = Finset.Ico u.oldNextId next ∧
      u.removedValues = Table.empty ∧ Layered u.oldNextId rest

/-- The ids of the objects are those below the next id, now and after every undo. -/
structure Contiguous (t : GenericIndex keys) : Prop where
  ids : ∀ id, (t.indices.find? id).isSome ↔ id < t.nextId
  sessions : Layered t.nextId t.stack

/-- The next id is the number of objects. -/
theorem Contiguous.size_eq {t : GenericIndex keys} (h : Contiguous t) :
    t.indices.rows.size = t.nextId := by
  have hkeys : t.indices.rows.keys.toFinset = Finset.range t.nextId := by
    ext id
    rw [List.mem_toFinset, Finset.mem_range, Table.mem_keys_iff, ← h.ids]
    exact Option.isSome_iff_exists.symm
  have hcard := List.toFinset_card_of_nodup t.indices.rows.nodup
  calc t.indices.rows.size = t.indices.rows.keys.length := (List.length_map _).symm
    _ = t.indices.rows.keys.toFinset.card := hcard.symm
    _ = t.nextId := by rw [hkeys, Finset.card_range]

variable {t t' : GenericIndex keys} {u : UndoState V} {rest : List (UndoState V)}

theorem onModify_newIds (u : UndoState V) (id : ℕ) (v : V) :
    (u.onModify id v).newIds = u.newIds ∧ (u.onModify id v).removedValues = u.removedValues := by
  unfold UndoState.onModify
  split_ifs <;> exact ⟨rfl, rfl⟩

theorem Contiguous.startUndoSession (h : Contiguous t) : Contiguous t.startUndoSession where
  ids := h.ids
  sessions := ⟨le_rfl, Finset.Ico_self _ |>.symm, rfl, h.sessions⟩

/-- Without the oldest sessions, the others are layered as before. -/
theorem Layered.of_append {next : ℕ} {stack dropped : List (UndoState V)}
    (h : Layered next (stack ++ dropped)) : Layered next stack := by
  induction stack generalizing next with
  | nil => trivial
  | cons u rest ih =>
    obtain ⟨hle, hnew, hremoved, hrest⟩ := h
    exact ⟨hle, hnew, hremoved, ih hrest⟩

theorem Contiguous.commit (h : Contiguous t) (revision : ℤ) : Contiguous (t.commit revision) where
  ids := h.ids
  sessions := by
    obtain ⟨dropped, hdropped⟩ :=
      List.rdropWhile_prefix (fun u : UndoState V ↦ decide (u.revision ≤ revision)) t.stack
    exact Layered.of_append (hdropped.symm ▸ h.sessions)

theorem Contiguous.squash (h : Contiguous t) : Contiguous t.squash := by
  unfold GenericIndex.squash
  split
  · exact h
  · exact ⟨h.ids, trivial⟩
  · rename_i state prev rest hstack
    have hsessions := h.sessions
    rw [hstack] at hsessions
    obtain ⟨hstate, hnew, hremoved, hprev, hnewPrev, hremovedPrev, hrest⟩ := hsessions
    have hold : ∀ (items : List (ℕ × V)) (u : UndoState V),
        (items.foldl UndoState.mergeOld u).newIds = u.newIds ∧
          (items.foldl UndoState.mergeOld u).removedValues = u.removedValues ∧
          (items.foldl UndoState.mergeOld u).oldNextId = u.oldNextId := by
      intro items
      induction items with
      | nil => exact fun _ ↦ ⟨rfl, rfl, rfl⟩
      | cons item items ih =>
        intro u
        obtain ⟨hids, hvalues, hfirst⟩ := ih (u.mergeOld item)
        obtain ⟨hids', hvalues'⟩ := onModify_newIds u item.1 item.2
        exact ⟨hids.trans hids', hvalues.trans hvalues',
          hfirst.trans (UndoState.onModify_oldNextId u item.1 item.2)⟩
    obtain ⟨hids, hvalues, hfirst⟩ := hold state.oldValues.sorted prev
    have hmerge : state.merge prev =
        { state.oldValues.sorted.foldl UndoState.mergeOld prev with
          newIds := prev.newIds ∪ state.newIds } := by
      rw [UndoState.merge, hremoved, hids]
      rfl
    refine ⟨h.ids, ?_⟩
    rw [hmerge]
    refine ⟨hfirst.le.trans (hprev.trans hstate), ?_, hvalues.trans hremovedPrev, ?_⟩
    · change prev.newIds ∪ state.newIds = _
      rw [hfirst, hnew, hnewPrev, Finset.Ico_union_Ico_eq_Ico hprev hstate]
    · rw [hfirst]
      exact hrest

variable [DecidableEq κ]

/-- A creation takes the next id, or none where it fails. -/
theorem Contiguous.emplace (h : Contiguous t) (c : ℕ → V) : Contiguous (t.emplace c).1 := by
  unfold GenericIndex.emplace
  split
  · exact h
  · rename_i indices hindices
    obtain ⟨_, _, hfind⟩ := MultiIndex.emplace?_eq_some hindices
    have hids : ∀ id, (indices.find? id).isSome ↔ id < t.nextId + 1 := by
      intro id
      rw [hfind, Nat.lt_succ_iff_lt_or_eq, ← h.ids]
      split_ifs with hid <;> simp [hid]
    unfold GenericIndex.record
    dsimp only
    cases hstack : t.stack with
    | nil => exact ⟨hids, trivial⟩
    | cons u rest =>
      have hsessions := h.sessions
      rw [hstack] at hsessions
      obtain ⟨hle, hnew, hremoved, hrest⟩ := hsessions
      refine ⟨hids, hle.trans (Nat.le_succ _), ?_, hremoved, hrest⟩
      calc insert t.nextId u.newIds = insert t.nextId (Finset.Ico u.oldNextId t.nextId) := by
            rw [hnew]
        _ = Finset.Ico u.oldNextId (t.nextId + 1) := by
          ext id
          rw [Finset.mem_insert, Finset.mem_Ico, Finset.mem_Ico]
          omega

/-- A modification that goes through keeps the object. -/
theorem Contiguous.modify (h : Contiguous t) {id : ℕ} {m : V → V}
    (hsucceeds : t.ModifySucceeds (.modify id m)) : Contiguous (t.call (.modify id m)).1 := by
  unfold GenericIndex.call
  dsimp only
  split
  · exact h
  · rename_i v hv
    obtain ⟨_, hfind⟩ := MultiIndex.modify_of_free (hsucceeds v hv)
    have hids : ∀ id', ((t.indices.modify id (m v)).1.find? id').isSome ↔ id' < t.nextId := by
      intro id'
      rw [hfind, ← h.ids]
      split_ifs with hid
      · simp [hid, hv]
      · rfl
    unfold GenericIndex.modify GenericIndex.record
    cases hstack : t.stack with
    | nil => exact ⟨hids, by simpa only [hstack] using h.sessions⟩
    | cons u rest =>
      have hsessions := h.sessions
      rw [hstack] at hsessions
      obtain ⟨hle, hnew, hremoved, hrest⟩ := hsessions
      obtain ⟨hnew', hremoved'⟩ := onModify_newIds u id v
      have hold := UndoState.onModify_oldNextId u id v
      refine ⟨hids, ?_⟩
      change Layered t.nextId (u.onModify id v :: rest)
      refine ⟨hold.le.trans hle, ?_, hremoved'.trans hremoved, ?_⟩
      · rw [hnew', hold, hnew]
      · rw [hold]
        exact hrest

/-- Undo gives back the ids of the session. -/
theorem Contiguous.undo (h : Contiguous t) (hundo : t.undo = .ok t') : Contiguous t' := by
  unfold GenericIndex.undo at hundo
  split at hundo
  · cases hundo
    exact h
  · rename_i u rest hstack
    have hsessions := h.sessions
    rw [hstack] at hsessions
    obtain ⟨hle, hnew, hremoved, hrest⟩ := hsessions
    simp only [bind_eq_ok] at hundo
    obtain ⟨m₁, hrestored, m₂, herased, m₃, hreinserted, hundo⟩ := hundo
    rw [hremoved] at hreinserted
    cases hreinserted
    cases hundo
    obtain ⟨hold, hothers⟩ := find?_of_restores u.oldValues.sorted_pairwise hrestored
    have hpresent : ∀ id, (m₁.find? id).isSome ↔ id < t.nextId := by
      intro id
      rw [← h.ids]
      by_cases hitem : ∃ item ∈ u.oldValues.sorted, item.1 = id
      · obtain ⟨item, hitem, rfl⟩ := hitem
        obtain ⟨hsome, hvalue⟩ := hold item hitem
        simp [hvalue, hsome]
      · push Not at hitem
        rw [hothers id hitem]
    refine ⟨fun id ↦ ?_, hrest⟩
    rw [find?_of_erases herased]
    simp only [Finset.mem_sort, hnew, Finset.mem_Ico]
    split_ifs with hcreated
    · simp only [Option.isSome_none, Bool.false_eq_true, false_iff]
      omega
    · rw [hpresent]
      omega

/-- What happens to an index from which nothing is removed. Exceptions of a creation are caught by
the caller. -/
inductive Grown : GenericIndex keys → Prop
  | empty : Grown (empty keys)
  | emplace {t : GenericIndex keys} (c : ℕ → V) (h : Grown t) : Grown (t.call (.emplace c)).1
  | modify {t : GenericIndex keys} (id : ℕ) (m : V → V) (h : Grown t)
      (hsucceeds : t.ModifySucceeds (.modify id m)) : Grown (t.call (.modify id m)).1
  | startUndoSession {t : GenericIndex keys} (h : Grown t) : Grown t.startUndoSession
  | squash {t : GenericIndex keys} (h : Grown t) : Grown t.squash
  | commit {t : GenericIndex keys} (revision : ℤ) (h : Grown t) : Grown (t.commit revision)
  | undo {t t' : GenericIndex keys} (h : Grown t) (hundo : t.undo = .ok t') : Grown t'

/-- Ids are contiguous from zero, and the next one is the number of objects. -/
theorem Grown.contiguous (h : Grown t) :
    (∀ id, (t.indices.find? id).isSome ↔ id < t.nextId) ∧ t.indices.rows.size = t.nextId := by
  have hcontiguous : Contiguous t := by
    induction h with
    | empty => exact ⟨fun id ↦ iff_of_false Bool.false_ne_true (Nat.not_lt_zero id), trivial⟩
    | emplace c _ ih => exact ih.emplace c
    | modify id m _ hsucceeds ih => exact ih.modify hsucceeds
    | startUndoSession _ ih => exact ih.startUndoSession
    | squash _ ih => exact ih.squash
    | commit revision _ ih => exact ih.commit revision
    | undo _ hundo ih => exact ih.undo hundo
  exact ⟨hcontiguous.ids, hcontiguous.size_eq⟩

end SophiaTX.Chainbase.GenericIndex
