import SophiaTX.Chainbase.Undo

/-!
# Nested sessions

`squash` merges what the inner session recorded into the outer one, as if the outer session had
made the changes itself. Where ids are the only unique keys, sessions may be nested, squashed and
undone in any way, and the undo of the outermost one leads back to where it started.
-/

namespace SophiaTX.Chainbase

open SophiaTX.Lib

variable {V : Type}

/-! ## Merging -/

theorem UndoState.mergeOld_eq (prev : UndoState V) (item : ℕ × V) :
    prev.mergeOld item = prev.onModify item.1 item.2 := rfl

/-- The outer session has removed no object that the inner one removes. -/
theorem UndoState.mergeRemoved_eq (prev : UndoState V) (obj : ℕ × V)
    (h : prev.removedValues.find? obj.1 = none) :
    prev.mergeRemoved obj = prev.onRemove obj.1 obj.2 := by
  rw [mergeRemoved, onRemove, h]
  rfl

theorem UndoState.foldl_mergeOld_oldNextId (prev : UndoState V) (items : List (ℕ × V)) :
    (items.foldl mergeOld prev).oldNextId = prev.oldNextId := by
  induction items generalizing prev with
  | nil => rfl
  | cons item rest ih => rw [List.foldl_cons, ih, mergeOld_eq, onModify_oldNextId]

theorem UndoState.mergeRemoved_oldNextId (prev : UndoState V) (obj : ℕ × V) :
    (prev.mergeRemoved obj).oldNextId = prev.oldNextId := by
  unfold mergeRemoved
  split_ifs
  · rfl
  · cases prev.oldValues.find? obj.1 <;> rfl

theorem UndoState.merge_oldNextId (state prev : UndoState V) :
    (state.merge prev).oldNextId = prev.oldNextId := by
  have hremoved : ∀ (items : List (ℕ × V)) (prev : UndoState V),
      (items.foldl mergeRemoved prev).oldNextId = prev.oldNextId := by
    intro items
    induction items with
    | nil => exact fun _ ↦ rfl
    | cons item rest ih => exact fun prev ↦ (ih _).trans (prev.mergeRemoved_oldNextId item)
  exact (hremoved _ _).trans (prev.foldl_mergeOld_oldNextId _)

namespace Recorded

variable {before after after' : ℕ → Option V} {u : UndoState V}

/-- Changes of distinct objects, recorded one after another. -/
theorem foldl {step : UndoState V → ℕ × V → UndoState V} {items : List (ℕ × V)}
    (hstep : ∀ item ∈ items, ∀ u after, Recorded before u after → after item.1 = some item.2 →
      Recorded before (step u item) fun id ↦ if id = item.1 then after' item.1 else after id)
    (hsorted : items.Pairwise fun item item' ↦ item.1 < item'.1) (h : Recorded before u after)
    (hitems : ∀ item ∈ items, after item.1 = some item.2)
    (hothers : ∀ id, (∀ item ∈ items, item.1 ≠ id) → after' id = after id) :
    Recorded before (items.foldl step u) after' := by
  induction items generalizing u after with
  | nil => rwa [funext fun id ↦ hothers id fun _ hitem ↦ absurd hitem List.not_mem_nil]
  | cons first rest ih =>
    obtain ⟨hless, hrest⟩ := List.pairwise_cons.1 hsorted
    have hfirst := hstep first List.mem_cons_self u after h (hitems first List.mem_cons_self)
    refine ih (fun item hitem ↦ hstep item (List.mem_cons_of_mem _ hitem)) hrest hfirst
      (fun item hitem ↦ ?_) fun id hid ↦ ?_
    · rw [if_neg (hless item hitem).ne']
      exact hitems item (List.mem_cons_of_mem _ hitem)
    · split_ifs with heq
      · rw [heq]
      · refine hothers id fun item hitem ↦ ?_
        rcases List.mem_cons.1 hitem with rfl | hitem
        · exact Ne.symm heq
        · exact hid item hitem

/-- The loop over the values that the inner session changed. -/
theorem mergeOlds {items : List (ℕ × V)}
    (hsorted : items.Pairwise fun item item' ↦ item.1 < item'.1) (h : Recorded before u after)
    (hitems : ∀ item ∈ items, after item.1 = some item.2 ∧ (after' item.1).isSome)
    (hothers : ∀ id, (∀ item ∈ items, item.1 ≠ id) → after' id = after id) :
    Recorded before (items.foldl UndoState.mergeOld u) after' := by
  refine h.foldl (fun item hitem u after h hv ↦ ?_) hsorted (fun item hitem ↦ (hitems item hitem).1)
    hothers
  obtain ⟨w, hw⟩ := Option.isSome_iff_exists.1 (hitems item hitem).2
  rw [u.mergeOld_eq, hw]
  exact h.onModify hv fun _ ↦ rfl

/-- The loop over the objects that the inner session removed. -/
theorem mergeRemoveds {items : List (ℕ × V)}
    (hsorted : items.Pairwise fun item item' ↦ item.1 < item'.1) (h : Recorded before u after)
    (hitems : ∀ item ∈ items, after item.1 = some item.2 ∧ after' item.1 = none)
    (hothers : ∀ id, (∀ item ∈ items, item.1 ≠ id) → after' id = after id) :
    Recorded before (items.foldl UndoState.mergeRemoved u) after' := by
  refine h.foldl (fun item hitem u after h hv ↦ ?_) hsorted (fun item hitem ↦ (hitems item hitem).1)
    hothers
  rw [u.mergeRemoved_eq item (h.not_removed hv), (hitems item hitem).2]
  exact h.onRemove hv fun _ ↦ rfl

/-- The merged session records both changes. -/
theorem merge {between : ℕ → Option V} {state prev : UndoState V}
    (hprev : Recorded before prev between) (hstate : Recorded between state after)
    (hnext : prev.oldNextId ≤ state.oldNextId) : Recorded before (state.merge prev) after := by
  -- The inner session's changes one kind after the other: changed values, new ids, removed values.
  let changed : ℕ → Option V := fun id ↦
    if (state.oldValues.find? id).isSome then after id else between id
  let created : ℕ → Option V := fun id ↦ if id ∈ state.newIds then after id else changed id
  have hnotNew : ∀ id v, between id = some v → id ∉ state.newIds := fun id v ↦ hstate.not_new
  have hchanged :
      Recorded before (state.oldValues.sorted.foldl UndoState.mergeOld prev) changed := by
    refine hprev.mergeOlds state.oldValues.sorted_pairwise (fun item hitem ↦ ?_) fun id hid ↦ ?_
    · have hold := Table.mem_sorted.1 hitem
      obtain ⟨hbetween, hsome⟩ := hstate.old _ _ hold
      refine ⟨hbetween, ?_⟩
      simp only [changed, hold, Option.isSome_some, if_true]
      exact hsome
    · simp only [changed]
      rw [if_neg]
      intro hsome
      obtain ⟨v, hv⟩ := Option.isSome_iff_exists.1 hsome
      exact hid (id, v) (Table.mem_sorted.2 hv) rfl
  have hnew : ∀ id ∈ state.newIds,
      (state.oldValues.sorted.foldl UndoState.mergeOld prev).oldNextId ≤ id ∧
        (created id).isSome := by
    intro id hid
    obtain ⟨hle, hsome⟩ := hstate.new id hid
    rw [UndoState.foldl_mergeOld_oldNextId]
    refine ⟨hnext.trans hle, ?_⟩
    simp only [created, if_pos hid]
    exact hsome
  have hcreated := hchanged.create hnew fun id hid ↦ (if_neg hid : created id = changed id)
  rw [UndoState.merge, Finset.union_comm]
  refine hcreated.mergeRemoveds state.removedValues.sorted_pairwise (fun item hitem ↦ ?_)
    fun id hid ↦ ?_
  · have hremoved := Table.mem_sorted.1 hitem
    obtain ⟨hbetween, hnone⟩ := hstate.removed _ _ hremoved
    refine ⟨?_, hnone⟩
    simp only [created, changed]
    rw [if_neg (hnotNew _ _ hbetween), hstate.not_old hnone]
    exact hbetween
  · have hremoved : state.removedValues.find? id = none := by
      rw [Option.eq_none_iff_forall_ne_some]
      exact fun v hv ↦ hid (id, v) (Table.mem_sorted.2 hv) rfl
    simp only [created, changed]
    split_ifs with hnew hold
    · rfl
    · rfl
    · exact hstate.same id (by simpa using hold) hremoved hnew

end Recorded

/-! ## Layers of sessions -/

/-- Ids are the only unique keys. -/
def idOnly : V → List Empty := fun _ ↦ []

theorem not_clash_idOnly (v w : V) : ¬ Clash idOnly v w := by
  rintro ⟨k, _, _⟩
  exact k.elim

/-- Undo states of nested sessions, from the innermost outwards, lead from contents back to the
contents at the start of the outermost session. -/
def Layers (start : ℕ → Option V) (startId : ℕ) : List (UndoState V) → (ℕ → Option V) → ℕ → Prop
  | [], contents, nextId => contents = start ∧ nextId = startId
  | u :: rest, contents, nextId => ∃ before, Recorded before u contents ∧ u.oldNextId ≤ nextId ∧
      (∀ id v, contents id = some v → id < nextId) ∧ Layers start startId rest before u.oldNextId

namespace GenericIndex

variable {s t : GenericIndex (idOnly (V := V))}

/-- An index in sessions that it started in another state. -/
structure Nested (s t : GenericIndex (idOnly (V := V))) (inner : List (UndoState V)) : Prop where
  stack : t.stack = inner ++ s.stack
  revision : t.revision = s.revision + inner.length
  layers : Layers s.indices.find? s.nextId inner t.indices.find? t.nextId

theorem Nested.refl (s : GenericIndex (idOnly (V := V))) : Nested s s [] :=
  ⟨rfl, (add_zero _).symm, rfl, rfl⟩

variable {inner : List (UndoState V)} {u : UndoState V}

theorem Nested.idsBelowNext (hs : s.IdsBelowNext) (h : Nested s t inner) : t.IdsBelowNext := by
  cases inner with
  | nil =>
    obtain ⟨hcontents, hnext⟩ := h.layers
    intro id v hv
    rw [hcontents] at hv
    exact hnext ▸ hs id v hv
  | cons u rest =>
    obtain ⟨_, _, _, hbelow, _⟩ := h.layers
    exact hbelow

theorem Nested.startUndoSession (hs : s.IdsBelowNext) (h : Nested s t inner) :
    ∃ u, Nested s t.startUndoSession (u :: inner) := by
  have hbelow := h.idsBelowNext hs
  refine ⟨⟨Table.empty, Table.empty, ∅, t.nextId, t.revision + 1⟩, ?_, ?_,
    t.indices.find?, .start hbelow _, le_rfl, hbelow, h.layers⟩
  · simp [GenericIndex.startUndoSession, h.stack]
  · simp [GenericIndex.startUndoSession, h.revision, add_assoc]

theorem Nested.call (hs : s.IdsBelowNext) (h : Nested s t (u :: inner)) (c : Call V) :
    ∃ u', Nested s (t.call c).1 (u' :: inner) := by
  obtain ⟨before, hrecorded, hnext, _, hrest⟩ := h.layers
  obtain ⟨u', hstack, hrevision, hcall⟩ := call_effect h.stack c
  rcases hcall with ⟨_, heffect⟩ | ⟨hfails, _⟩
  · obtain ⟨hold, hgrows⟩ := heffect.nextId
    exact ⟨u', hstack, hrevision.trans h.revision, before, heffect.recorded hnext hrecorded,
      hold ▸ hnext.trans hgrows, heffect.idsBelowNext (h.idsBelowNext hs), hold ▸ hrest⟩
  · refine absurd ?_ hfails
    cases c with
    | modify id m =>
      intro v _ htaken
      obtain ⟨_, _, _, _, hclash⟩ := MultiIndex.taken_iff.1 htaken
      exact not_clash_idOnly _ _ hclash
    | _ => trivial

/-- Undo of the innermost session. -/
theorem Nested.undo (h : Nested s t (u :: inner)) :
    ∃ t', t.undo = .ok t' ∧ Nested s t' inner := by
  obtain ⟨before, hrecorded, _, _, hrest⟩ := h.layers
  have hunique : Unique idOnly before := fun _ _ _ _ _ _ _ ↦ not_clash_idOnly _ _
  obtain ⟨t', ht'⟩ := (undo_iff hunique h.stack hrecorded).2
    fun _ _ _ _ _ _ _ _ ↦ not_clash_idOnly _ _
  obtain ⟨hcontents, hnext, hstack, hrevision⟩ := undo_spec hunique h.stack hrecorded ht'
  refine ⟨t', ht', hstack, ?_, ?_⟩
  · rw [hrevision, h.revision, List.length_cons]
    omega
  · rwa [funext hcontents, hnext]

/-- Squash of the two innermost sessions. -/
theorem Nested.squash {state prev : UndoState V} (h : Nested s t (state :: prev :: inner)) :
    Nested s t.squash (state.merge prev :: inner) := by
  obtain ⟨between, hstate, hnext, hbelow, before, hprev, hle, _, hrest⟩ := h.layers
  have hsquash : t.squash = { t with
      stack := state.merge prev :: (inner ++ s.stack)
      revision := t.revision - 1 } := by
    rw [GenericIndex.squash, h.stack]
    rfl
  rw [hsquash]
  have hold := state.merge_oldNextId prev
  refine ⟨rfl, ?_, before, hprev.merge hstate hle, hold ▸ hle.trans hnext, hbelow, hold ▸ hrest⟩
  simp only [h.revision, List.length_cons]
  omega

theorem Nested.agrees (h : Nested s t []) : Agrees s t := by
  obtain ⟨hcontents, hnext⟩ := h.layers
  exact ⟨congrFun hcontents, hnext, h.stack, h.revision.trans (add_zero _)⟩

/-- What may happen while a session is open: calls, and sessions inside that are squashed or
undone. -/
inductive SessionRun (s : GenericIndex (idOnly (V := V))) : GenericIndex (idOnly (V := V)) → Prop
  | start : SessionRun s s.startUndoSession
  | call {t : GenericIndex idOnly} (c : Call V) (h : SessionRun s t) : SessionRun s (t.call c).1
  | nest {t : GenericIndex idOnly} (h : SessionRun s t) : SessionRun s t.startUndoSession
  | squash {t : GenericIndex idOnly} (h : SessionRun s t)
      (hopen : s.stack.length + 1 < t.stack.length) : SessionRun s t.squash
  | undo {t t' : GenericIndex idOnly} (h : SessionRun s t)
      (hopen : s.stack.length + 1 < t.stack.length) (hundo : t.undo = .ok t') : SessionRun s t'

theorem SessionRun.nested (hs : s.IdsBelowNext) (h : SessionRun s t) :
    ∃ u inner, Nested s t (u :: inner) := by
  induction h with
  | start =>
    obtain ⟨u, hu⟩ := (Nested.refl s).startUndoSession hs
    exact ⟨u, [], hu⟩
  | call c _ ih =>
    obtain ⟨u, inner, hnested⟩ := ih
    obtain ⟨u', hu'⟩ := hnested.call hs c
    exact ⟨u', inner, hu'⟩
  | nest _ ih =>
    obtain ⟨u, inner, hnested⟩ := ih
    obtain ⟨u', hu'⟩ := hnested.startUndoSession hs
    exact ⟨u', u :: inner, hu'⟩
  | squash _ hopen ih =>
    obtain ⟨state, inner, hnested⟩ := ih
    cases inner with
    | nil => simp [hnested.stack] at hopen
    | cons prev inner => exact ⟨_, inner, hnested.squash⟩
  | undo _ hopen hundo ih =>
    obtain ⟨u, inner, hnested⟩ := ih
    obtain ⟨t', ht', hrest⟩ := hnested.undo
    rw [hundo] at ht'
    cases ht'
    cases inner with
    | nil => simp [hnested.stack] at hopen
    | cons prev inner => exact ⟨prev, inner, hrest⟩

/-- With two sessions open, squash changes no contents, and squash and undo lead where two undos
lead, to the start of the outer session. However sessions were nested inside a session, squashed
and undone, its undo leads back to its start. -/
theorem squash_composes (hs : s.IdsBelowNext) (h : SessionRun s t) :
    (t.stack.length = s.stack.length + 2 →
      t.squash.indices = t.indices ∧ t.squash.nextId = t.nextId ∧
        ∃ merged once twice, t.squash.undo = .ok merged ∧ t.undo = .ok once ∧
          once.undo = .ok twice ∧ Agrees twice merged ∧ Agrees s merged) ∧
      (t.stack.length = s.stack.length + 1 → ∃ t', t.undo = .ok t' ∧ Agrees s t') := by
  obtain ⟨u, inner, hnested⟩ := h.nested hs
  have hlength : t.stack.length = inner.length + 1 + s.stack.length := by
    rw [hnested.stack, List.length_append, List.length_cons]
  refine ⟨fun htwo ↦ ?_, fun hone ↦ ?_⟩
  · obtain ⟨prev, rfl⟩ : ∃ prev, inner = [prev] := List.length_eq_one_iff.1 (by omega)
    obtain ⟨merged, hmerged, hnone⟩ := hnested.squash.undo
    obtain ⟨once, honce, houter⟩ := hnested.undo
    obtain ⟨twice, htwice, hnone'⟩ := houter.undo
    have hstart := hnone.agrees
    have hstart' := hnone'.agrees
    refine ⟨?_, ?_, merged, once, twice, hmerged, honce, htwice, ?_, hstart⟩
    · simp [GenericIndex.squash, hnested.stack]
    · simp [GenericIndex.squash, hnested.stack]
    · exact ⟨fun id ↦ (hstart.contents id).trans (hstart'.contents id).symm,
        hstart.nextId.trans hstart'.nextId.symm, hstart.stack.trans hstart'.stack.symm,
        hstart.revision.trans hstart'.revision.symm⟩
  · obtain rfl : inner = [] := List.length_eq_zero_iff.1 (by omega)
    obtain ⟨t', ht', hnone⟩ := hnested.undo
    exact ⟨t', ht', hnone.agrees⟩

/-- One object with the value 10. -/
def oneObject : GenericIndex (idOnly (V := ℕ)) := ((empty idOnly).call (.emplace fun _ ↦ 10)).1

/-- The object is changed in one session and removed in a session inside, which also creates
another one. -/
theorem squash_composes_after_removal :
    ∃ merged once twice,
      (((oneObject.startUndoSession.calls [.modify 0 fun _ ↦ 11]).startUndoSession.calls
        [.remove 0, .emplace fun _ ↦ 12]).squash).undo = .ok merged ∧
      ((oneObject.startUndoSession.calls [.modify 0 fun _ ↦ 11]).startUndoSession.calls
        [.remove 0, .emplace fun _ ↦ 12]).undo = .ok once ∧
      once.undo = .ok twice ∧ Agrees twice merged ∧ Agrees oneObject merged := by
  have hbelow : oneObject.indices.rows.Forall fun id _ ↦ id < oneObject.nextId := by decide
  exact ((squash_composes hbelow (.call _ (.call _ (.nest (.call _ .start))))).1 rfl).2.2

end GenericIndex

end SophiaTX.Chainbase
