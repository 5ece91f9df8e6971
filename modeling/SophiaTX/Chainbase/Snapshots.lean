import SophiaTX.Chainbase.Database

/-!
# Records of changes stand for copies

One index first: what its records lead back to are the copies that are kept of its contents, and
every request on it is the same request on the copies. The indices of a database are then all at
the same revision, and the whole database goes back to one earlier moment at once.
-/

namespace SophiaTX.Chainbase

open SophiaTX.Lib

variable {V κ : Type} {keys : V → List κ}

/-! ## One index -/

def GenericIndex.contents (t : GenericIndex keys) : Contents V := ⟨t.indices.find?, t.nextId⟩

@[simp]
theorem GenericIndex.contents_objects (t : GenericIndex keys) :
    t.contents.objects = t.indices.find? := rfl

@[simp]
theorem GenericIndex.contents_nextId (t : GenericIndex keys) : t.contents.nextId = t.nextId := rfl

/-- A record leads from one version of the contents to the next one. -/
structure Records (keys : V → List κ) (before : Contents V) (u : UndoState V) (after : Contents V) :
    Prop where
  sound : before.Sound keys
  recorded : Recorded before.objects u after.objects
  oldNextId : u.oldNextId = before.nextId
  nextId : before.nextId ≤ after.nextId

/-- The sessions have the numbers up to the newest one. -/
def Numbered : ℤ → List (UndoState V) → Prop
  | _, [] => True
  | revision, u :: rest => u.revision = revision ∧ Numbered (revision - 1) rest

/-- The contents of an index and its records are those of copies. -/
structure Held (t : GenericIndex keys) (v : Versions (Contents V)) : Prop where
  contents : t.contents = v.current
  revision : t.revision = v.revision
  sound : v.current.Sound keys
  tracks : Tracks (Records keys) v.current v.saved t.stack
  numbered : Numbered v.revision t.stack

variable {t t' : GenericIndex keys} {v : Versions (Contents V)} {x : Contents V}

theorem GenericIndex.contents_taken {id : ℕ} {w : V} :
    t.contents.Taken keys id w ↔ t.indices.Taken id w := MultiIndex.taken_iff.symm

/-! ### Sessions -/

theorem Held.startUndoSession (h : Held t v) : Held t.startUndoSession v.save where
  contents := h.contents
  revision := congrArg (· + 1) h.revision
  sound := h.sound
  tracks := by
    refine .cons ⟨h.sound, ?_, congrArg Contents.nextId h.contents, le_rfl⟩ h.tracks
    exact .start (h.contents ▸ h.sound.below) _
  numbered := by
    refine ⟨congrArg (· + 1) h.revision, ?_⟩
    rw [Versions.save, add_sub_cancel_right]
    exact h.numbered

theorem UndoState.foldl_mergeOld_revision (prev : UndoState V) (items : List (ℕ × V)) :
    (items.foldl mergeOld prev).revision = prev.revision := by
  induction items generalizing prev with
  | nil => rfl
  | cons item rest ih =>
    rw [List.foldl_cons, ih]
    unfold mergeOld
    split_ifs <;> rfl

theorem UndoState.merge_revision (state prev : UndoState V) :
    (state.merge prev).revision = prev.revision := by
  have hremoved : ∀ (items : List (ℕ × V)) (prev : UndoState V),
      (items.foldl mergeRemoved prev).revision = prev.revision := by
    intro items
    induction items with
    | nil => exact fun _ ↦ rfl
    | cons item rest ih =>
      intro prev
      rw [List.foldl_cons, ih]
      unfold mergeRemoved
      split_ifs
      · rfl
      · cases prev.oldValues.find? item.1 <;> rfl
  exact (hremoved _ _).trans (prev.foldl_mergeOld_revision _)

theorem Held.squash (h : Held t v) : Held t.squash v.squash := by
  obtain ⟨indices, nextId, stack, _⟩ := t
  obtain ⟨current, saved, revision⟩ := v
  obtain ⟨hcontents, hrevision, hsound, htracks, hnumbered⟩ := h
  cases htracks with
  | nil _ => exact ⟨hcontents, hrevision, hsound, .nil current, trivial⟩
  | cons hstate hrest =>
    cases hrest with
    | nil _ => exact ⟨hcontents, hrevision, hsound, .nil current, trivial⟩
    | cons hprev hrest =>
      rename_i between state before prev older rest
      have hle : prev.oldNextId ≤ state.oldNextId :=
        calc prev.oldNextId = before.nextId := hprev.oldNextId
          _ ≤ between.nextId := hprev.nextId
          _ = state.oldNextId := hstate.oldNextId.symm
      refine ⟨hcontents, congrArg (· - 1) hrevision, hsound, .cons ?_ hrest, ?_⟩
      · exact ⟨hprev.sound, hprev.recorded.merge hstate.recorded hle,
          (state.merge_oldNextId prev).trans hprev.oldNextId, hprev.nextId.trans hstate.nextId⟩
      · exact ⟨(state.merge_revision prev).trans hnumbered.2.1, hnumbered.2.2⟩

theorem Numbered.le {revision : ℤ} {stack : List (UndoState V)} (h : Numbered revision stack) :
    ∀ u ∈ stack, u.revision ≤ revision := by
  induction stack generalizing revision with
  | nil => exact fun u hu ↦ absurd hu List.not_mem_nil
  | cons u rest ih =>
    intro u' hu'
    rcases List.mem_cons.1 hu' with rfl | hu'
    · exact h.1.le
    · have hle := ih h.2 u' hu'
      omega

theorem rdropWhile_cons_of_neg {α : Type} {p : α → Bool} {a : α} {l : List α}
    (ha : p a = false) : (a :: l).rdropWhile p = a :: l.rdropWhile p := by
  have hsingle : [a].dropWhile p = [a] := by rw [List.dropWhile_cons, ha, if_neg Bool.false_ne_true]
  unfold List.rdropWhile
  rw [List.reverse_cons, List.dropWhile_append, hsingle]
  split
  · rename_i hempty
    rw [List.isEmpty_iff.1 hempty]
    rfl
  · rw [List.reverse_append, List.reverse_singleton, List.singleton_append]

/-- The sessions up to a number are the outermost ones. -/
theorem Numbered.rdropWhile {revision : ℤ} {stack : List (UndoState V)}
    (h : Numbered revision stack) (upTo : ℤ) :
    (stack.rdropWhile fun u ↦ decide (u.revision ≤ upTo)) =
      stack.take (revision - upTo).toNat := by
  induction stack generalizing revision with
  | nil => rw [List.rdropWhile_nil, List.take_nil]
  | cons u rest ih =>
    by_cases hall : revision ≤ upTo
    · have hnone : (revision - upTo).toNat = 0 := by omega
      rw [hnone, List.take_zero, List.rdropWhile_eq_nil_iff]
      intro u hu
      exact decide_eq_true ((h.le u hu).trans hall)
    · have hnext : (revision - upTo).toNat = (revision - 1 - upTo).toNat + 1 := by omega
      have hkept : decide (u.revision ≤ upTo) = false := decide_eq_false (h.1 ▸ hall)
      rw [hnext, List.take_succ_cons, ← ih h.2]
      exact rdropWhile_cons_of_neg hkept

theorem Numbered.take {revision : ℤ} {stack : List (UndoState V)} (h : Numbered revision stack)
    (k : ℕ) : Numbered revision (stack.take k) := by
  induction k generalizing revision stack with
  | zero => exact trivial
  | succ k ih =>
    cases stack with
    | nil => exact trivial
    | cons u rest => exact ⟨h.1, ih h.2⟩

theorem Held.commit (h : Held t v) (revision : ℤ) : Held (t.commit revision) (v.commit revision)
    where
  contents := h.contents
  revision := h.revision
  sound := h.sound
  tracks := by
    unfold GenericIndex.commit
    rw [h.numbered.rdropWhile]
    exact h.tracks.take _
  numbered := by
    unfold GenericIndex.commit
    rw [h.numbered.rdropWhile]
    exact h.numbered.take _

/-! ### Undo -/

section Undo

variable [DecidableEq κ]

theorem undo_of_nil (hstack : t.stack = []) : t.undo = .ok t := by
  rw [GenericIndex.undo, hstack]

/-- Undo goes through if and only if the newest version can be restored, and leads there. -/
theorem Held.undo (h : Held t v) :
    (∃ t', t.undo = .ok t') ↔ ∀ version ∈ v.saved.head?, v.current.Restorable keys version := by
  obtain ⟨current, saved, revision⟩ := v
  cases hstack : t.stack with
  | nil =>
    have hsaved : saved = [] := h.tracks.eq_nil_iff.1 hstack
    subst hsaved
    exact iff_of_true ⟨t, undo_of_nil hstack⟩ (by simp)
  | cons u rest =>
    obtain ⟨before, older, rfl, hrecord, _⟩ := h.tracks.exists_before hstack
    have hrecorded : Recorded before.objects u t.indices.find? := by
      have hcontents := congrArg Contents.objects h.contents
      rw [show t.indices.find? = current.objects from hcontents]
      exact hrecord.recorded
    rw [GenericIndex.undo_iff hrecord.sound.unique hstack hrecorded]
    have hcontents : t.indices.find? = current.objects := congrArg Contents.objects h.contents
    simp only [List.head?_cons, Option.mem_some_iff, forall_eq', Contents.Restorable, hcontents]

theorem Held.of_undo (h : Held t v) (hundo : t.undo = .ok t') : Held t' v.undo := by
  obtain ⟨current, saved, revision⟩ := v
  cases hstack : t.stack with
  | nil =>
    have hsaved : saved = [] := h.tracks.eq_nil_iff.1 hstack
    subst hsaved
    rw [undo_of_nil hstack] at hundo
    cases hundo
    exact h
  | cons u rest =>
    obtain ⟨before, older, rfl, hrecord, hrest⟩ := h.tracks.exists_before hstack
    have hcontents : t.indices.find? = current.objects := congrArg Contents.objects h.contents
    have hnumbered := h.numbered
    rw [hstack] at hnumbered
    obtain ⟨hobjects, hnext, hstack', hrevision⟩ := GenericIndex.undo_spec hrecord.sound.unique
      hstack (hcontents ▸ hrecord.recorded) hundo
    refine ⟨?_, hrevision.trans (congrArg (· - 1) h.revision), hrecord.sound, hstack' ▸ hrest,
      hstack' ▸ hnumbered.2⟩
    rw [GenericIndex.contents, funext hobjects, hnext, hrecord.oldNextId]
    rfl

/-! ### Calls -/

omit [DecidableEq κ] in
@[simp]
theorem contents_record (t : GenericIndex keys) (f : UndoState V → UndoState V) :
    (t.record f).contents = t.contents := by
  unfold GenericIndex.record
  split <;> rfl

theorem contents_emplace (hbelow : t.IdsBelowNext) (c : ℕ → V) :
    (t.call (.emplace c)).1.contents = t.contents.call keys (.emplace c) := by
  have hfresh : t.indices.find? t.nextId = none := by
    rw [Option.eq_none_iff_forall_ne_some]
    exact fun w hw ↦ absurd (hbelow t.nextId w hw) (lt_irrefl _)
  simp only [GenericIndex.call, GenericIndex.emplace, Contents.call, GenericIndex.contents_nextId,
    GenericIndex.contents_taken]
  split
  · rename_i hnone
    rw [if_pos]
    by_contra hfree
    obtain ⟨m, hm⟩ := MultiIndex.emplace?_isSome hfresh hfree
    rw [hnone] at hm
    cases hm
  · rename_i indices hindices
    obtain ⟨_, hfree, hfind⟩ := MultiIndex.emplace?_eq_some hindices
    rw [if_neg hfree, contents_record, GenericIndex.contents, Contents.mk.injEq]
    refine ⟨funext fun id ↦ ?_, rfl⟩
    rw [hfind, Function.update_apply]
    rfl

theorem contents_modify (id : ℕ) (m : V → V)
    (hallows : t.contents.Allows keys (.modify id m)) :
    (t.call (.modify id m)).1.contents = t.contents.call keys (.modify id m) := by
  simp only [GenericIndex.call, GenericIndex.modify, Contents.call, GenericIndex.contents_objects]
  cases hv : t.indices.find? id with
  | none =>
    rw [Option.map_none, Function.update_eq_self_iff.2 hv.symm]
    rfl
  | some v =>
    have hfree : ¬ t.indices.Taken id (m v) := by
      rw [← GenericIndex.contents_taken]
      exact hallows v hv
    obtain ⟨_, hfind⟩ := MultiIndex.modify_of_free hfree
    have hindices : (t.record fun head ↦ head.onModify id v).indices = t.indices := by
      unfold GenericIndex.record
      split <;> rfl
    have hnext : (t.record fun head ↦ head.onModify id v).nextId = t.nextId := by
      unfold GenericIndex.record
      split <;> rfl
    simp only [GenericIndex.contents, Contents.mk.injEq]
    refine ⟨funext fun id' ↦ ?_, hnext⟩
    rw [hindices, hfind, hv, Function.update_apply]
    rfl

theorem contents_remove (id : ℕ) :
    (t.call (.remove id)).1.contents = t.contents.call keys (.remove id) := by
  simp only [GenericIndex.call, GenericIndex.remove, Contents.call, GenericIndex.contents_objects]
  cases hv : t.indices.find? id with
  | none =>
    rw [Function.update_eq_self_iff.2 hv.symm]
    rfl
  | some v =>
    have hindices : (t.record fun head ↦ head.onRemove id v).indices = t.indices := by
      unfold GenericIndex.record
      split <;> rfl
    have hnext : (t.record fun head ↦ head.onRemove id v).nextId = t.nextId := by
      unfold GenericIndex.record
      split <;> rfl
    simp only [GenericIndex.contents, Contents.mk.injEq]
    refine ⟨funext fun id' ↦ ?_, hnext⟩
    rw [hindices, MultiIndex.find?_erase, Function.update_apply]

/-- A call that throws out of no modification does to the contents what it is for. -/
theorem contents_call (hbelow : t.IdsBelowNext) (c : Call V)
    (hallows : t.contents.Allows keys c) : (t.call c).1.contents = t.contents.call keys c := by
  cases c with
  | emplace c => exact contents_emplace hbelow c
  | modify id m => exact contents_modify id m hallows
  | remove id => exact contents_remove id

omit [DecidableEq κ] in
theorem modifySucceeds_iff (c : Call V) :
    t.ModifySucceeds c ↔ t.contents.Allows keys c := by
  cases c with
  | modify id m =>
    refine forall₂_congr fun v _ ↦ ?_
    rw [GenericIndex.contents_taken]
  | _ => exact Iff.rfl

omit [DecidableEq κ] in
/-- What a call does to the ids. -/
theorem Contents.below_call (hbelow : ∀ id v, x.objects id = some v → id < x.nextId) (c : Call V) :
    (∀ id v, (x.call keys c).objects id = some v → id < (x.call keys c).nextId) ∧
      x.nextId ≤ (x.call keys c).nextId := by
  cases c with
  | emplace c =>
    simp only [Contents.call]
    split_ifs
    · exact ⟨hbelow, le_rfl⟩
    · refine ⟨fun id v hv ↦ ?_, Nat.le_succ _⟩
      dsimp only at hv ⊢
      rw [Function.update_apply] at hv
      split_ifs at hv with hid
      · exact hid ▸ Nat.lt_succ_self _
      · exact (hbelow id v hv).trans (Nat.lt_succ_self _)
  | modify id m =>
    refine ⟨fun id' v hv ↦ ?_, le_rfl⟩
    simp only [Contents.call, Function.update_apply] at hv ⊢
    split_ifs at hv with hid
    · obtain ⟨w, hw, _⟩ := Option.map_eq_some_iff.1 hv
      exact hid ▸ hbelow id w hw
    · exact hbelow id' v hv
  | remove id =>
    refine ⟨fun id' v hv ↦ ?_, le_rfl⟩
    simp only [Contents.call, Function.update_apply] at hv ⊢
    split_ifs at hv
    exact hbelow id' v hv

omit [DecidableEq κ] in
theorem UndoState.onRemove_revision (u : UndoState V) (id : ℕ) (v : V) :
    (u.onRemove id v).revision = u.revision := by
  unfold UndoState.onRemove
  by_cases hnew : id ∈ u.newIds
  · rw [if_pos hnew]
  · rw [if_neg hnew]
    cases u.oldValues.find? id with
    | some old => rfl
    | none => exact (apply_ite UndoState.revision _ _ _).trans (ite_self _)

omit [DecidableEq κ] in
theorem GenericIndex.Effect.revision {u u' : UndoState V} (h : GenericIndex.Effect t t' u u') :
    u'.revision = u.revision := by
  cases h with
  | same _ _ => rfl
  | create _ _ _ => rfl
  | change id v _ _ _ _ =>
    unfold UndoState.onModify
    split_ifs <;> rfl
  | remove id v _ _ _ => exact u.onRemove_revision id v

theorem call_of_nil (hstack : t.stack = []) (c : Call V) :
    (t.call c).1.stack = [] ∧ (t.call c).1.revision = t.revision := by
  have hrecord : ∀ s : GenericIndex keys, s.stack = [] → ∀ f, s.record f = s := by
    intro s hs f
    rw [GenericIndex.record, hs]
  cases c with
  | emplace c =>
    unfold GenericIndex.call GenericIndex.emplace
    dsimp only
    cases t.indices.emplace? t.nextId (c t.nextId) with
    | none => exact ⟨hstack, rfl⟩
    | some indices =>
      dsimp only
      rw [hrecord]
      · exact ⟨hstack, rfl⟩
      · exact hstack
  | modify id m =>
    unfold GenericIndex.call GenericIndex.modify
    dsimp only
    cases t.indices.find? id with
    | none => exact ⟨hstack, rfl⟩
    | some v =>
      dsimp only
      rw [hrecord t hstack]
      exact ⟨hstack, rfl⟩
  | remove id =>
    unfold GenericIndex.call GenericIndex.remove
    dsimp only
    cases t.indices.find? id with
    | none => exact ⟨hstack, rfl⟩
    | some v =>
      dsimp only
      rw [hrecord t hstack]
      exact ⟨hstack, rfl⟩

theorem Held.call (h : Held t v) (c : Call V) (hallows : v.current.Allows keys c) :
    Held (t.call c).1 (v.change fun x ↦ x.call keys c) := by
  obtain ⟨current, saved, revision⟩ := v
  obtain ⟨rfl, hrevision, hsound, htracks, hnumbered⟩ := h
  have hcontents := contents_call hsound.below c hallows
  have hsound' : (t.contents.call keys c).Sound keys := by
    refine ⟨(Contents.below_call hsound.below c).1, ?_⟩
    rw [← hcontents]
    exact (t.call c).1.indices.unique
  cases hstack : t.stack with
  | nil =>
    obtain ⟨hstack', hrevision'⟩ := call_of_nil hstack c
    have hsaved : saved = [] := htracks.eq_nil_iff.1 hstack
    subst hsaved
    exact ⟨hcontents, hrevision'.trans hrevision, hsound', hstack' ▸ .nil _, hstack' ▸ trivial⟩
  | cons u rest =>
    obtain ⟨before, older, rfl, hrecord, hrest⟩ := htracks.exists_before hstack
    rw [hstack] at hnumbered
    obtain ⟨u', hstack', hrevision', hcall⟩ := GenericIndex.call_effect hstack c
    have heffect : GenericIndex.Effect t (t.call c).1 u u' := by
      rcases hcall with ⟨_, heffect⟩ | ⟨hfails, _⟩
      · exact heffect
      · exact absurd ((modifySucceeds_iff c).2 hallows) hfails
    obtain ⟨hold, _⟩ := heffect.nextId
    have hrecord' : Records keys before u' (t.contents.call keys c) := by
      refine ⟨hrecord.sound, ?_, hold.trans hrecord.oldNextId,
        hrecord.nextId.trans (Contents.below_call hsound.below c).2⟩
      rw [← hcontents]
      exact heffect.recorded (hrecord.oldNextId.le.trans hrecord.nextId) hrecord.recorded
    exact ⟨hcontents, hrevision'.trans hrevision, hsound', hstack' ▸ .cons hrecord' hrest,
      hstack' ▸ ⟨heffect.revision.trans hnumbered.1, hnumbered.2⟩⟩

/-! ### All the way back -/

theorem Held.undoTurns (h : Held t v) (turns : ℕ) (hturns : v.saved.length ≤ turns) :
    ((∃ t', t.undoTurns turns = .ok t') ↔
      (v.current :: v.saved).IsChain (Contents.Restorable keys)) ∧
        ∀ t', t.undoTurns turns = .ok t' → Held t' v.undoAll := by
  induction turns generalizing t v with
  | zero =>
    have hsaved : v.saved = [] := List.length_eq_zero_iff.1 (Nat.le_zero.1 hturns)
    have hdone : v.undoAll = v := by
      rw [Versions.undoAll, hsaved]
      rfl
    refine ⟨iff_of_true ⟨t, rfl⟩ (hsaved ▸ List.isChain_singleton _), fun t' ht' ↦ ?_⟩
    cases ht'
    rwa [hdone]
  | succ turns ih =>
    have hempty : t.stack.isEmpty = true ↔ v.saved = [] :=
      List.isEmpty_iff.trans h.tracks.eq_nil_iff
    obtain ⟨current, saved, revision⟩ := v
    unfold GenericIndex.undoTurns
    cases saved with
    | nil =>
      rw [if_pos (hempty.2 rfl)]
      refine ⟨iff_of_true ⟨t, rfl⟩ (List.isChain_singleton _), fun t' ht' ↦ ?_⟩
      cases ht'
      exact h
    | cons version older =>
      rw [if_neg fun hnil ↦ List.cons_ne_nil version older (hempty.1 hnil), List.isChain_cons_cons]
      have hrestorable := h.undo
      simp only [List.head?_cons, Option.mem_some_iff, forall_eq'] at hrestorable
      simp only [bind_eq_ok]
      have hnext : ∀ t₁, t.undo = .ok t₁ → _ := fun t₁ ht₁ ↦
        ih (h.of_undo ht₁) (Nat.le_of_succ_le_succ hturns)
      rw [← hrestorable]
      refine ⟨⟨?_, ?_⟩, ?_⟩
      · rintro ⟨t', t₁, ht₁, ht'⟩
        exact ⟨⟨t₁, ht₁⟩, (hnext t₁ ht₁).1.1 ⟨t', ht'⟩⟩
      · rintro ⟨⟨t₁, ht₁⟩, hchain⟩
        obtain ⟨t', ht'⟩ := (hnext t₁ ht₁).1.2 hchain
        exact ⟨t', t₁, ht₁, ht'⟩
      · rintro t' ⟨t₁, ht₁, ht'⟩
        have hall := (hnext t₁ ht₁).2 t' ht'
        rwa [Versions.undoAll_undo] at hall

theorem Held.undoAll (h : Held t v) :
    ((∃ t', t.undoAll = .ok t') ↔ (v.current :: v.saved).IsChain (Contents.Restorable keys)) ∧
      ∀ t', t.undoAll = .ok t' → Held t' v.undoAll :=
  h.undoTurns t.stack.length h.tracks.length_eq.ge

end Undo

theorem Held.setRevision (h : Held t v) (revision : ℤ) :
    (∀ t', t.setRevision revision = some t' ↔
      v.saved = [] ∧ t' = { t with revision := revision }) ∧
      (v.saved = [] → Held { t with revision := revision } { v with revision := revision }) := by
  have hempty : t.stack.isEmpty = true ↔ v.saved = [] :=
    List.isEmpty_iff.trans h.tracks.eq_nil_iff
  refine ⟨fun t' ↦ ?_, fun hsaved ↦ ⟨h.contents, rfl, h.sound, h.tracks, ?_⟩⟩
  · unfold GenericIndex.setRevision
    by_cases hsaved : v.saved = []
    · rw [if_pos (hempty.2 hsaved)]
      simp [hsaved, eq_comm]
    · rw [if_neg fun hnil ↦ hsaved (hempty.1 hnil)]
      simp [hsaved]
  · rw [show t.stack = [] from List.isEmpty_iff.1 (hempty.2 hsaved)]
    exact trivial

/-! ## A database -/

namespace Database

variable {n : ℕ} {V κ : Fin (n + 1) → Type} {keys : (i : Fin (n + 1)) → V i → List (κ i)}
  {db db' : Database keys} {v v' : Versions ((i : Fin (n + 1)) → Contents (V i))}

theorem foldlM_eq_ok {f : (i : Fin (n + 1)) → GenericIndex (keys i) →
      Except DatabaseError (GenericIndex (keys i))} {l : List (Fin (n + 1))} (hnodup : l.Nodup) :
    (l.foldlM (fun db i ↦ do
      let index ← f i (db i)
      pure (Function.update db i index)) db = .ok db') ↔
        (∀ i ∈ l, f i (db i) = .ok (db' i)) ∧ ∀ i ∉ l, db' i = db i := by
  induction l generalizing db with
  | nil =>
    rw [List.foldlM_nil, pure_eq_ok, eq_comm, funext_iff]
    exact ⟨fun h ↦ ⟨fun i hi ↦ absurd hi List.not_mem_nil, fun i _ ↦ h i⟩,
      fun h i ↦ h.2 i List.not_mem_nil⟩
  | cons i rest ih =>
    obtain ⟨hfresh, hnodup⟩ := List.nodup_cons.1 hnodup
    simp only [List.foldlM_cons, bind_eq_ok, pure_eq_ok]
    constructor
    · rintro ⟨_, ⟨index, hindex, rfl⟩, hrest⟩
      obtain ⟨hmem, hnot⟩ := (ih hnodup).1 hrest
      refine ⟨fun j hj ↦ ?_, fun j hj ↦ ?_⟩
      · rcases List.mem_cons.1 hj with rfl | hrest
        · rw [hindex, hnot j hfresh, Function.update_self]
        · have hne : j ≠ i := fun heq ↦ hfresh (heq ▸ hrest)
          rw [← hmem j hrest, Function.update_of_ne hne]
      · rw [List.mem_cons, not_or] at hj
        rw [hnot j hj.2, Function.update_of_ne hj.1]
    · rintro ⟨hmem, hnot⟩
      refine ⟨_, ⟨db' i, hmem i List.mem_cons_self, rfl⟩, (ih hnodup).2 ⟨fun j hj ↦ ?_,
        fun j hj ↦ ?_⟩⟩
      · have hne : j ≠ i := fun heq ↦ hfresh (heq ▸ hj)
        rw [← hmem j (List.mem_cons_of_mem i hj), Function.update_of_ne hne]
      · by_cases hij : j = i
        · rw [hij, Function.update_self]
        · rw [Function.update_of_ne hij, hnot j (by simp [hij, hj])]

/-- The loop over the indices goes through if it does for each of them. -/
theorem forEach_eq_ok {f : (i : Fin (n + 1)) → GenericIndex (keys i) →
      Except DatabaseError (GenericIndex (keys i))} :
    db.forEach f = .ok db' ↔ ∀ i, f i (db i) = .ok (db' i) := by
  unfold forEach
  rw [foldlM_eq_ok (List.nodup_finRange _)]
  simp [List.mem_finRange]

theorem exists_forEach {f : (i : Fin (n + 1)) → GenericIndex (keys i) →
      Except DatabaseError (GenericIndex (keys i))} :
    (∃ db', db.forEach f = .ok db') ↔ ∀ i, ∃ index, f i (db i) = .ok index := by
  simp only [forEach_eq_ok]
  refine ⟨fun ⟨db', h⟩ i ↦ ⟨db' i, h i⟩, fun h ↦ ?_⟩
  choose db' hdb' using h
  exact ⟨db', hdb'⟩

theorem mapError_eq_ok {ε ε' α : Type} {x : Except ε α} {f : ε → ε'} {a : α} :
    x.mapError f = .ok a ↔ x = .ok a := by
  cases x <;> simp [Except.mapError]

/-- Every index holds its part of the copies. -/
def Holds (db : Database keys) (v : Versions ((i : Fin (n + 1)) → Contents (V i))) : Prop :=
  ∀ i, Held (db i) (v.map fun x ↦ x i)

variable [(i : Fin (n + 1)) → DecidableEq (κ i)]

/-- A request goes through on the indices when it is allowed on the copies, and does the same. -/
structure Simulates (r : Request V) (db : Database keys)
    (v : Versions ((i : Fin (n + 1)) → Contents (V i))) : Prop where
  ends : (∃ db', db.run r = .ok db') ↔ r.Allowed keys v
  holds : ∀ db', db.run r = .ok db' → Holds db' (r.onCopies keys v)

theorem Simulates.total {r : Request V} {db' : Database keys} (hrun : db.run r = .ok db')
    (hallowed : r.Allowed keys v) (h : Holds db' (r.onCopies keys v)) : Simulates r db v := by
  refine ⟨iff_of_true ⟨db', hrun⟩ hallowed, fun other hother ↦ ?_⟩
  rw [hrun] at hother
  exact Except.ok.inj hother ▸ h

/-- A modification returns unless it leads to a key that is taken. -/
theorem call_modify_returned {V κ : Type} {keys : V → List κ} [DecidableEq κ]
    (t : GenericIndex keys) (id : ℕ) (m : V → V) :
    (t.call (.modify id m)).2 = true ↔ t.ModifySucceeds (.modify id m) := by
  have hindices : ∀ v, (t.record fun head ↦ head.onModify id v).indices = t.indices := by
    intro v
    unfold GenericIndex.record
    split <;> rfl
  simp only [GenericIndex.call, GenericIndex.ModifySucceeds]
  cases hv : t.indices.find? id with
  | none => simp
  | some v =>
    simp only [GenericIndex.modify, hindices, Option.some.injEq, forall_eq']
    by_cases htaken : t.indices.Taken id (m v)
    · simp [MultiIndex.modify_of_taken htaken, htaken]
    · simp [(MultiIndex.modify_of_free htaken).1, htaken]

theorem run_call (i : Fin (n + 1)) (c : Call (V i)) :
    ((∃ db', db.run (.call i c) = .ok db') ↔ (db i).ModifySucceeds c) ∧
      ∀ db', db.run (.call i c) = .ok db' → db' = Function.update db i ((db i).call c).1 := by
  cases c with
  | modify id m =>
    have hreturned := call_modify_returned (db i) id m
    simp only [run, ← hreturned]
    cases (db i).call (.modify id m) with
    | mk index returned =>
      cases returned with
      | false => exact ⟨by simp, fun db' hdb' ↦ by cases hdb'⟩
      | true => exact ⟨by simp, fun db' hdb' ↦ (Except.ok.inj hdb').symm⟩
  | emplace c => exact ⟨iff_of_true ⟨_, rfl⟩ trivial, fun db' hdb' ↦ (Except.ok.inj hdb').symm⟩
  | remove id => exact ⟨iff_of_true ⟨_, rfl⟩ trivial, fun db' hdb' ↦ (Except.ok.inj hdb').symm⟩

theorem Holds.call (h : Holds db v) (i : Fin (n + 1)) (c : Call (V i)) :
    Simulates (.call i c) db v := by
  obtain ⟨hends, hdb'⟩ :
      ((∃ db', db.run (.call i c) = .ok db') ↔ (db i).ModifySucceeds c) ∧
        ∀ db', db.run (.call i c) = .ok db' → db' = Function.update db i ((db i).call c).1 :=
    run_call i c
  have hcontents : (db i).contents = v.current i := (h i).contents
  rw [modifySucceeds_iff, hcontents] at hends
  refine ⟨hends, fun db' hrun j ↦ ?_⟩
  have hallows := hends.1 ⟨db', hrun⟩
  rw [hdb' db' hrun]
  by_cases hj : j = i
  · subst hj
    simpa [Request.onCopies, Versions.map, Versions.change] using (h j).call c hallows
  · simpa [Request.onCopies, Versions.map, Versions.change, hj] using h j

theorem run_undo : db.run .undo = db.forEach fun _ index ↦ index.undo.mapError .undo := rfl

theorem Holds.undo (h : Holds db v) : Simulates .undo db v := by
  refine ⟨?_, fun db' hdb' i ↦ ?_⟩
  · simp only [run_undo, exists_forEach, mapError_eq_ok, fun i ↦ (h i).undo, Versions.map,
      List.head?_map, Option.mem_map, forall_exists_index, and_imp, forall_apply_eq_imp_iff₂]
    exact ⟨fun h version hversion i ↦ h i version hversion, fun h i version hversion ↦
      h version hversion i⟩
  · rw [run_undo] at hdb'
    rw [Request.onCopies, Versions.map_undo]
    exact (h i).of_undo (mapError_eq_ok.1 (forEach_eq_ok.1 hdb' i))

theorem forall_isChain {α ι : Type} {R : ι → α → α → Prop} {l : List α} :
    (∀ i, l.IsChain (R i)) ↔ l.IsChain fun a b ↦ ∀ i, R i a b := by
  induction l with
  | nil => simp
  | cons a rest ih =>
    cases rest with
    | nil => simp
    | cons b rest => simp only [List.isChain_cons_cons, forall_and, ih]

theorem run_undoAll :
    db.run .undoAll = db.forEach fun _ index ↦ index.undoAll.mapError .undo := rfl

theorem Holds.undoAll (h : Holds db v) : Simulates .undoAll db v := by
  refine ⟨?_, fun db' hdb' i ↦ ?_⟩
  · simp only [run_undoAll, exists_forEach, mapError_eq_ok, fun i ↦ (h i).undoAll.1]
    rw [Request.Allowed, ← forall_isChain]
    refine forall_congr' fun i ↦ ?_
    exact List.isChain_map (fun x : (i : Fin (n + 1)) → Contents (V i) ↦ x i)
      (l := v.current :: v.saved)
  · rw [run_undoAll] at hdb'
    rw [Request.onCopies, Versions.map_undoAll]
    exact (h i).undoAll.2 _ (mapError_eq_ok.1 (forEach_eq_ok.1 hdb' i))

theorem run_setRevision (revision : ℤ) :
    db.run (.setRevision revision) = db.forEach fun _ index ↦
      (index.setRevision revision).elim (.error .openSessions) .ok := rfl

theorem elim_eq_ok {ε α : Type} {x : Option α} {e : ε} {a : α} :
    x.elim (Except.error e) Except.ok = .ok a ↔ x = some a := by
  cases x <;> simp

theorem Holds.setRevision (h : Holds db v) (revision : ℤ) :
    Simulates (.setRevision revision) db v := by
  have hset : ∀ i index, (db i).setRevision revision = some index ↔
      v.saved = [] ∧ index = { db i with revision := revision } := by
    intro i index
    rw [((h i).setRevision revision).1, Versions.map, List.map_eq_nil_iff]
  refine ⟨?_, fun db' hdb' i ↦ ?_⟩
  · simp only [run_setRevision, exists_forEach, elim_eq_ok, hset]
    simp [Request.Allowed]
  · rw [run_setRevision] at hdb'
    obtain ⟨hnone, heq⟩ := (hset i (db' i)).1 (elim_eq_ok.1 (forEach_eq_ok.1 hdb' i))
    rw [heq]
    exact ((h i).setRevision revision).2 (List.map_eq_nil_iff.2 hnone)

theorem Holds.simulates (h : Holds db v) (r : Request V) : Simulates r db v := by
  cases r with
  | startUndoSession =>
    refine .total rfl trivial fun i ↦ ?_
    rw [Request.onCopies, Versions.map_save]
    exact (h i).startUndoSession
  | call i c => exact h.call i c
  | squash =>
    refine .total rfl trivial fun i ↦ ?_
    rw [Request.onCopies, Versions.map_squash]
    exact (h i).squash
  | undo => exact h.undo
  | commit revision =>
    refine .total rfl trivial fun i ↦ ?_
    rw [Request.onCopies, Versions.map_commit]
    exact (h i).commit revision
  | undoAll => exact h.undoAll
  | setRevision revision => exact h.setRevision revision

theorem Holds.runAll (h : Holds db v) (requests : List (Request V)) :
    ((∃ db', db.runAll requests = .ok db') ↔ Request.AllAllowed keys v requests) ∧
      ∀ db', db.runAll requests = .ok db' → Holds db' (Request.allOnCopies keys v requests) := by
  induction requests generalizing db v with
  | nil =>
    refine ⟨iff_of_true ⟨db, rfl⟩ trivial, fun db' hdb' ↦ ?_⟩
    exact Except.ok.inj hdb' ▸ h
  | cons r rest ih =>
    obtain ⟨hends, hholds⟩ := h.simulates r
    unfold Database.runAll
    simp only [List.foldlM_cons, bind_eq_ok]
    refine ⟨⟨?_, ?_⟩, ?_⟩
    · rintro ⟨db', db₁, hdb₁, hdb'⟩
      exact ⟨hends.1 ⟨db₁, hdb₁⟩, (ih (hholds db₁ hdb₁)).1.1 ⟨db', hdb'⟩⟩
    · rintro ⟨hallowed, hrest⟩
      obtain ⟨db₁, hdb₁⟩ := hends.2 hallowed
      obtain ⟨db', hdb'⟩ := (ih (hholds db₁ hdb₁)).1.2 hrest
      exact ⟨db', db₁, hdb₁, hdb'⟩
    · rintro db' ⟨db₁, hdb₁, hdb'⟩
      exact (ih (hholds db₁ hdb₁)).2 db' hdb'

/-- What a request can tell of a database: the contents, the revision and the number of open
sessions of every index. -/
def view (db : Database keys) (i : Fin (n + 1)) : Contents (V i) × ℤ × ℕ :=
  ((db i).contents, (db i).revision, (db i).stack.length)

omit [(i : Fin (n + 1)) → DecidableEq (κ i)] in
theorem Holds.view (h : Holds db v) :
    db.view = fun i ↦ (v.current i, v.revision, v.saved.length) := by
  funext i
  have hlength : (db i).stack.length = v.saved.length :=
    (h i).tracks.length_eq.trans (List.length_map _)
  rw [Database.view, hlength]
  exact Prod.ext (h i).contents (Prod.ext (h i).revision rfl)

/-- Copies of empty indices. -/
def noObjects (V : Fin (n + 1) → Type) : Versions ((i : Fin (n + 1)) → Contents (V i)) where
  current := fun _ ↦ ⟨fun _ ↦ none, 0⟩
  saved := []
  revision := 0

omit [(i : Fin (n + 1)) → DecidableEq (κ i)] in
theorem empty_holds : Holds (empty keys) (noObjects V) := by
  intro i
  refine ⟨rfl, rfl, ⟨?_, ?_⟩, .nil _, trivial⟩
  · intro id w hw
    cases hw
  · intro id w other w' hw
    cases hw

/-- Requests end on a new database when each is allowed on whole copies of its contents, kept one
for every session, and all its indices then hold what the copies say, at one revision and with the
same sessions open. -/
theorem sessions_are_snapshots (requests : List (Request V)) :
    ((∃ db, (empty keys).runAll requests = .ok db) ↔
      Request.AllAllowed keys (noObjects V) requests) ∧
    ∀ db, (empty keys).runAll requests = .ok db → ∀ i,
      db.view i = ((Request.allOnCopies keys (noObjects V) requests).current i,
        (Request.allOnCopies keys (noObjects V) requests).revision,
        (Request.allOnCopies keys (noObjects V) requests).saved.length) := by
  have hempty : Holds (empty keys) (noObjects V) := empty_holds
  obtain ⟨hends, hholds⟩ := hempty.runAll requests
  exact ⟨hends, fun db hdb i ↦ congrFun (hholds db hdb).view i⟩

end Database

end SophiaTX.Chainbase
