import SophiaTX.Chainbase.GenericIndex
import SophiaTX.Lib.Partial

/-!
# When undo is exact

A session records the way back to the contents it started with. `undo` takes that way in a fixed
order, changed values first and by ascending id, and a key that has been handed on to an object
with a larger id is still taken when its turn comes.
-/

namespace SophiaTX.Chainbase

open SophiaTX.Lib

variable {V κ : Type} {keys : V → List κ}

theorem UndoState.onModify_oldNextId (u : UndoState V) (id : ℕ) (v : V) :
    (u.onModify id v).oldNextId = u.oldNextId := by
  unfold UndoState.onModify
  split_ifs <;> rfl

theorem UndoState.onRemove_oldNextId (u : UndoState V) (id : ℕ) (v : V) :
    (u.onRemove id v).oldNextId = u.oldNextId := by
  unfold UndoState.onRemove
  by_cases hnew : id ∈ u.newIds
  · rw [if_pos hnew]
  · rw [if_neg hnew]
    cases u.oldValues.find? id with
    | some old => rfl
    | none => exact (apply_ite UndoState.oldNextId _ _ _).trans (ite_self _)

/-! ## What a session records -/

/-- An undo state records a change of contents: each id was changed, removed, created or left
alone. -/
structure Recorded (before : ℕ → Option V) (u : UndoState V) (after : ℕ → Option V) : Prop where
  below : ∀ id v, before id = some v → id < u.oldNextId
  old : ∀ id v, u.oldValues.find? id = some v → before id = some v ∧ (after id).isSome
  removed : ∀ id v, u.removedValues.find? id = some v → before id = some v ∧ after id = none
  new : ∀ id ∈ u.newIds, u.oldNextId ≤ id ∧ (after id).isSome
  same : ∀ id, u.oldValues.find? id = none → u.removedValues.find? id = none → id ∉ u.newIds →
    after id = before id

namespace Recorded

variable {before after after' : ℕ → Option V} {u : UndoState V}

theorem start {next : ℕ} (h : ∀ id v, before id = some v → id < next) (revision : ℤ) :
    Recorded before ⟨Table.empty, Table.empty, ∅, next, revision⟩ before := by
  refine ⟨h, ?_, ?_, ?_, fun _ _ _ _ ↦ rfl⟩
  · intro id v hv
    cases hv
  · intro id v hv
    cases hv
  · intro id hid
    exact absurd hid (Finset.notMem_empty id)

theorem not_new (h : Recorded before u after) {id : ℕ} {v : V} (hv : before id = some v) :
    id ∉ u.newIds := fun hid ↦ absurd (h.below id v hv) (not_lt.2 (h.new id hid).1)

/-- Objects with new ids. -/
theorem create (h : Recorded before u after) {ids : Finset ℕ}
    (hids : ∀ id ∈ ids, u.oldNextId ≤ id ∧ (after' id).isSome)
    (hafter : ∀ id ∉ ids, after' id = after id) :
    Recorded before { u with newIds := ids ∪ u.newIds } after' := by
  have hold : ∀ id v, before id = some v → after' id = after id := by
    intro id v hv
    exact hafter id fun hid ↦ absurd (h.below id v hv) (not_lt.2 (hids id hid).1)
  refine ⟨h.below, fun id v hv ↦ ?_, fun id v hv ↦ ?_, fun id hid ↦ ?_,
    fun id hnone hremoved hid ↦ ?_⟩
  · obtain ⟨hbefore, hsome⟩ := h.old id v hv
    exact ⟨hbefore, by rwa [hold id v hbefore]⟩
  · obtain ⟨hbefore, hnone⟩ := h.removed id v hv
    exact ⟨hbefore, by rwa [hold id v hbefore]⟩
  · by_cases hnew : id ∈ ids
    · exact hids id hnew
    · have hid := h.new id ((Finset.mem_union.1 hid).resolve_left hnew)
      rwa [hafter id hnew]
  · rw [Finset.mem_union, not_or] at hid
    rw [hafter id hid.1]
    exact h.same id hnone hremoved hid.2

theorem onCreate (h : Recorded before u after) {next : ℕ} (hnext : u.oldNextId ≤ next) {v : V}
    (hafter : ∀ id, after' id = if id = next then some v else after id) :
    Recorded before (u.onCreate next) after' := by
  rw [UndoState.onCreate, Finset.insert_eq]
  refine h.create (fun id hid ↦ ?_) fun id hid ↦ ?_
  · rw [Finset.mem_singleton] at hid
    subst hid
    exact ⟨hnext, by rw [hafter, if_pos rfl, Option.isSome_some]⟩
  · rw [Finset.mem_singleton] at hid
    rw [hafter, if_neg hid]

theorem not_removed (h : Recorded before u after) {id : ℕ} {v : V} (hv : after id = some v) :
    u.removedValues.find? id = none := by
  cases hremoved : u.removedValues.find? id with
  | none => rfl
  | some w =>
    rw [(h.removed id w hremoved).2] at hv
    cases hv

theorem not_old (h : Recorded before u after) {id : ℕ} (hid : after id = none) :
    u.oldValues.find? id = none := by
  cases hold : u.oldValues.find? id with
  | none => rfl
  | some w =>
    have hsome := (h.old id w hold).2
    rw [hid] at hsome
    cases hsome

theorem onModify (h : Recorded before u after) {id : ℕ} {v w : V} (hv : after id = some v)
    (hafter : ∀ id', after' id' = if id' = id then some w else after id') :
    Recorded before (u.onModify id v) after' := by
  -- Whatever is there stays there.
  have hsome : ∀ id', (after id').isSome → (after' id').isSome := by
    intro id' hid'
    rw [hafter]
    split_ifs
    · rfl
    · exact hid'
  have hgone : ∀ id' x, u.removedValues.find? id' = some x →
      before id' = some x ∧ after' id' = none := by
    intro id' x hx
    obtain ⟨hbefore, hnone⟩ := h.removed id' x hx
    refine ⟨hbefore, ?_⟩
    rw [hafter, if_neg, hnone]
    rintro rfl
    rw [hv] at hnone
    cases hnone
  have hkept : (∃ x, u.oldValues.find? id = some x) ∨ id ∈ u.newIds → Recorded before u after' := by
    intro hrecorded
    refine ⟨h.below, fun id' x hx ↦ ⟨(h.old id' x hx).1, hsome id' (h.old id' x hx).2⟩,
      hgone, fun id' hid' ↦ ⟨(h.new id' hid').1, hsome id' (h.new id' hid').2⟩,
      fun id' hold hremoved hnew ↦ ?_⟩
    rw [hafter, if_neg, h.same id' hold hremoved hnew]
    rintro rfl
    rcases hrecorded with ⟨x, hx⟩ | hid
    · rw [hold] at hx
      cases hx
    · exact hnew hid
  unfold UndoState.onModify
  split_ifs with hnew hold
  · exact hkept (.inr hnew)
  · exact hkept (.inl (Option.isSome_iff_exists.1 hold))
  · have hold : u.oldValues.find? id = none := by simpa using hold
    have hbefore : before id = some v := by
      rw [← h.same id hold (h.not_removed hv) hnew, hv]
    have hemplaced := Table.find?_emplace hold v
    refine ⟨h.below, fun id' x hx ↦ ?_, hgone,
      fun id' hid' ↦ ⟨(h.new id' hid').1, hsome id' (h.new id' hid').2⟩,
      fun id' hold' hremoved hnew' ↦ ?_⟩
    · rw [hemplaced] at hx
      split_ifs at hx with hid'
      · cases hx
        subst hid'
        exact ⟨hbefore, by rw [hafter, if_pos rfl, Option.isSome_some]⟩
      · exact ⟨(h.old id' x hx).1, hsome id' (h.old id' x hx).2⟩
    · rw [hemplaced] at hold'
      split_ifs at hold' with hid'
      rw [hafter, if_neg hid', h.same id' hold' hremoved hnew']

theorem onRemove (h : Recorded before u after) {id : ℕ} {v : V} (hv : after id = some v)
    (hafter : ∀ id', after' id' = if id' = id then none else after id') :
    Recorded before (u.onRemove id v) after' := by
  have hremoved := h.not_removed hv
  have hsome : ∀ id', id' ≠ id → (after id').isSome → (after' id').isSome := by
    intro id' hne hid'
    rwa [hafter, if_neg hne]
  have hnone : ∀ id', after id' = none → after' id' = none := by
    intro id' hid'
    rw [hafter, hid', ite_self]
  by_cases hnew : id ∈ u.newIds
  · rw [UndoState.onRemove, if_pos hnew]
    have hbefore : before id = none := by
      rw [Option.eq_none_iff_forall_ne_some]
      exact fun w hw ↦ h.not_new hw hnew
    refine ⟨h.below, fun id' x hx ↦ ?_,
      fun id' x hx ↦ ⟨(h.removed id' x hx).1, hnone id' (h.removed id' x hx).2⟩,
      fun id' hid' ↦ ?_, fun id' hold' hremoved' hnew' ↦ ?_⟩
    · refine ⟨(h.old id' x hx).1, hsome id' ?_ (h.old id' x hx).2⟩
      rintro rfl
      exact h.not_new (h.old id' x hx).1 hnew
    · obtain ⟨hne, hid'⟩ := Finset.mem_erase.1 hid'
      exact ⟨(h.new id' hid').1, hsome id' hne (h.new id' hid').2⟩
    · rw [hafter]
      split_ifs with hid
      · rw [hid, hbefore]
      · exact h.same id' hold' hremoved' fun hmem ↦ hnew' (Finset.mem_erase.2 ⟨hid, hmem⟩)
  · rw [UndoState.onRemove, if_neg hnew, hremoved]
    -- The object was there before the session, with the value that is recorded as removed.
    have hrecorded : ∀ (old : Table ℕ V) (w : V), before id = some w →
        (∀ id', old.find? id' = if id' = id then none else u.oldValues.find? id') →
        Recorded before { u with
          removedValues := u.removedValues.emplace id w
          oldValues := old } after' := by
      intro old w hw hold
      have hemplaced := Table.find?_emplace hremoved w
      refine ⟨h.below, fun id' x hx ↦ ?_, fun id' x hx ↦ ?_, fun id' hid' ↦ ?_,
        fun id' hold' hremoved' hnew' ↦ ?_⟩
      · rw [hold] at hx
        split_ifs at hx with hid'
        exact ⟨(h.old id' x hx).1, hsome id' hid' (h.old id' x hx).2⟩
      · rw [hemplaced] at hx
        split_ifs at hx with hid'
        · cases hx
          subst hid'
          exact ⟨hw, by rw [hafter, if_pos rfl]⟩
        · exact ⟨(h.removed id' x hx).1, hnone id' (h.removed id' x hx).2⟩
      · refine ⟨(h.new id' hid').1, hsome id' ?_ (h.new id' hid').2⟩
        rintro rfl
        exact hnew hid'
      · rw [hemplaced] at hremoved'
        split_ifs at hremoved' with hid'
        rw [hold, if_neg hid'] at hold'
        rw [hafter, if_neg hid', h.same id' hold' hremoved' hnew']
    cases hold : u.oldValues.find? id with
    | some w => exact hrecorded _ w (h.old id w hold).1 (Table.find?_erase _ id)
    | none =>
      refine hrecorded u.oldValues v ?_ fun id' ↦ ?_
      · rw [← h.same id hold hremoved hnew, hv]
      · split_ifs with hid'
        · rw [hid', hold]
        · rfl

end Recorded

/-! ## The loops of undo -/

/-- No two contents clash. -/
def Unique (keys : V → List κ) (contents : ℕ → Option V) : Prop :=
  ∀ id v other w, contents id = some v → contents other = some w → id ≠ other → ¬ Clash keys v w

namespace GenericIndex

variable [DecidableEq κ] {m m' : MultiIndex keys}

theorem restore_eq_ok {item : ℕ × V} :
    restore m item = .ok m' ↔ (m.find? item.1).isSome ∧ ¬ m.Taken item.1 item.2 ∧
      m' = (m.modify item.1 item.2).1 := by
  unfold restore
  cases hfind : m.find? item.1 with
  | none => simp
  | some v =>
    by_cases htaken : m.Taken item.1 item.2
    · simp [MultiIndex.modify_of_taken htaken, htaken]
    · simp [(MultiIndex.modify_of_free htaken).1, htaken, eq_comm]

/-- A value that was put back. -/
theorem find?_of_restore {item : ℕ × V} (h : restore m item = .ok m') (id : ℕ) :
    m'.find? id = if id = item.1 then some item.2 else m.find? id := by
  obtain ⟨hsome, hfree, rfl⟩ := restore_eq_ok.1 h
  obtain ⟨v, hv⟩ := Option.isSome_iff_exists.1 hsome
  rw [(MultiIndex.modify_of_free hfree).2, hv, Option.map_some]

theorem find?_of_restores {items : List (ℕ × V)}
    (hsorted : items.Pairwise fun item item' ↦ item.1 < item'.1)
    (h : items.foldlM restore m = .ok m') :
    (∀ item ∈ items, (m.find? item.1).isSome ∧ m'.find? item.1 = some item.2) ∧
      ∀ id, (∀ item ∈ items, item.1 ≠ id) → m'.find? id = m.find? id := by
  induction items generalizing m with
  | nil =>
    rw [List.foldlM_nil, pure_eq_ok] at h
    subst h
    exact ⟨fun _ hitem ↦ absurd hitem List.not_mem_nil, fun _ _ ↦ rfl⟩
  | cons first rest ih =>
    rw [List.foldlM_cons, bind_eq_ok] at h
    obtain ⟨m₁, hfirst, h⟩ := h
    obtain ⟨hless, hrest⟩ := List.pairwise_cons.1 hsorted
    obtain ⟨hitems, hothers⟩ := ih hrest h
    have hm₁ := find?_of_restore hfirst
    refine ⟨fun item hitem ↦ ?_, fun id hid ↦ ?_⟩
    · rcases List.mem_cons.1 hitem with rfl | hitem
      · refine ⟨(restore_eq_ok.1 hfirst).1, ?_⟩
        rw [hothers _ fun item' hitem' ↦ (hless item' hitem').ne', hm₁, if_pos rfl]
      · obtain ⟨hsome, hvalue⟩ := hitems item hitem
        rw [hm₁, if_neg (hless item hitem).ne'] at hsome
        exact ⟨hsome, hvalue⟩
    · rw [hothers id fun item hitem ↦ hid item (List.mem_cons_of_mem _ hitem), hm₁,
        if_neg (hid first List.mem_cons_self).symm]

/-- Values can be put back if and only if no object with a larger id clashes with one of them.
Below each of them all is as it was before. -/
theorem restores_iff {before : ℕ → Option V} (hunique : Unique keys before)
    {items : List (ℕ × V)} (hsorted : items.Pairwise fun item item' ↦ item.1 < item'.1)
    (hitems : ∀ item ∈ items, before item.1 = some item.2 ∧ (m.find? item.1).isSome)
    (hbelow : ∀ other w, m.find? other = some w → (∀ item ∈ items, item.1 ≠ other) →
      (∃ item ∈ items, other < item.1) → before other = some w) :
    (∃ m', items.foldlM restore m = .ok m') ↔
      ∀ item ∈ items, ∀ other w, item.1 < other → m.find? other = some w →
        ¬ Clash keys item.2 w := by
  induction items generalizing m with
  | nil => simp [pure, Except.pure]
  | cons first rest ih =>
    obtain ⟨hless, hrest⟩ := List.pairwise_cons.1 hsorted
    -- The first value clashes with no object with a smaller id.
    have hfirst : ¬ m.Taken first.1 first.2 ↔
        ∀ other w, first.1 < other → m.find? other = some w → ¬ Clash keys first.2 w := by
      rw [MultiIndex.taken_iff]
      constructor
      · intro hfree other w hlt hw hclash
        exact hfree ⟨other, w, hw, hlt.ne', hclash⟩
      · rintro hfree ⟨other, w, hw, hne, hclash⟩
        rcases lt_or_gt_of_ne hne with hlt | hlt
        · refine hunique first.1 first.2 other w (hitems first List.mem_cons_self).1 ?_ hne.symm
            hclash
          refine hbelow other w hw (fun item hitem ↦ ?_) ⟨first, List.mem_cons_self, hlt⟩
          rcases List.mem_cons.1 hitem with rfl | hitem
          · exact hne.symm
          · exact (hlt.trans (hless item hitem)).ne'
        · exact hfree other w hlt hw hclash
    have hstep : ∀ m₁, restore m first = .ok m₁ →
        ((∃ m', rest.foldlM restore m₁ = .ok m') ↔
          ∀ item ∈ rest, ∀ other w, item.1 < other → m.find? other = some w →
            ¬ Clash keys item.2 w) := by
      intro m₁ hm₁
      have hfind := find?_of_restore hm₁
      rw [ih hrest (m := m₁)]
      · refine forall₂_congr fun item hitem ↦ forall₂_congr fun other w ↦ ?_
        refine forall_congr' fun hlt ↦ ?_
        rw [hfind, if_neg ((hless item hitem).trans hlt).ne']
      · intro item hitem
        rw [hfind, if_neg (hless item hitem).ne']
        exact hitems item (List.mem_cons_of_mem _ hitem)
      · rintro other w hw hother ⟨item, hitem, hlt⟩
        rw [hfind] at hw
        split_ifs at hw with hfirst'
        · rw [hfirst', (hitems first List.mem_cons_self).1, hw]
        · refine hbelow other w hw (fun item' hitem' ↦ ?_)
            ⟨item, List.mem_cons_of_mem _ hitem, hlt⟩
          rcases List.mem_cons.1 hitem' with rfl | hitem'
          · exact Ne.symm hfirst'
          · exact hother item' hitem'
    simp only [List.foldlM_cons, bind_eq_ok, List.forall_mem_cons]
    rw [← hfirst]
    constructor
    · rintro ⟨m', m₁, hm₁, hm'⟩
      exact ⟨(restore_eq_ok.1 hm₁).2.1, (hstep m₁ hm₁).1 ⟨m', hm'⟩⟩
    · rintro ⟨hfree, hothers⟩
      have hm₁ := restore_eq_ok.2 ⟨(hitems first List.mem_cons_self).2, hfree, rfl⟩
      obtain ⟨m', hm'⟩ := (hstep _ hm₁).2 hothers
      exact ⟨m', _, hm₁, hm'⟩

omit [DecidableEq κ] in
theorem eraseNew_eq_ok {id : ℕ} :
    eraseNew m id = .ok m' ↔ (m.find? id).isSome ∧ m' = m.erase id := by
  unfold eraseNew
  cases m.find? id <;> simp [eq_comm]

omit [DecidableEq κ] in
/-- Objects can be erased if and only if they are all there. -/
theorem erases_iff {ids : List ℕ} (hnodup : ids.Nodup) :
    (∃ m', ids.foldlM eraseNew m = .ok m') ↔ ∀ id ∈ ids, (m.find? id).isSome := by
  induction ids generalizing m with
  | nil => simp [pure, Except.pure]
  | cons first rest ih =>
    obtain ⟨hnew, hrest⟩ := List.nodup_cons.1 hnodup
    have hothers : ∀ id ∈ rest, (m.erase first).find? id = m.find? id := by
      intro id hid
      rw [MultiIndex.find?_erase, if_neg]
      rintro rfl
      exact hnew hid
    have hiff := ih hrest (m := m.erase first)
    simp only [List.foldlM_cons, bind_eq_ok, List.forall_mem_cons, eraseNew_eq_ok]
    constructor
    · rintro ⟨m', _, ⟨hsome, rfl⟩, hm'⟩
      refine ⟨hsome, fun id hid ↦ ?_⟩
      rw [← hothers id hid]
      exact hiff.1 ⟨m', hm'⟩ id hid
    · rintro ⟨hsome, hsomes⟩
      obtain ⟨m', hm'⟩ := hiff.2 fun id hid ↦ by
        rw [hothers id hid]
        exact hsomes id hid
      exact ⟨m', _, ⟨hsome, rfl⟩, hm'⟩

omit [DecidableEq κ] in
theorem find?_of_erases {ids : List ℕ} (h : ids.foldlM eraseNew m = .ok m') (id : ℕ) :
    m'.find? id = if id ∈ ids then none else m.find? id := by
  induction ids generalizing m with
  | nil =>
    rw [List.foldlM_nil, pure_eq_ok] at h
    subst h
    simp
  | cons first rest ih =>
    simp only [List.foldlM_cons, bind_eq_ok, eraseNew_eq_ok] at h
    obtain ⟨_, ⟨_, rfl⟩, h⟩ := h
    rw [ih h, MultiIndex.find?_erase]
    by_cases hfirst : id = first
    · simp [hfirst]
    · simp [hfirst]

/-- Removed objects can be put back where all else is as it was before. -/
theorem reinserts {before : ℕ → Option V} (hunique : Unique keys before)
    {items : List (ℕ × V)} (hsorted : items.Pairwise fun item item' ↦ item.1 < item'.1)
    (hitems : ∀ item ∈ items, before item.1 = some item.2 ∧ m.find? item.1 = none)
    (hm : ∀ id v, m.find? id = some v → before id = some v) :
    ∃ m', items.foldlM reinsert m = .ok m' ∧
      (∀ item ∈ items, m'.find? item.1 = some item.2) ∧
      ∀ id, (∀ item ∈ items, item.1 ≠ id) → m'.find? id = m.find? id := by
  induction items generalizing m with
  | nil => exact ⟨m, rfl, fun _ hitem ↦ absurd hitem List.not_mem_nil, fun _ _ ↦ rfl⟩
  | cons first rest ih =>
    obtain ⟨hless, hrest⟩ := List.pairwise_cons.1 hsorted
    obtain ⟨hbefore, hnone⟩ := hitems first List.mem_cons_self
    have hfree : ¬ m.Taken first.1 first.2 := by
      rw [MultiIndex.taken_iff]
      rintro ⟨other, w, hw, hne, hclash⟩
      exact hunique first.1 first.2 other w hbefore (hm other w hw) hne.symm hclash
    obtain ⟨m₁, hm₁⟩ := MultiIndex.emplace?_isSome hnone hfree
    have hfind := (MultiIndex.emplace?_eq_some hm₁).2.2
    obtain ⟨m', hm', hvalues, hothers⟩ := ih hrest (m := m₁)
      (fun item hitem ↦ by
        rw [hfind, if_neg (hless item hitem).ne']
        exact hitems item (List.mem_cons_of_mem _ hitem))
      (fun id v hv ↦ by
        rw [hfind] at hv
        split_ifs at hv with hid
        · rw [hid, hbefore, hv]
        · exact hm id v hv)
    refine ⟨m', ?_, fun item hitem ↦ ?_, fun id hid ↦ ?_⟩
    · rw [List.foldlM_cons, bind_eq_ok]
      exact ⟨m₁, by rw [reinsert, hm₁], hm'⟩
    · rcases List.mem_cons.1 hitem with rfl | hitem
      · rw [hothers _ fun item' hitem' ↦ (hless item' hitem').ne', hfind, if_pos rfl]
      · exact hvalues item hitem
    · rw [hothers id fun item hitem ↦ hid item (List.mem_cons_of_mem _ hitem), hfind,
        if_neg (hid first List.mem_cons_self).symm]

/-! ## Undo of one session -/

variable {s t : GenericIndex keys} {u : UndoState V} {rest : List (UndoState V)}

/-- Undo needs every changed and every created object to be there still. -/
theorem present_of_undo (hstack : s.stack = u :: rest) (h : s.undo = .ok t) :
    (∀ id v, u.oldValues.find? id = some v → (s.indices.find? id).isSome) ∧
      ∀ id ∈ u.newIds, (s.indices.find? id).isSome := by
  simp only [undo, hstack, bind_eq_ok] at h
  obtain ⟨m₁, hrestored, m₂, herased, _⟩ := h
  obtain ⟨hold, hothers⟩ := find?_of_restores u.oldValues.sorted_pairwise hrestored
  refine ⟨fun id v hv ↦ (hold (id, v) (Table.mem_sorted.2 hv)).1, fun id hid ↦ ?_⟩
  have hnew := (erases_iff (Finset.sort_nodup _ _)).1 ⟨m₂, herased⟩ id ((Finset.mem_sort _).2 hid)
  by_cases hitem : ∃ item ∈ u.oldValues.sorted, item.1 = id
  · obtain ⟨item, hitem, rfl⟩ := hitem
    exact (hold item hitem).1
  · push Not at hitem
    rwa [hothers id hitem] at hnew

section Recorded

variable {before : ℕ → Option V} (hunique : Unique keys before) (hstack : s.stack = u :: rest)
  (h : Recorded before u s.indices.find?)

include h

/-- Between the loops all is as it was before, but for the removed objects. -/
theorem find?_before_reinserts {m₁ m₂ : MultiIndex keys}
    (hrestored : u.oldValues.sorted.foldlM restore s.indices = .ok m₁)
    (herased : (u.newIds.sort (· ≤ ·)).foldlM eraseNew m₁ = .ok m₂) (id : ℕ) :
    m₂.find? id = if (u.removedValues.find? id).isSome then none else before id := by
  obtain ⟨hold, hothers⟩ := find?_of_restores u.oldValues.sorted_pairwise hrestored
  rw [find?_of_erases herased]
  simp only [Finset.mem_sort]
  by_cases hnew : id ∈ u.newIds
  · have hbefore : before id = none := by
      rw [Option.eq_none_iff_forall_ne_some]
      exact fun w hw ↦ h.not_new hw hnew
    rw [if_pos hnew, hbefore, ite_self]
  rw [if_neg hnew]
  cases hvalue : u.oldValues.find? id with
  | some v =>
    obtain ⟨hbefore, hsome⟩ := h.old id v hvalue
    obtain ⟨w, hw⟩ := Option.isSome_iff_exists.1 hsome
    rw [(hold (id, v) (Table.mem_sorted.2 hvalue)).2, h.not_removed hw, hbefore]
    rfl
  | none =>
    have hitem : ∀ item ∈ u.oldValues.sorted, item.1 ≠ id := by
      rintro ⟨id', v⟩ hmem rfl
      rw [Table.mem_sorted, hvalue] at hmem
      cases hmem
    rw [hothers id hitem]
    cases hremoved : u.removedValues.find? id with
    | some v => exact (h.removed id v hremoved).2
    | none => exact h.same id hvalue hremoved hnew

include hunique

theorem reinserts_of_recorded {m₁ m₂ : MultiIndex keys}
    (hrestored : u.oldValues.sorted.foldlM restore s.indices = .ok m₁)
    (herased : (u.newIds.sort (· ≤ ·)).foldlM eraseNew m₁ = .ok m₂) :
    ∃ m', u.removedValues.sorted.foldlM reinsert m₂ = .ok m' ∧ ∀ id, m'.find? id = before id := by
  have hm₂ := find?_before_reinserts h hrestored herased
  obtain ⟨m', hm', hvalues, hothers⟩ := reinserts hunique u.removedValues.sorted_pairwise (m := m₂)
    (fun item hitem ↦ by
      have hremoved := Table.mem_sorted.1 hitem
      refine ⟨(h.removed _ _ hremoved).1, ?_⟩
      rw [hm₂, hremoved, Option.isSome_some, if_pos rfl])
    (fun id v hv ↦ by
      rw [hm₂] at hv
      split_ifs at hv
      exact hv)
  refine ⟨m', hm', fun id ↦ ?_⟩
  cases hremoved : u.removedValues.find? id with
  | some v =>
    rw [hvalues (id, v) (Table.mem_sorted.2 hremoved), (h.removed id v hremoved).1]
  | none =>
    rw [hothers, hm₂, hremoved]
    · rfl
    · rintro ⟨id', v⟩ hmem rfl
      rw [Table.mem_sorted, hremoved] at hmem
      cases hmem

include hstack

theorem undo_spec (hundo : s.undo = .ok t) :
    (∀ id, t.indices.find? id = before id) ∧ t.nextId = u.oldNextId ∧ t.stack = rest ∧
      t.revision = s.revision - 1 := by
  simp only [undo, hstack, bind_eq_ok] at hundo
  obtain ⟨m₁, hrestored, m₂, herased, m₃, hreinserted, ht⟩ := hundo
  obtain ⟨m', hm', hbefore⟩ := reinserts_of_recorded hunique h hrestored herased
  rw [hreinserted] at hm'
  cases hm'
  cases ht
  exact ⟨hbefore, rfl, rfl, rfl⟩

/-- Undo of a session that recorded its changes goes through if and only if no object that was
there before clashes, with its value from then, with an object that has a larger id. -/
theorem undo_iff :
    (∃ t, s.undo = .ok t) ↔
      ∀ id v other w, before id = some v → (s.indices.find? id).isSome → id < other →
        s.indices.find? other = some w → ¬ Clash keys v w := by
  have hrestores := restores_iff hunique u.oldValues.sorted_pairwise (m := s.indices)
    (fun item hitem ↦ h.old _ _ (Table.mem_sorted.1 hitem))
    (fun other w hw hitems ⟨item, hitem, hlt⟩ ↦ by
      have hold : u.oldValues.find? other = none := by
        rw [Option.eq_none_iff_forall_ne_some]
        exact fun v hv ↦ hitems (other, v) (Table.mem_sorted.2 hv) rfl
      -- A created object would have a larger id than the one put back.
      have hnew : other ∉ u.newIds := by
        intro hnew
        have hbound := h.below _ _ (h.old _ _ (Table.mem_sorted.1 hitem)).1
        have hnext := (h.new other hnew).1
        omega
      rw [← h.same other hold (h.not_removed hw) hnew, hw])
  constructor
  · rintro ⟨t, ht⟩ id v other w hv hsome hlt hw
    simp only [undo, hstack, bind_eq_ok] at ht
    obtain ⟨m₁, hrestored, _⟩ := ht
    cases hold : u.oldValues.find? id with
    | some v' =>
      have hbefore := (h.old id v' hold).1
      rw [hv] at hbefore
      cases hbefore
      exact hrestores.1 ⟨m₁, hrestored⟩ (id, v) (Table.mem_sorted.2 hold) other w hlt hw
    | none =>
      -- An object that was not changed is in the container with the others.
      obtain ⟨x, hx⟩ := Option.isSome_iff_exists.1 hsome
      have hsame := h.same id hold (h.not_removed hx) (h.not_new hv)
      rw [hv] at hsame
      exact s.indices.unique id v other w hsame hw hlt.ne
  · intro hclear
    obtain ⟨m₁, hrestored⟩ := hrestores.2 fun item hitem other w hlt hw ↦ by
      obtain ⟨hbefore, hsome⟩ := h.old _ _ (Table.mem_sorted.1 hitem)
      exact hclear item.1 item.2 other w hbefore hsome hlt hw
    obtain ⟨hold, hothers⟩ := find?_of_restores u.oldValues.sorted_pairwise hrestored
    obtain ⟨m₂, herased⟩ := (erases_iff (m := m₁) (Finset.sort_nodup u.newIds (· ≤ ·))).2
      fun id hid ↦ by
        have hid := (Finset.mem_sort _).1 hid
        by_cases hitem : ∃ item ∈ u.oldValues.sorted, item.1 = id
        · obtain ⟨item, hitem, rfl⟩ := hitem
          rw [(hold item hitem).2, Option.isSome_some]
        · push Not at hitem
          rw [hothers id hitem]
          exact (h.new id hid).2
    obtain ⟨m₃, hreinserted, _⟩ := reinserts_of_recorded hunique h hrestored herased
    refine ⟨⟨m₃, u.oldNextId, rest, s.revision - 1⟩, ?_⟩
    simp only [undo, hstack, bind_eq_ok]
    exact ⟨m₁, hrestored, m₂, herased, m₃, hreinserted, rfl⟩

end Recorded

/-! ## Calls of a session -/

/-- Ids are given out in order. -/
def IdsBelowNext (s : GenericIndex keys) : Prop :=
  ∀ id v, s.indices.find? id = some v → id < s.nextId

/-- The same contents, with the same way back. -/
structure Agrees (s t : GenericIndex keys) : Prop where
  contents : ∀ id, t.indices.find? id = s.indices.find? id
  nextId : t.nextId = s.nextId
  stack : t.stack = s.stack
  revision : t.revision = s.revision

/-- A call does not throw out of a modification. -/
def ModifySucceeds (s : GenericIndex keys) : Call V → Prop
  | .modify id m => ∀ v, s.indices.find? id = some v → ¬ s.indices.Taken id (m v)
  | _ => True

/-- No modification of a session throws. -/
def ModifiesSucceed (s : GenericIndex keys) : List (Call V) → Prop
  | [] => True
  | c :: rest => s.ModifySucceeds c ∧ (s.call c).1.ModifiesSucceed rest

omit [DecidableEq κ] in
theorem record_eq (hstack : s.stack = u :: rest) (f : UndoState V → UndoState V) :
    s.record f = { s with stack := f u :: rest } := by
  rw [record, hstack]

/-- What a call can do to the contents, with what it records. -/
inductive Effect (t t' : GenericIndex keys) (u : UndoState V) : UndoState V → Prop
  | same (hnext : t'.nextId = t.nextId)
      (hfind : ∀ id, t'.indices.find? id = t.indices.find? id) : Effect t t' u u
  | create (v : V) (hnext : t'.nextId = t.nextId + 1)
      (hfind : ∀ id, t'.indices.find? id = if id = t.nextId then some v else t.indices.find? id) :
      Effect t t' u (u.onCreate t.nextId)
  | change (id : ℕ) (v w : V) (hv : t.indices.find? id = some v) (hnext : t'.nextId = t.nextId)
      (hfind : ∀ id', t'.indices.find? id' = if id' = id then some w else t.indices.find? id') :
      Effect t t' u (u.onModify id v)
  | remove (id : ℕ) (v : V) (hv : t.indices.find? id = some v) (hnext : t'.nextId = t.nextId)
      (hfind : ∀ id', t'.indices.find? id' = if id' = id then none else t.indices.find? id') :
      Effect t t' u (u.onRemove id v)

/-- A modification that throws loses its object. -/
def Loses (t t' : GenericIndex keys) (u u' : UndoState V) : Prop :=
  ∃ id v, t.indices.find? id = some v ∧ u' = u.onModify id v ∧ t'.nextId = t.nextId ∧
    ∀ id', t'.indices.find? id' = if id' = id then none else t.indices.find? id'

theorem call_effect (hstack : t.stack = u :: rest) (c : Call V) :
    ∃ u', (t.call c).1.stack = u' :: rest ∧ (t.call c).1.revision = t.revision ∧
      (t.ModifySucceeds c ∧ Effect t (t.call c).1 u u' ∨
        ¬ t.ModifySucceeds c ∧ Loses t (t.call c).1 u u') := by
  cases c with
  | emplace c =>
    simp only [GenericIndex.call, emplace]
    cases hindices : t.indices.emplace? t.nextId (c t.nextId) with
    | none => exact ⟨u, hstack, rfl, .inl ⟨trivial, .same rfl fun _ ↦ rfl⟩⟩
    | some indices =>
      dsimp only
      rw [record_eq (s := { t with indices := indices, nextId := t.nextId + 1 }) hstack]
      exact ⟨_, rfl, rfl, .inl ⟨trivial, .create (c t.nextId) rfl
        (MultiIndex.emplace?_eq_some hindices).2.2⟩⟩
  | modify id m =>
    simp only [GenericIndex.call, ModifySucceeds]
    cases hv : t.indices.find? id with
    | none => exact ⟨u, hstack, rfl, .inl ⟨fun v hv ↦ (by cases hv), .same rfl fun _ ↦ rfl⟩⟩
    | some v =>
      simp only [modify, record_eq hstack, Option.some.injEq, forall_eq']
      refine ⟨_, rfl, trivial, ?_⟩
      by_cases htaken : t.indices.Taken id (m v)
      · refine .inr ⟨not_not.2 htaken, id, v, hv, rfl, rfl, fun id' ↦ ?_⟩
        rw [MultiIndex.modify_of_taken htaken, MultiIndex.find?_erase]
      · refine .inl ⟨htaken, .change id v (m v) hv rfl fun id' ↦ ?_⟩
        rw [(MultiIndex.modify_of_free htaken).2, hv, Option.map_some]
  | remove id =>
    simp only [GenericIndex.call]
    cases hv : t.indices.find? id with
    | none => exact ⟨u, hstack, rfl, .inl ⟨trivial, .same rfl fun _ ↦ rfl⟩⟩
    | some v =>
      simp only [remove, record_eq hstack]
      exact ⟨_, rfl, trivial, .inl ⟨trivial, .remove id v hv rfl (MultiIndex.find?_erase _ id)⟩⟩

/-! ## The state of a session -/

/-- The state of an index in a session that it started in another state. -/
structure InSession (s t : GenericIndex keys) (u : UndoState V) : Prop where
  stack : t.stack = u :: s.stack
  oldNextId : u.oldNextId = s.nextId
  nextId : s.nextId ≤ t.nextId
  revision : t.revision = s.revision + 1

omit [DecidableEq κ] in
/-- A call that throws out of no modification is recorded. -/
theorem Effect.recorded {t' : GenericIndex keys} {u' : UndoState V} {before : ℕ → Option V}
    (h : Effect t t' u u') (hnext : u.oldNextId ≤ t.nextId)
    (hrecorded : Recorded before u t.indices.find?) : Recorded before u' t'.indices.find? := by
  cases h with
  | same _ hfind => rwa [funext hfind]
  | create v _ hfind => exact hrecorded.onCreate hnext hfind
  | change id v w hv _ hfind => exact hrecorded.onModify hv hfind
  | remove id v hv _ hfind => exact hrecorded.onRemove hv hfind

omit [DecidableEq κ] in
theorem Effect.nextId {t' : GenericIndex keys} {u' : UndoState V} (h : Effect t t' u u') :
    u'.oldNextId = u.oldNextId ∧ t.nextId ≤ t'.nextId := by
  cases h with
  | same hnext _ => exact ⟨rfl, hnext.ge⟩
  | create _ hnext _ => exact ⟨rfl, hnext ▸ Nat.le_succ _⟩
  | change id v _ _ hnext _ => exact ⟨u.onModify_oldNextId id v, hnext.ge⟩
  | remove id v _ hnext _ => exact ⟨u.onRemove_oldNextId id v, hnext.ge⟩

/-- An object that is gone without a trace in the removed values. -/
def Lost (t : GenericIndex keys) (u : UndoState V) (id : ℕ) : Prop :=
  t.indices.find? id = none ∧ id < t.nextId ∧
    ((u.oldValues.find? id).isSome ∨ id ∈ u.newIds)

omit [DecidableEq κ] in
theorem Lost.onModify {t' : GenericIndex keys} {id id' : ℕ} {v : V} (hlost : t.Lost u id)
    (hnext : t'.nextId = t.nextId) (hfind : t'.indices.find? id = none) :
    t'.Lost (u.onModify id' v) id := by
  refine ⟨hfind, hnext ▸ hlost.2.1, ?_⟩
  unfold UndoState.onModify
  split_ifs with hnew hold
  · exact hlost.2.2
  · exact hlost.2.2
  · refine hlost.2.2.imp_left fun hsome ↦ ?_
    rw [Table.find?_emplace (by simpa using hold)]
    split_ifs
    · rfl
    · exact hsome

omit [DecidableEq κ] in
/-- What is lost stays lost. -/
theorem Effect.lost {t' : GenericIndex keys} {u' : UndoState V} {id : ℕ} (h : Effect t t' u u')
    (hlost : t.Lost u id) : t'.Lost u' id := by
  obtain ⟨hnone, hlt, htrace⟩ := hlost
  cases h with
  | same hnext hfind => exact ⟨by rw [hfind, hnone], hnext ▸ hlt, htrace⟩
  | create v hnext hfind =>
    refine ⟨by rw [hfind, if_neg hlt.ne, hnone], hnext ▸ hlt.trans (Nat.lt_succ_self _), ?_⟩
    exact htrace.imp_right fun hmem ↦ Finset.mem_insert_of_mem hmem
  | change id' v w hv hnext hfind =>
    refine Lost.onModify ⟨hnone, hlt, htrace⟩ hnext ?_
    rw [hfind, if_neg, hnone]
    rintro rfl
    rw [hnone] at hv
    cases hv
  | remove id' v hv hnext hfind =>
    have hne : id ≠ id' := by
      rintro rfl
      rw [hnone] at hv
      cases hv
    refine ⟨by rw [hfind, if_neg hne, hnone], hnext ▸ hlt, ?_⟩
    unfold UndoState.onRemove
    by_cases hnew : id' ∈ u.newIds
    · rw [if_pos hnew]
      exact htrace.imp_right fun hmem ↦ Finset.mem_erase.2 ⟨hne, hmem⟩
    · rw [if_neg hnew]
      cases u.oldValues.find? id' with
      | some old =>
        refine htrace.imp_left fun hsome ↦ ?_
        rw [Table.find?_erase, if_neg hne]
        exact hsome
      | none =>
        dsimp only
        split_ifs
        · exact htrace
        · exact htrace

omit [DecidableEq κ] in
theorem Loses.lost {t' : GenericIndex keys} {u' : UndoState V} (h : Loses t t' u u')
    (hbelow : t.IdsBelowNext) : (∃ id, t'.Lost u' id) ∧ ∀ id, t.Lost u id → t'.Lost u' id := by
  obtain ⟨id, v, hv, rfl, hnext, hfind⟩ := h
  refine ⟨⟨id, by rw [hfind, if_pos rfl], hnext ▸ hbelow id v hv, ?_⟩, fun id' hlost ↦ ?_⟩
  · unfold UndoState.onModify
    split_ifs with hnew hold
    · exact .inr hnew
    · exact .inl hold
    · rw [Table.find?_emplace (by simpa using hold), if_pos rfl]
      exact .inl rfl
  · refine hlost.onModify hnext ?_
    rw [hfind, hlost.1, ite_self]

theorem not_undo_of_lost (hstack : t.stack = u :: rest) {id : ℕ} (hlost : t.Lost u id) :
    ¬ ∃ t', t.undo = .ok t' := by
  rintro ⟨t', ht'⟩
  obtain ⟨hold, hnew⟩ := present_of_undo hstack ht'
  obtain ⟨hnone, _, htrace⟩ := hlost
  have hsome : (t.indices.find? id).isSome := by
    rcases htrace with hsome | hid
    · obtain ⟨v, hv⟩ := Option.isSome_iff_exists.1 hsome
      exact hold id v hv
    · exact hnew id hid
  rw [hnone] at hsome
  cases hsome

omit [DecidableEq κ] in
theorem Effect.idsBelowNext {t' : GenericIndex keys} {u' : UndoState V} (h : Effect t t' u u')
    (hbelow : t.IdsBelowNext) : t'.IdsBelowNext := by
  intro id v hv
  cases h with
  | same hnext hfind => exact hnext ▸ hbelow id v (hfind id ▸ hv)
  | create w hnext hfind =>
    rw [hfind] at hv
    rw [hnext]
    split_ifs at hv with hid
    · exact hid ▸ Nat.lt_succ_self _
    · exact (hbelow id v hv).trans (Nat.lt_succ_self _)
  | change id' w x hw hnext hfind =>
    rw [hfind] at hv
    rw [hnext]
    split_ifs at hv with hid
    · exact hid ▸ hbelow id' w hw
    · exact hbelow id v hv
  | remove id' w hw hnext hfind =>
    rw [hfind] at hv
    rw [hnext]
    split_ifs at hv
    exact hbelow id v hv

omit [DecidableEq κ] in
theorem Loses.idsBelowNext {t' : GenericIndex keys} {u' : UndoState V} (h : Loses t t' u u')
    (hbelow : t.IdsBelowNext) : t'.IdsBelowNext := by
  obtain ⟨id', w, _, _, hnext, hfind⟩ := h
  intro id v hv
  rw [hfind] at hv
  rw [hnext]
  split_ifs at hv
  exact hbelow id v hv

theorem InSession.calls (h : InSession s t u) (hbelow : t.IdsBelowNext) (cs : List (Call V)) :
    ∃ u', InSession s (t.calls cs) u' ∧
      (t.ModifiesSucceed cs → Recorded s.indices.find? u t.indices.find? →
        Recorded s.indices.find? u' (t.calls cs).indices.find?) ∧
      (¬ t.ModifiesSucceed cs ∨ (∃ id, t.Lost u id) → ∃ id, (t.calls cs).Lost u' id) := by
  induction cs generalizing t u with
  | nil =>
    exact ⟨u, h, fun _ hrecorded ↦ hrecorded, fun hlost ↦ hlost.resolve_left (not_not.2 trivial)⟩
  | cons c rest ih =>
    obtain ⟨u₁, hstack, hrevision, hcall⟩ := call_effect h.stack c
    rcases hcall with ⟨hsucceeds, heffect⟩ | ⟨hfails, hloses⟩
    · obtain ⟨hold, hnext⟩ := heffect.nextId
      have hsession : InSession s (t.call c).1 u₁ := ⟨hstack, hold.trans h.oldNextId,
        h.nextId.trans hnext, hrevision.trans h.revision⟩
      obtain ⟨u', hu', hrecorded, hlost⟩ := ih hsession (heffect.idsBelowNext hbelow)
      refine ⟨u', hu', fun hall hbefore ↦ ?_, fun hsome ↦ hlost ?_⟩
      · exact hrecorded hall.2 (heffect.recorded (h.oldNextId ▸ h.nextId) hbefore)
      · rcases hsome with hnot | ⟨id, hid⟩
        · exact .inl fun hrest ↦ hnot ⟨hsucceeds, hrest⟩
        · exact .inr ⟨id, heffect.lost hid⟩
    · have hsession : InSession s (t.call c).1 u₁ := by
        obtain ⟨id, v, _, rfl, hnext, _⟩ := hloses
        exact ⟨hstack, (u.onModify_oldNextId id v).trans h.oldNextId, hnext ▸ h.nextId,
          hrevision.trans h.revision⟩
      obtain ⟨u', hu', _, hlost⟩ := ih hsession (hloses.idsBelowNext hbelow)
      exact ⟨u', hu', fun hall ↦ absurd hall.1 hfails, fun _ ↦
        hlost (.inr (hloses.lost hbelow).1)⟩

omit [DecidableEq κ] in
theorem startUndoSession_inSession (hs : s.IdsBelowNext) :
    ∃ u, InSession s s.startUndoSession u ∧
      Recorded s.indices.find? u s.startUndoSession.indices.find? :=
  ⟨_, ⟨rfl, rfl, le_rfl, rfl⟩, .start hs _⟩

/-- Undo of a session is exact if and only if no modification of the session threw and no unique
key that a surviving object had at its start is held by an object with a larger id. -/
theorem undo_exact_iff (hs : s.IdsBelowNext) (cs : List (Call V)) :
    (∃ t, (s.startUndoSession.calls cs).undo = .ok t ∧ Agrees s t) ↔
      s.startUndoSession.ModifiesSucceed cs ∧
        ∀ id v other w, s.indices.find? id = some v →
          ((s.startUndoSession.calls cs).indices.find? id).isSome → id < other →
          (s.startUndoSession.calls cs).indices.find? other = some w → ¬ Clash keys v w := by
  obtain ⟨u₀, hstart, hrecorded₀⟩ := startUndoSession_inSession hs
  obtain ⟨u, hsession, hrecorded, hlost⟩ := hstart.calls hs cs
  by_cases hall : s.startUndoSession.ModifiesSucceed cs
  · have hchanges := hrecorded hall hrecorded₀
    have hunique : Unique keys s.indices.find? := s.indices.unique
    rw [and_iff_right hall, ← undo_iff hunique hsession.stack hchanges]
    refine ⟨fun ⟨t, ht, _⟩ ↦ ⟨t, ht⟩, fun ⟨t, ht⟩ ↦ ⟨t, ht, ?_⟩⟩
    obtain ⟨hcontents, hnext, hstack, hrevision⟩ :=
      undo_spec hunique hsession.stack hchanges ht
    refine ⟨hcontents, hnext.trans hsession.oldNextId, hstack, ?_⟩
    rw [hrevision, hsession.revision, add_sub_cancel_right]
  · obtain ⟨id, hid⟩ := hlost (.inl hall)
    have hnot := not_undo_of_lost hsession.stack hid
    exact ⟨fun ⟨t, ht, _⟩ ↦ absurd ⟨t, ht⟩ hnot, fun h ↦ absurd h.1 hall⟩

/-- An index without objects. -/
def empty (keys : V → List κ) : GenericIndex keys where
  indices := ⟨Table.empty, fun _ _ _ _ hv ↦ by cases hv⟩
  nextId := 0
  stack := []
  revision := 0

/-- Two objects with the unique keys 10 and 20. -/
def twoNames : GenericIndex fun name : ℕ ↦ [name] :=
  (empty _).calls [.emplace fun _ ↦ 10, .emplace fun _ ↦ 20]

/-- A session that gives the second object a new key and its old one to no other. -/
theorem undo_exact_after_renaming :
    ∃ t, (twoNames.startUndoSession.calls
      [.modify 1 fun _ ↦ 21, .remove 0, .emplace fun _ ↦ 10]).undo = .ok t ∧
        Agrees twoNames t := by
  have hbelow : twoNames.indices.rows.Forall fun id _ ↦ id < twoNames.nextId := by decide
  have hclear : twoNames.indices.rows.Forall fun id v ↦
      ((twoNames.startUndoSession.calls
        [.modify 1 fun _ ↦ 21, .remove 0, .emplace fun _ ↦ 10]).indices.find? id).isSome →
      (twoNames.startUndoSession.calls
        [.modify 1 fun _ ↦ 21, .remove 0, .emplace fun _ ↦ 10]).indices.rows.Forall
          fun other w ↦ id < other → ¬ Clash (fun name ↦ [name]) v w := by decide
  refine (undo_exact_iff hbelow _).2 ⟨⟨fun v hv ↦ ?_, trivial, trivial, trivial⟩,
    fun id v other w hv hsome hlt hw ↦ hclear id v hv hsome other w hw hlt⟩
  obtain rfl : 20 = v := Option.some.inj hv
  decide

/-- A key handed from one object to a new one, keys exchanged by way of a third one, and a
modification that throws and is caught: none of these sessions can be undone. -/
theorem undo_not_exact :
    twoNames.IdsBelowNext ∧
      (twoNames.startUndoSession.calls
        [.modify 0 fun _ ↦ 11, .emplace fun _ ↦ 10]).undo = .error .uniqueness ∧
      (twoNames.startUndoSession.calls
        [.modify 0 fun _ ↦ 11, .modify 1 fun _ ↦ 10, .modify 0 fun _ ↦ 20]).undo =
          .error .uniqueness ∧
      (twoNames.startUndoSession.calls [.modify 0 fun _ ↦ 20]).undo = .error .pastTheEnd := by
  have hbelow : twoNames.indices.rows.Forall fun id _ ↦ id < twoNames.nextId := by decide
  exact ⟨hbelow, eq_error_of_errorOf (by decide), eq_error_of_errorOf (by decide),
    eq_error_of_errorOf (by decide)⟩

end GenericIndex

end SophiaTX.Chainbase
