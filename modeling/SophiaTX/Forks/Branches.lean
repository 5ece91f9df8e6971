import SophiaTX.Chain.Genesis
import SophiaTX.Forks.ForkDatabase

/-!
# Branches of the fork database

Blocks pushed in order form a tree below the block the fork database was started with. From any
two blocks of it `fetch_branch_from` goes down to two blocks with the same parent.
-/

namespace SophiaTX.Chain

open SophiaTX.Protocol SophiaTX.Lib

namespace ForkDatabase

variable {env : Env} {db db' : ForkDatabase env} {item other parent : ForkItem}
  {root p : BlockId} {b : SignedBlock} {items : List ForkItem}

/-! ## Stored items -/

theorem find?_eq_some : db.index.find? p = some item ↔ item ∈ db.items ∧ item.id env = p := by
  rw [Table.find?_eq_some_iff, items, List.mem_map]
  constructor
  · intro hentry
    exact ⟨⟨_, hentry, rfl⟩, (db.filed _ hentry).symm⟩
  · rintro ⟨⟨entry, hentry, rfl⟩, rfl⟩
    exact db.filed entry hentry ▸ hentry

theorem eq_of_id_eq (hitem : item ∈ db.items) (hother : other ∈ db.items)
    (hid : item.id env = other.id env) : item = other := by
  have hfirst : db.index.find? (other.id env) = some item := find?_eq_some.2 ⟨hitem, hid⟩
  have hsecond : db.index.find? (other.id env) = some other := find?_eq_some.2 ⟨hother, rfl⟩
  exact Option.some.inj (hfirst.symm.trans hsecond)

theorem mem_aliveItems (hitem : item ∈ db.items) : item ∈ db.aliveItems :=
  List.mem_append_left _ (List.mem_append_left _ hitem)

theorem lock_eq_some : db.lock item = some parent ↔
    item.prev = some parent ∧ parent.address ∈ db.aliveItems.map ForkItem.address := by
  rw [lock, Option.filter_eq_some_iff, decide_eq_true_iff]

/-! ## Ancestry -/

/-- `p` is the previous block of the stored block `v`. -/
def Parent (db : ForkDatabase env) (p v : BlockId) : Prop :=
  ∃ item ∈ db.items, item.id env = v ∧ item.previousId = p

theorem graded (db : ForkDatabase env) : Graded db.Parent BlockId.num where
  height_child := by
    rintro p v ⟨item, _, rfl, rfl⟩
    rfl
  parent_unique := by
    rintro p q v ⟨item, hitem, rfl, rfl⟩ ⟨other, hother, hid, rfl⟩
    rw [eq_of_id_eq hitem hother hid.symm]

/-- The parent of every item is stored and can be locked, down to the children of a root. -/
def LinkedTo (db : ForkDatabase env) (root : BlockId) : Prop :=
  ∀ item ∈ db.items, item.previousId = root ∨
    ∃ parent ∈ db.items, db.lock item = some parent ∧ parent.id env = item.previousId

theorem LinkedTo.root_lt (h : db.LinkedTo root) (hitem : item ∈ db.items) :
    root.num < item.num := by
  induction item with
  | unlinked address data =>
    rcases h _ hitem with hroot | ⟨parent, _, hlock, _⟩
    · rw [← hroot, ForkItem.num_eq]
      exact Nat.lt_succ_self _
    · cases (lock_eq_some.1 hlock).1
  | linked address data prev ih =>
    rcases h _ hitem with hroot | ⟨parent, hparent, hlock, hid⟩
    · rw [← hroot, ForkItem.num_eq]
      exact Nat.lt_succ_self _
    · obtain rfl : prev = parent := Option.some.inj (lock_eq_some.1 hlock).1
      calc root.num < prev.num := ih hparent
        _ = (ForkItem.linked address data prev).previousId.num := by
          rw [← ForkItem.num_id env, hid]
        _ < (ForkItem.linked address data prev).num := by
          rw [ForkItem.num_eq]
          exact Nat.lt_succ_self _

/-- Above the children of the root, the parent can be locked. -/
theorem LinkedTo.exists_lock (h : db.LinkedTo root) (hitem : item ∈ db.items)
    (hroot : item.previousId ≠ root) :
    ∃ parent ∈ db.items, db.lock item = some parent ∧ parent.id env = item.previousId :=
  (h item hitem).resolve_left hroot

/-! ## Pushing in order -/

theorem mem_items_insert : other ∈ (db.insert item).items ↔
    other ∈ db.items ∨ other = item ∧ db.index.find? (item.id env) = none := by
  change other ∈ ((db.index.emplace? (item.id env) item).getD db.index).entries.map Prod.snd ↔ _
  cases hinsert : db.index.emplace? (item.id env) item with
  | some index =>
    obtain ⟨hfresh, hentries⟩ := Table.emplace?_eq_some hinsert
    rw [Option.getD_some, hentries, List.map_append, List.mem_append]
    simp [items, hfresh]
  | none =>
    have htaken : db.index.find? (item.id env) ≠ none := by
      intro hfresh
      rw [Table.find?_eq_none_iff] at hfresh
      simp only [Table.emplace?, Table.keys] at hinsert hfresh
      rw [dif_neg hfresh] at hinsert
      cases hinsert
    rw [Option.getD_none]
    simp [items, htaken]

theorem startBlock_linkedTo (b : SignedBlock) :
    (empty.startBlock b : ForkDatabase env).LinkedTo b.previous := by
  intro item hitem
  have hinsert : item ∈ (empty.insert (.unlinked 0 b) : ForkDatabase env).items := hitem
  rcases mem_items_insert.1 hinsert with hempty | ⟨rfl, _⟩
  · cases hempty
  · exact .inl rfl

/-- The item of a block points at a stored item of the parent, or at nothing. -/
theorem itemOf_cases (h : db.itemOf b = .ok item) :
    (item = .unlinked db.nextAddress b ∧ (db.head = none ∨ b.previous = BlockId.null)) ∨
      ∃ parent ∈ db.items, parent.id env = b.previous ∧
        item = .linked db.nextAddress b parent := by
  cases hhead : db.head with
  | none =>
    rw [itemOf, hhead] at h
    exact .inl ⟨(Except.ok.inj h).symm, .inl rfl⟩
  | some top =>
    rw [itemOf, hhead] at h
    simp only [bind_eq_ok] at h
    obtain ⟨_, _, h⟩ := h
    split at h
    · rename_i hnull
      exact .inl ⟨(pure_eq_ok.1 h).symm, .inr hnull⟩
    · cases hfind : db.index.find? b.previous with
      | none =>
        rw [hfind] at h
        cases h
      | some parent =>
        rw [hfind] at h
        obtain ⟨hparent, hid⟩ := find?_eq_some.1 hfind
        exact .inr ⟨parent, hparent, hid, (pure_eq_ok.1 h).symm⟩

theorem LinkedTo.pushBlock {head : ForkItem} (h : db.LinkedTo root) (hhead : db.head = some head)
    (hb : b.previous = BlockId.null → root = BlockId.null) (hpush : db.pushBlock b = .ok db') :
    db'.LinkedTo root := by
  simp only [ForkDatabase.pushBlock, bind_eq_ok, pure_eq_ok] at hpush
  obtain ⟨item, hitem, rfl⟩ := hpush
  have hstored : ∀ other, other ∈ ((db.insert item).setHead (db.newHead item)).items ↔
      other ∈ db.items ∨ other = item ∧ db.index.find? (item.id env) = none :=
    fun other ↦ mem_items_insert
  -- A parent in the index stays alive, whatever becomes of the head.
  have hlocked : ∀ {child parent : ForkItem}, child.prev = some parent → parent ∈ db.items →
      ((db.insert item).setHead (db.newHead item)).lock child = some parent := by
    intro child parent hprev hparent
    refine lock_eq_some.2 ⟨hprev, List.mem_map_of_mem (mem_aliveItems ?_)⟩
    exact (hstored parent).2 (.inl hparent)
  intro other hother
  rcases (hstored other).1 hother with hold | ⟨rfl, _⟩
  · rcases h other hold with hroot | ⟨parent, hparent, hlock, hid⟩
    · exact .inl hroot
    · refine .inr ⟨parent, (hstored parent).2 (.inl hparent), ?_, hid⟩
      exact hlocked (lock_eq_some.1 hlock).1 hparent
  · rcases itemOf_cases hitem with ⟨rfl, hnone | hnull⟩ | ⟨parent, hparent, hid, rfl⟩
    · rw [hhead] at hnone
      cases hnone
    · exact .inl (hnull.trans (hb hnull).symm)
    · exact .inr ⟨parent, (hstored parent).2 (.inl hparent), hlocked rfl hparent, hid⟩

/-- Blocks pushed in order are linked to the parent of the first. -/
theorem linkedTo_of_pushBlocks {blocks : List SignedBlock}
    (hpush : blocks.foldlM pushBlock (empty.startBlock b) = .ok db)
    (hnull : ∀ b' ∈ blocks, b'.previous ≠ BlockId.null) : db.LinkedTo b.previous := by
  have hrun : db.LinkedTo b.previous ∧ ∃ head, db.head = some head := by
    refine foldlM_invariant (I := fun db : ForkDatabase env ↦
      db.LinkedTo b.previous ∧ ∃ head, db.head = some head) ?_ hpush
        ⟨startBlock_linkedTo b, _, rfl⟩
    rintro db b' db' hmem hstep ⟨hlinked, head, hhead⟩
    refine ⟨hlinked.pushBlock hhead (fun heq ↦ absurd heq (hnull b' hmem)) hstep, ?_⟩
    simp only [pushBlock, bind_eq_ok, pure_eq_ok] at hstep
    obtain ⟨item, _, rfl⟩ := hstep
    exact ⟨_, rfl⟩
  exact hrun.1

/-! ## Walks -/

/-- The items from one item down to a child of `p`, each with a pointer to the next. -/
inductive Walk (db : ForkDatabase env) : ForkItem → List ForkItem → BlockId → Prop
  | single {item : ForkItem} (hitem : item ∈ db.items) : Walk db item [item] item.previousId
  | cons {item parent : ForkItem} {items : List ForkItem} {p : BlockId} (hitem : item ∈ db.items)
      (hlock : db.lock item = some parent) (hid : parent.id env = item.previousId)
      (hrest : Walk db parent items p) : Walk db item (item :: items) p

namespace Walk

theorem head?_eq (h : db.Walk item items p) : items.head? = some item := by
  cases h <;> rfl

theorem ne_nil (h : db.Walk item items p) : items ≠ [] := by
  cases h <;> exact List.cons_ne_nil _ _

theorem mem_items (h : db.Walk item items p) (hmem : other ∈ items) : other ∈ db.items := by
  induction h with
  | single hitem => exact List.mem_singleton.1 hmem ▸ hitem
  | cons hitem _ _ _ ih =>
    rcases List.mem_cons.1 hmem with rfl | hmem
    · exact hitem
    · exact ih hmem

theorem branch (h : db.Walk item items p) :
    Branch db.Parent (item.id env) (items.map (ForkItem.id env)) p := by
  induction h with
  | single hitem => exact .single ⟨_, hitem, rfl, rfl⟩
  | cons hitem _ hid _ ih => exact .cons ⟨_, hitem, rfl, hid.symm⟩ ih

theorem isChain (h : db.Walk item items p) :
    items.IsChain fun child parent ↦
      db.lock child = some parent ∧ parent.id env = child.previousId := by
  induction h with
  | single _ => exact .singleton _
  | @cons item parent items p hitem hlock hid hrest ih =>
    cases hrest with
    | single _ => exact .cons_cons ⟨hlock, hid⟩ ih
    | cons _ _ _ _ => exact .cons_cons ⟨hlock, hid⟩ ih

theorem getLast?_eq (h : db.Walk item items p) :
    items.getLast?.map ForkItem.previousId = some p := by
  induction h with
  | single _ => rfl
  | cons _ _ _ hrest ih =>
    cases hrest <;> exact ih

end Walk

/-! ## `fetch_branch_from` -/

theorem level_of_le {num : ℕ} {name : String} (h : item.num ≤ num) :
    db.level num name item = .ok ([], item) := by
  cases item <;> exact if_neg (Nat.not_lt.2 h)

theorem level_of_lock {num : ℕ} {name : String} (h : num < item.num)
    (hlock : db.lock item = some parent) :
    db.level num name item =
      (db.level num name parent).map fun levelled ↦ (item :: levelled.1, levelled.2) := by
  obtain ⟨hprev, halive⟩ := lock_eq_some.1 hlock
  cases item with
  | unlinked _ _ => cases hprev
  | linked address data prev =>
    obtain rfl : prev = parent := Option.some.inj hprev
    have hdata : num < data.blockNum := h
    rw [level, if_pos hdata, fcAssert, if_pos halive]
    cases db.level num name prev <;> rfl

/-- A branch is brought down to the height of another one. -/
theorem LinkedTo.level (h : db.LinkedTo root) {num : ℕ} (hnum : root.num < num) (name : String)
    (hitem : item ∈ db.items) : ∃ passed levelled,
      db.level num name item = .ok (passed, levelled) ∧ levelled ∈ db.items ∧
      levelled.num = min item.num num ∧ (item.num ≤ num → levelled = item) ∧
      ∀ items p, db.Walk levelled items p → db.Walk item (passed ++ items) p := by
  induction item with
  | unlinked address data =>
    have hroot : (ForkItem.unlinked address data).previousId = root := by
      refine (h _ hitem).resolve_right ?_
      rintro ⟨parent, _, hlock, _⟩
      cases (lock_eq_some.1 hlock).1
    have hle : (ForkItem.unlinked address data).num ≤ num := by
      rw [ForkItem.num_eq, hroot]
      exact hnum
    exact ⟨[], _, level_of_le hle, hitem, (min_eq_left hle).symm, fun _ ↦ rfl, fun _ _ hw ↦ hw⟩
  | linked address data prev ih =>
    rcases Nat.lt_or_ge num (ForkItem.linked address data prev).num with hlt | hle
    · have hroot : (ForkItem.linked address data prev).previousId ≠ root := by
        intro hroot
        rw [ForkItem.num_eq, hroot] at hlt
        omega
      obtain ⟨parent, hparent, hlock, hid⟩ := h.exists_lock hitem hroot
      obtain rfl : prev = parent := Option.some.inj (lock_eq_some.1 hlock).1
      obtain ⟨passed, levelled, hlevel, hmem, hheight, _, hwalk⟩ := ih hparent
      have hprev : (ForkItem.linked address data prev).num = prev.num + 1 := by
        rw [ForkItem.num_eq, ← hid, ForkItem.num_id]
      refine ⟨.linked address data prev :: passed, levelled, ?_, hmem, ?_,
        fun hle ↦ absurd hlt (Nat.not_lt.2 hle), ?_⟩
      · rw [level_of_lock hlt hlock, hlevel]
        rfl
      · omega
      · intro items p hw
        exact .cons hitem hlock hid (hwalk items p hw)
    · exact ⟨[], _, level_of_le hle, hitem, (min_eq_left hle).symm, fun _ ↦ rfl, fun _ _ hw ↦ hw⟩

theorem descend_of_eq (h : item.previousId = other.previousId) :
    db.descend item other = .ok ([item], [other]) := by
  cases item <;> exact if_pos h

theorem descend_of_lock {otherParent : ForkItem} (h : item.previousId ≠ other.previousId)
    (hlock : db.lock item = some parent) (hotherLock : db.lock other = some otherParent) :
    db.descend item other = (db.descend parent otherParent).map fun branches ↦
      (item :: branches.1, other :: branches.2) := by
  obtain ⟨hprev, halive⟩ := lock_eq_some.1 hlock
  cases item with
  | unlinked _ _ => cases hprev
  | linked address data prev =>
    obtain rfl : prev = parent := Option.some.inj hprev
    have hdata : data.previous ≠ other.previousId := h
    rw [ForkDatabase.descend, if_neg hdata, hotherLock, fcAssert, if_pos halive, ok_bind]
    dsimp only
    cases db.descend prev otherParent <;> rfl

/-- Items of one height whose parents differ both have a parent to go on from. -/
theorem LinkedTo.exists_locks (h : db.LinkedTo root) (hitem : item ∈ db.items)
    (hother : other ∈ db.items) (hnum : item.num = other.num)
    (hne : item.previousId ≠ other.previousId) : ∃ parent ∈ db.items, ∃ otherParent ∈ db.items,
      db.lock item = some parent ∧ parent.id env = item.previousId ∧
      db.lock other = some otherParent ∧ otherParent.id env = other.previousId := by
  -- A parent as high as the root is not stored, so an item below the root has no such sibling.
  have habove : ∀ {child sibling : ForkItem}, child ∈ db.items → sibling ∈ db.items →
      child.num = sibling.num → child.previousId ≠ sibling.previousId →
      child.previousId ≠ root := by
    intro child sibling hchild hsibling hnum hne hroot
    obtain ⟨parent, hparent, _, hid⟩ := h.exists_lock hsibling fun heq ↦
      hne (hroot.trans heq.symm)
    have hlower := h.root_lt hparent
    rw [← ForkItem.num_id env, hid] at hlower
    rw [ForkItem.num_eq, ForkItem.num_eq, hroot] at hnum
    omega
  obtain ⟨parent, hparent, hlock, hid⟩ := h.exists_lock hitem (habove hitem hother hnum hne)
  obtain ⟨otherParent, hotherParent, hotherLock, hotherId⟩ :=
    h.exists_lock hother (habove hother hitem hnum.symm hne.symm)
  exact ⟨parent, hparent, otherParent, hotherParent, hlock, hid, hotherLock, hotherId⟩

/-- From one height, two branches go down to children of one block; from different blocks, they
end in different ones. -/
theorem LinkedTo.descend (h : db.LinkedTo root) (hitem : item ∈ db.items)
    (hother : other ∈ db.items) (hnum : item.num = other.num) : ∃ firsts seconds p,
      db.descend item other = .ok (firsts, seconds) ∧ db.Walk item firsts p ∧
      db.Walk other seconds p ∧ (item ≠ other → firsts.getLast? ≠ seconds.getLast?) := by
  induction item generalizing other with
  | unlinked address data =>
    by_cases heq : (ForkItem.unlinked address data).previousId = other.previousId
    · refine ⟨_, _, _, descend_of_eq heq, .single hitem, heq ▸ .single hother, fun hne hlast ↦ ?_⟩
      exact hne (Option.some.inj hlast)
    · obtain ⟨_, _, _, _, hlock, _⟩ := h.exists_locks hitem hother hnum heq
      cases (lock_eq_some.1 hlock).1
  | linked address data prev ih =>
    by_cases heq : (ForkItem.linked address data prev).previousId = other.previousId
    · refine ⟨_, _, _, descend_of_eq heq, .single hitem, heq ▸ .single hother, fun hne hlast ↦ ?_⟩
      exact hne (Option.some.inj hlast)
    · obtain ⟨parent, hparent, otherParent, hotherParent, hlock, hid, hotherLock, hotherId⟩ :=
        h.exists_locks hitem hother hnum heq
      obtain rfl : prev = parent := Option.some.inj (lock_eq_some.1 hlock).1
      have hheight : prev.num = otherParent.num := by
        have hparents : prev.num + 1 = otherParent.num + 1 := by
          calc prev.num + 1 = (ForkItem.linked address data prev).num := by
                rw [ForkItem.num_eq (.linked address data prev), ← hid, ForkItem.num_id]
            _ = otherParent.num + 1 := by
                rw [hnum, ForkItem.num_eq, ← hotherId, ForkItem.num_id]
        exact Nat.succ.inj hparents
      have hne : prev ≠ otherParent := by
        rintro rfl
        exact heq (hid.symm.trans hotherId)
      obtain ⟨firsts, seconds, p, hdescend, hfirst, hsecond, hlast⟩ :=
        ih hparent hotherParent hheight
      refine ⟨.linked address data prev :: firsts, other :: seconds, p, ?_,
        .cons hitem hlock hid hfirst, .cons hother hotherLock hotherId hsecond, fun _ ↦ ?_⟩
      · rw [descend_of_lock heq hlock hotherLock, hdescend]
        rfl
      · rw [List.getLast?_cons_of_ne_nil hfirst.ne_nil, List.getLast?_cons_of_ne_nil hsecond.ne_nil]
        exact hlast hne

namespace Walk

variable {other : ForkItem} {firsts seconds : List ForkItem}

theorem num_eq (h : db.Walk item items p) : item.num = p.num + items.length := by
  induction h with
  | single _ => exact ForkItem.num_eq _
  | @cons item parent items p _ _ hid _ ih =>
    have hparent : item.num = parent.num + 1 := by
      rw [ForkItem.num_eq, ← hid, ForkItem.num_id]
    rw [hparent, ih, List.length_cons, Nat.add_assoc]

/-- Counted from its end, the blocks of a walk are numbered on from `p`. -/
theorem numbered (h : db.Walk item items p) {n : ℕ} {id : BlockId}
    (hid : (items.map (ForkItem.id env)).reverse[n]? = some id) : id.num = p.num + n + 1 := by
  induction h with
  | @single item _ =>
    rw [List.map_singleton, List.reverse_singleton, List.getElem?_singleton] at hid
    split at hid
    · rename_i hzero
      obtain rfl := Option.some.inj hid
      rw [ForkItem.num_id, ForkItem.num_eq, hzero]
    · cases hid
  | @cons item parent items p hitem hlock hidp hrest ih =>
    rw [List.map_cons, List.reverse_cons, List.getElem?_append, List.length_reverse,
      List.length_map] at hid
    split at hid
    · exact ih hid
    · rw [List.getElem?_singleton] at hid
      split at hid
      · obtain rfl := Option.some.inj hid
        have hnum := (Walk.cons hitem hlock hidp hrest).num_eq
        rw [List.length_cons] at hnum
        rw [ForkItem.num_id]
        omega
      · cases hid

/-- A walk is brought down to any height above its end. -/
theorem level (h : db.Walk item items p) {num : ℕ} (hnum : p.num < num) (name : String) :
    ∃ passed rest levelled, db.level num name item = .ok (passed, levelled) ∧
      items = passed ++ rest ∧ db.Walk levelled rest p ∧ levelled.num = min item.num num := by
  induction h with
  | @single item hitem =>
    have hle : item.num ≤ num := by
      rw [ForkItem.num_eq]
      exact hnum
    exact ⟨[], [item], item, level_of_le hle, rfl, .single hitem, (min_eq_left hle).symm⟩
  | @cons item parent items p hitem hlock hid hrest ih =>
    rcases Nat.lt_or_ge num item.num with hlt | hle
    · obtain ⟨passed, rest, levelled, hlevel, rfl, hwalk, hheight⟩ := ih hnum
      refine ⟨item :: passed, rest, levelled, ?_, rfl, hwalk, ?_⟩
      · rw [level_of_lock hlt hlock, hlevel]
        rfl
      · have hparent : item.num = parent.num + 1 := by
          rw [ForkItem.num_eq, ← hid, ForkItem.num_id]
        omega
    · exact ⟨[], item :: items, item, level_of_le hle, rfl, .cons hitem hlock hid hrest,
        (min_eq_left hle).symm⟩

/-- A walk ends below its item, or goes on from the parent. -/
theorem cases_eq (h : db.Walk item items p) :
    item.previousId = p ∧ items = [item] ∨ ∃ parent rest, item.previousId ≠ p ∧
      db.lock item = some parent ∧ parent.id env = item.previousId ∧ items = item :: rest ∧
      db.Walk parent rest p := by
  cases h with
  | single _ => exact .inl ⟨rfl, rfl⟩
  | @cons _ parent rest _ _ hlock hid hrest =>
    refine .inr ⟨parent, rest, fun hp ↦ ?_, hlock, hid, rfl, hrest⟩
    have hparent := hrest.num_eq
    have hlength := List.length_pos_iff.2 hrest.ne_nil
    rw [← hp, ← hid, ForkItem.num_id] at hparent
    omega

/-- From one height, two walks without a common item are gone down to their end. -/
theorem descend (h : db.Walk item firsts p) (h' : db.Walk other seconds p)
    (hnum : item.num = other.num) (hdisjoint : firsts.Disjoint seconds) :
    db.descend item other = .ok (firsts, seconds) := by
  have hlengths : firsts.length = seconds.length := by
    have hfirst := h.num_eq
    have hsecond := h'.num_eq
    omega
  induction firsts generalizing item other seconds with
  | nil => exact absurd rfl h.ne_nil
  | cons first firsts ih =>
    rcases h.cases_eq with ⟨hp, hfirsts⟩ | ⟨parent, rest, hne, hlock, hid, hfirsts, hrest⟩
    · rcases h'.cases_eq with ⟨hp', rfl⟩ | ⟨_, rest', _, _, _, rfl, hrest'⟩
      · rw [hfirsts]
        exact descend_of_eq (hp.trans hp'.symm)
      · have hlong := List.length_pos_iff.2 hrest'.ne_nil
        rw [hfirsts, List.length_singleton, List.length_cons] at hlengths
        omega
    · obtain ⟨rfl, rfl⟩ := List.cons.inj hfirsts
      rcases h'.cases_eq with ⟨_, rfl⟩ | ⟨parent', rest', _, hlock', hid', rfl, hrest'⟩
      · have hlong := List.length_pos_iff.2 hrest.ne_nil
        rw [List.length_singleton, List.length_cons] at hlengths
        omega
      · rw [List.disjoint_cons_left, List.disjoint_cons_right] at hdisjoint
        have hheads : first.previousId ≠ other.previousId := by
          intro heq
          have hsame : parent = parent' := eq_of_id_eq
            (hrest.mem_items (List.mem_of_mem_head? hrest.head?_eq))
            (hrest'.mem_items (List.mem_of_mem_head? hrest'.head?_eq))
            (hid.trans (heq.trans hid'.symm))
          have hmem' : parent ∈ rest' := hsame ▸ List.mem_of_mem_head? hrest'.head?_eq
          exact hdisjoint.2.2 (List.mem_of_mem_head? hrest.head?_eq) hmem'
        have hparents : parent.num = parent'.num := by
          rw [← ForkItem.num_id env parent, ← ForkItem.num_id env parent', hid, hid']
          exact Nat.succ.inj hnum
        rw [descend_of_lock hheads hlock hlock', ih hrest hrest' hparents hdisjoint.2.2
          (Nat.succ.inj hlengths)]
        rfl

/-- `fetch_branch_from` finds two walks that go down to one block and share none before. -/
theorem fetchBranchFrom_eq (h : db.Walk item firsts p) (h' : db.Walk other seconds p)
    (hdisjoint : firsts.Disjoint seconds) :
    db.fetchBranchFrom (item.id env) (other.id env) = .ok (firsts, seconds) := by
  have hitem : item ∈ db.items := h.mem_items (List.mem_of_mem_head? h.head?_eq)
  have hother : other ∈ db.items := h'.mem_items (List.mem_of_mem_head? h'.head?_eq)
  have habove : ∀ {item items}, db.Walk item items p → p.num < item.num := by
    intro item items hwalk
    have hlength := List.length_pos_iff.2 hwalk.ne_nil
    have hnum := hwalk.num_eq
    omega
  obtain ⟨passed, rest, first, hlevel, rfl, hfirst, hnum⟩ :=
    h.level (habove h') "first_branch"
  obtain ⟨passed', rest', second, hlevel', rfl, hsecond, hnum'⟩ :=
    h'.level (habove hfirst) "second_branch"
  have hheight : first.num = second.num := by omega
  have hrest : rest.Disjoint rest' := fun x hx hx' ↦
    hdisjoint (List.mem_append_right _ hx) (List.mem_append_right _ hx')
  rw [fetchBranchFrom, find?_eq_some.2 ⟨hitem, rfl⟩, find?_eq_some.2 ⟨hother, rfl⟩]
  simp only [hlevel, hlevel', hfirst.descend hsecond hheight hrest, ok_bind]
  rfl

end Walk

/-- The items of a branch: it starts at a block, each item is the parent of the one before, and `p`
is the previous block of the last. -/
structure IsBranch (db : ForkDatabase env) (start : BlockId) (items : List ForkItem)
    (p : BlockId) : Prop where
  head : items.head?.map (ForkItem.id env) = some start
  step : items.IsChain fun child parent ↦
    db.lock child = some parent ∧ parent.id env = child.previousId
  last : items.getLast?.map ForkItem.previousId = some p

theorem Walk.isBranch (h : db.Walk item items p) : db.IsBranch (item.id env) items p where
  head := by rw [h.head?_eq, Option.map_some]
  step := h.isChain
  last := h.getLast?_eq

theorem isKnownBlock_iff : db.isKnownBlock p = true ↔ ∃ item ∈ db.items, item.id env = p := by
  rw [isKnownBlock, fetchBlock, Option.isSome_iff_exists]
  exact exists_congr fun item ↦ find?_eq_some

theorem fetch_branch_from_meets (h : db.LinkedTo root) {first second : BlockId}
    (hfirst : db.isKnownBlock first = true) (hsecond : db.isKnownBlock second = true) :
    ∃ firsts seconds p, db.fetchBranchFrom first second = .ok (firsts, seconds) ∧
      db.IsBranch first firsts p ∧ db.IsBranch second seconds p ∧
      (¬ Ancestor db.Parent first second → ¬ Ancestor db.Parent second first →
        MostRecentCommonAncestor db.Parent first second p ∧
        ∀ x ∈ firsts, ∀ y ∈ seconds, x.id env ≠ y.id env) := by
  obtain ⟨item, hitem, rfl⟩ := isKnownBlock_iff.1 hfirst
  obtain ⟨other, hother, rfl⟩ := isKnownBlock_iff.1 hsecond
  obtain ⟨passed, levelled, hlevel, hmem, hheight, hstay, hwalk⟩ :=
    h.level (h.root_lt hother) "first_branch" hitem
  obtain ⟨passed', levelled', hlevel', hmem', hheight', hstay', hwalk'⟩ :=
    h.level (h.root_lt hmem) "second_branch" hother
  have hsame : levelled.num = levelled'.num := by omega
  obtain ⟨firsts, seconds, p, hdescend, hfirsts, hseconds, hlast⟩ := h.descend hmem hmem' hsame
  have hleft : db.Walk item (passed ++ firsts) p := hwalk firsts p hfirsts
  have hright : db.Walk other (passed' ++ seconds) p := hwalk' seconds p hseconds
  refine ⟨passed ++ firsts, passed' ++ seconds, p, ?_, hleft.isBranch, hright.isBranch, ?_⟩
  · rw [fetchBranchFrom, find?_eq_some.2 ⟨hitem, rfl⟩, find?_eq_some.2 ⟨hother, rfl⟩]
    simp only [hlevel, hlevel', hdescend, ok_bind]
    rfl
  intro hnotAbove hnotBelow
  -- One of the two blocks is where its branch was levelled, so the other does not come to it.
  have hne : levelled ≠ levelled' := by
    intro heq
    rcases Nat.le_total item.num other.num with hle | hle
    · have hpath := hwalk' _ _ (.single hmem')
      refine hnotAbove (hpath.branch.mem_ancestor ?_)
      rw [← hstay hle, heq]
      exact List.mem_map_of_mem (List.mem_append_right _ List.mem_cons_self)
    · have hpath := hwalk _ _ (.single hmem)
      refine hnotBelow (hpath.branch.mem_ancestor ?_)
      rw [← hstay' (by omega), ← heq]
      exact List.mem_map_of_mem (List.mem_append_right _ List.mem_cons_self)
  have hends : ((passed ++ firsts).map (ForkItem.id env)).getLast? ≠
      ((passed' ++ seconds).map (ForkItem.id env)).getLast? := by
    rw [List.getLast?_map, List.getLast?_map, List.getLast?_append_of_ne_nil _ hfirsts.ne_nil,
      List.getLast?_append_of_ne_nil _ hseconds.ne_nil]
    intro hids
    obtain ⟨x, hx⟩ := Option.ne_none_iff_exists'.1 fun hnone ↦
      hfirsts.ne_nil (List.getLast?_eq_none_iff.1 hnone)
    obtain ⟨y, hy⟩ := Option.ne_none_iff_exists'.1 fun hnone ↦
      hseconds.ne_nil (List.getLast?_eq_none_iff.1 hnone)
    rw [hx, hy] at hids
    have hxy : x = y := eq_of_id_eq (hfirsts.mem_items (List.mem_of_getLast? hx))
      (hseconds.mem_items (List.mem_of_getLast? hy)) (Option.some.inj hids)
    exact hlast hne (by rw [hx, hy, hxy])
  have hdisjoint := hleft.branch.disjoint hright.branch db.graded hends
  refine ⟨hleft.branch.mostRecentCommonAncestor hright.branch db.graded hdisjoint, ?_⟩
  intro x hx y hy hid
  refine hdisjoint (List.mem_map_of_mem hx) ?_
  rw [hid]
  exact List.mem_map_of_mem hy

/-- A short branch and a longer one above block 5. -/
def forkedBlocks : List SignedBlock :=
  [devBlock ⟨5, 1007⟩ 2 [], devBlock ⟨5, 1007⟩ 3 [], devBlock ⟨6, 2007⟩ 4 [],
    devBlock ⟨7, 4007⟩ 5 []]

theorem fetch_branch_from_meets_on_forked_blocks :
    ∃ db : ForkDatabase devEnv, ∃ firsts seconds p,
      forkedBlocks.foldlM pushBlock (empty.startBlock (devBlock ⟨4, 7⟩ 1 [])) = .ok db ∧
      db.fetchBranchFrom ⟨8, 5007⟩ ⟨6, 3007⟩ = .ok (firsts, seconds) ∧
      db.IsBranch ⟨8, 5007⟩ firsts p ∧ db.IsBranch ⟨6, 3007⟩ seconds p := by
  have hok : okAnd (forkedBlocks.foldlM pushBlock
      (empty.startBlock (devBlock ⟨4, 7⟩ 1 []) : ForkDatabase devEnv)) (fun db ↦
        db.isKnownBlock ⟨8, 5007⟩ && db.isKnownBlock ⟨6, 3007⟩) = true := by decide +kernel
  obtain ⟨db, hdb, hknown⟩ := exists_of_okAnd hok
  rw [Bool.and_eq_true] at hknown
  have hlinked : db.LinkedTo ⟨4, 7⟩ := linkedTo_of_pushBlocks hdb (by decide)
  obtain ⟨firsts, seconds, p, hfetch, hfirsts, hseconds, _⟩ :=
    fetch_branch_from_meets hlinked hknown.1 hknown.2
  exact ⟨db, firsts, seconds, p, hdb, hfetch, hfirsts, hseconds⟩

end ForkDatabase

end SophiaTX.Chain
