import SophiaTX.Forks.Lineage

/-!
# Changes of the fork database

What a push adds, and what a removal and a smaller window drop. Items stay well linked.
-/

namespace SophiaTX.Chain

open SophiaTX.Protocol SophiaTX.Lib

namespace ForkItem

/-- The item and those that its pointers lead to. -/
def line : ForkItem → List ForkItem
  | unlinked address data => [unlinked address data]
  | linked address data prev => linked address data prev :: prev.line

theorem mem_line_self (item : ForkItem) : item ∈ item.line := by
  cases item <;> exact List.mem_cons_self

theorem mem_line_trans {item other start : ForkItem} (h : item ∈ other.line)
    (hother : other ∈ start.line) : item ∈ start.line := by
  induction start with
  | unlinked address data =>
    obtain rfl := List.mem_singleton.1 hother
    exact h
  | linked address data prev ih =>
    rcases List.mem_cons.1 hother with rfl | hother
    · exact h
    · exact List.mem_cons_of_mem _ (ih hother)

theorem mem_line_of_prev {item prev : ForkItem} (h : item.prev = some prev) : prev ∈ item.line := by
  cases item with
  | unlinked address data => cases h
  | linked address data parent =>
    obtain rfl := Option.some.inj h
    exact List.mem_cons_of_mem _ parent.mem_line_self

theorem ne_of_prev {item prev : ForkItem} (h : item.prev = some prev) : prev ≠ item := by
  rintro rfl
  cases prev with
  | unlinked address data => cases h
  | linked address data parent =>
    have hsize := congrArg sizeOf (Option.some.inj h)
    simp at hsize

/-- Numbers fall along a line. -/
theorem WellLinked.eq_or_num_lt {env : Env} {blocks : Set SignedBlock} {item other : ForkItem}
    (h : item.WellLinked env blocks) (hother : other ∈ item.line) :
    other = item ∨ other.num < item.num := by
  induction item with
  | unlinked address data => exact .inl (List.mem_singleton.1 hother)
  | linked address data prev ih =>
    have hprev : prev.num + 1 = (ForkItem.linked address data prev).num := h.num_prev rfl
    rcases List.mem_cons.1 hother with rfl | hother
    · exact .inl rfl
    · rcases ih h.2.2 hother with rfl | hlt
      · exact .inr (by omega)
      · exact .inr (by omega)

/-- The lines of two items of one block have the same blocks. -/
theorem id_eq_of_line {env : Env} {blocks : Set SignedBlock} {first second x y : ForkItem}
    (hparent : SeparatesParents env blocks) (hfirst : first.WellLinked env blocks)
    (hsecond : second.WellLinked env blocks) (hid : first.id env = second.id env)
    (hx : x ∈ first.line) (hy : y ∈ second.line) (hnum : x.num = y.num) :
    x.id env = y.id env := by
  have hheight : ∀ {first second : ForkItem}, first.id env = second.id env →
      first.num = second.num := fun hid ↦ congrArg BlockId.num hid
  have hends : ∀ {first second y : ForkItem}, second.WellLinked env blocks →
      first.id env = second.id env → y ∈ second.line → first.num = y.num →
        first.id env = y.id env := by
    intro first second y hsecond hid hy hnum
    rcases hsecond.eq_or_num_lt hy with rfl | hlt
    · exact hid
    · have hsame := hheight hid
      omega
  induction first generalizing second with
  | unlinked address data =>
    obtain rfl := List.mem_singleton.1 hx
    exact hends hsecond hid hy hnum
  | linked address data prev ih =>
    rcases List.mem_cons.1 hx with rfl | hx
    · exact hends hsecond hid hy hnum
    · have hprev : prev.num + 1 = (ForkItem.linked address data prev).num := hfirst.num_prev rfl
      have hbelow : x.num ≤ prev.num := by
        rcases hfirst.2.2.eq_or_num_lt hx with rfl | hlt
        · exact le_rfl
        · exact hlt.le
      have hsame := hheight hid
      cases second with
      | unlinked address' data' =>
        obtain rfl := List.mem_singleton.1 hy
        omega
      | linked address' data' prev' =>
        rcases List.mem_cons.1 hy with rfl | hy
        · omega
        · apply ih hfirst.2.2 hsecond.2.2 _ hx hy
          calc prev.id env = data.previous := hfirst.2.1
            _ = data'.previous := hparent data hfirst.made data' hsecond.made hid
            _ = prev'.id env := hsecond.2.1.symm

end ForkItem

namespace ForkDatabase

variable {env : Env} {blocks : Set SignedBlock} {db db' : ForkDatabase env}
  {item top : ForkItem} {b : SignedBlock} {id : BlockId}

theorem mem_items_filterItems {p : BlockId → ForkItem → Bool} :
    item ∈ (db.filterItems p).items ↔ item ∈ db.items ∧ p (item.id env) item = true := by
  have hentries : (db.filterItems p).items =
      (db.index.entries.filter fun entry ↦ p entry.1 entry.2).map Prod.snd := rfl
  rw [hentries, items, List.mem_map, List.mem_map]
  constructor
  · rintro ⟨entry, hentry, rfl⟩
    rw [List.mem_filter] at hentry
    exact ⟨⟨entry, hentry.1, rfl⟩, db.filed entry hentry.1 ▸ hentry.2⟩
  · rintro ⟨⟨entry, hentry, rfl⟩, hp⟩
    exact ⟨entry, List.mem_filter.2 ⟨hentry, db.filed entry hentry ▸ hp⟩, rfl⟩

theorem setMaxSize_eq {size : ℕ} (hhead : db.head = some top) :
    db.setMaxSize size = ({ db with maxSize := size }).filterItems fun _ item ↦
      decide (({ db with maxSize := size }).oldest top ≤ item.num) := by
  rw [setMaxSize]
  simp only [hhead]

theorem mem_items_setMaxSize {size : ℕ} (hhead : db.head = some top) :
    item ∈ (db.setMaxSize size).items ↔
      item ∈ db.items ∧ max 0 ((top.num : ℤ) - size) ≤ item.num := by
  rw [setMaxSize_eq hhead, mem_items_filterItems, decide_eq_true_iff]
  rfl

/-- A block that is not too low stays known. -/
theorem isKnownBlock_setMaxSize {size : ℕ} (hhead : db.head = some top)
    (hsize : max 0 ((top.num : ℤ) - size) ≤ id.num) (hknown : db.isKnownBlock id = true) :
    (db.setMaxSize size).isKnownBlock id = true := by
  obtain ⟨item, hitem, rfl⟩ := isKnownBlock_iff.1 hknown
  exact isKnownBlock_iff.2 ⟨item, (mem_items_setMaxSize hhead).2 ⟨hitem, hsize⟩, rfl⟩

theorem mem_items_of_setMaxSize {size : ℕ} (h : item ∈ (db.setMaxSize size).items) :
    item ∈ db.items := by
  cases hhead : db.head with
  | none =>
    rw [setMaxSize] at h
    simp only [hhead] at h
    exact h
  | some top => exact ((mem_items_setMaxSize hhead).1 h).1

theorem head_setMaxSize (size : ℕ) : (db.setMaxSize size).head = db.head := by
  rw [setMaxSize]
  cases db.head <;> rfl

/-- What a push adds to the fork database. -/
theorem pushBlock_eq_ok (h : db.pushBlock b = .ok db') : ∃ item, db.itemOf b = .ok item ∧
    db'.head = some (db.newHead item) ∧ db'.maxSize = db.maxSize ∧
    ∀ other, other ∈ db'.items ↔
      other ∈ db.items ∨ other = item ∧ db.index.find? (item.id env) = none := by
  simp only [pushBlock, bind_eq_ok, pure_eq_ok] at h
  obtain ⟨item, hitem, rfl⟩ := h
  exact ⟨item, hitem, rfl, rfl, fun other ↦ mem_items_insert⟩

theorem oldest_lt_of_itemOf (hhead : db.head = some top) (h : db.itemOf b = .ok item) :
    db.oldest top < b.blockNum := by
  rw [itemOf, hhead] at h
  simp only [bind_eq_ok, fcAssert_eq_ok] at h
  obtain ⟨_, holdest, _⟩ := h
  exact holdest

/-- A block on a stored parent is taken unless it is too old. -/
theorem exists_pushBlock (hhead : db.head = some top) (hrecent : db.oldest top < b.blockNum)
    (hknown : db.isKnownBlock b.previous = true) : ∃ db', db.pushBlock b = .ok db' := by
  obtain ⟨parent, hparent⟩ := Option.isSome_iff_exists.1 hknown
  obtain ⟨item, hitem⟩ : ∃ item, db.itemOf b = .ok item := by
    rw [itemOf, hhead]
    simp only [fcAssert, if_pos hrecent]
    by_cases hnull : b.previous = BlockId.null
    · exact ⟨_, if_pos hnull⟩
    · refine ⟨.linked db.nextAddress b parent, ?_⟩
      have hfind : db.index.find? b.previous = some parent := hparent
      rw [if_neg hnull, hfind]
      rfl
  refine ⟨(db.insert item).setHead (db.newHead item), ?_⟩
  rw [pushBlock, hitem]
  rfl

theorem held_pushBlock (h : db.pushBlock b = .ok db') : db'.held = db.held := by
  simp only [pushBlock, bind_eq_ok, pure_eq_ok] at h
  obtain ⟨_, _, rfl⟩ := h
  rfl

theorem itemOf_data (h : db.itemOf b = .ok item) : item.data = b := by
  rcases itemOf_cases h with ⟨rfl, _⟩ | ⟨_, _, _, rfl⟩ <;> rfl

theorem WellLinked.itemOf (hdb : db.WellLinked blocks) (hb : b ∈ blocks)
    (h : db.itemOf b = .ok item) : item.WellLinked env blocks := by
  rcases itemOf_cases h with ⟨rfl, _⟩ | ⟨parent, hparent, hid, rfl⟩
  · exact hb
  · exact ⟨hb, hid, hdb.items parent hparent⟩

theorem newHead_of_above (h : ∀ top, db.head = some top → top.num < item.num) :
    db.newHead item = item := by
  rw [newHead]
  cases hhead : db.head with
  | none => rfl
  | some top =>
    dsimp only
    rw [if_pos (h top hhead)]

theorem newHead_cases (item : ForkItem) {other : ForkItem}
    (h : some (db.newHead item) = some other) : other = item ∨ db.head = some other := by
  obtain rfl := Option.some.inj h
  rw [newHead]
  cases hhead : db.head with
  | none => exact .inl rfl
  | some top =>
    dsimp only
    split
    · exact .inl rfl
    · exact .inr rfl

/-- A block that comes no higher than the head leaves it. -/
theorem head_pushBlock_of_le (hpush : db.pushBlock b = .ok db') (hhead : db.head = some top)
    (hle : b.blockNum ≤ top.num) : db'.head = some top := by
  obtain ⟨item, hitem, hnew, _, _⟩ := pushBlock_eq_ok hpush
  have hnum : item.num = b.blockNum := by
    rw [ForkItem.num, itemOf_data hitem]
  rw [hnew, newHead, hhead]
  dsimp only
  rw [if_neg (Nat.not_lt.2 (hnum ▸ hle))]

theorem WellLinked.newHead (hdb : db.WellLinked blocks) (hitem : item.WellLinked env blocks) :
    (db.newHead item).WellLinked env blocks := by
  rw [ForkDatabase.newHead]
  cases hhead : db.head with
  | none => exact hitem
  | some top =>
    dsimp only
    split
    · exact hitem
    · exact hdb.head top hhead

theorem WellLinked.pushBlock (hdb : db.WellLinked blocks) (hb : b ∈ blocks)
    (h : db.pushBlock b = .ok db') : db'.WellLinked blocks := by
  obtain ⟨item, hitem, hhead, _, hitems⟩ := pushBlock_eq_ok h
  have hlinked := hdb.itemOf hb hitem
  constructor
  · intro other hother
    rcases (hitems other).1 hother with hold | ⟨rfl, _⟩
    · exact hdb.items other hold
    · exact hlinked
  · intro other hother
    rw [hhead, Option.some.injEq] at hother
    exact hother ▸ hdb.newHead hlinked

theorem WellLinked.mono (hdb : db.WellLinked blocks)
    (hitems : ∀ item ∈ db'.items, item ∈ db.items) (hhead : db'.head = db.head) :
    db'.WellLinked blocks :=
  ⟨fun item hitem ↦ hdb.items item (hitems item hitem),
    fun item hitem ↦ hdb.head item (hhead ▸ hitem)⟩

theorem isKnownBlock_of_pushBlock (h : db.pushBlock b = .ok db')
    (hknown : db.isKnownBlock id = true) : db'.isKnownBlock id = true := by
  obtain ⟨_, _, _, _, hitems⟩ := pushBlock_eq_ok h
  obtain ⟨item, hitem, hid⟩ := isKnownBlock_iff.1 hknown
  exact isKnownBlock_iff.2 ⟨item, (hitems item).2 (.inl hitem), hid⟩

/-- A pushed block is stored. -/
theorem isKnownBlock_pushBlock (h : db.pushBlock b = .ok db') :
    db'.isKnownBlock (env.blockId b) = true := by
  obtain ⟨item, hitem, _, _, hitems⟩ := pushBlock_eq_ok h
  have hid : item.id env = env.blockId b := by rw [ForkItem.id, itemOf_data hitem]
  rw [isKnownBlock_iff]
  cases hfind : db.index.find? (item.id env) with
  | none => exact ⟨item, (hitems item).2 (.inr ⟨rfl, hfind⟩), hid⟩
  | some old =>
    obtain ⟨hold, holdId⟩ := find?_eq_some.1 hfind
    exact ⟨old, (hitems old).2 (.inl hold), holdId.trans hid⟩

/-! ## Stored parents -/

/-- The item is stored, or it is the head. -/
def Has (db : ForkDatabase env) (item : ForkItem) : Prop := item ∈ db.items ∨ db.head = some item

/-- The parents of the items are stored above a height. -/
def Connected (db : ForkDatabase env) (limit : ℕ) : Prop :=
  ∀ item parent, db.Has item → item.prev = some parent → limit < parent.num → parent ∈ db.items

/-- The items without a parent are no higher than the first block above a height. -/
def Rooted (db : ForkDatabase env) (limit : ℕ) : Prop :=
  ∀ item, db.Has item → item.prev = none → item.num ≤ max 1 limit

variable {limit limit' : ℕ}

theorem has_pushBlock (h : db.pushBlock b = .ok db') : ∃ pushed, db.itemOf b = .ok pushed ∧
    ∀ item, db'.Has item → db.Has item ∨ item = pushed := by
  obtain ⟨pushed, hpushed, hhead, _, hitems⟩ := pushBlock_eq_ok h
  refine ⟨pushed, hpushed, fun item hitem ↦ ?_⟩
  rcases hitem with hstored | htop
  · rcases (hitems item).1 hstored with hold | ⟨rfl, _⟩
    · exact .inl (.inl hold)
    · exact .inr rfl
  · rw [hhead] at htop
    exact (newHead_cases pushed htop).symm.imp_left .inr

theorem Connected.pushBlock (h : db.Connected limit) (hpush : db.pushBlock b = .ok db') :
    db'.Connected limit := by
  obtain ⟨_, _, _, _, hitems⟩ := pushBlock_eq_ok hpush
  obtain ⟨pushed, hpushed, hhas⟩ := has_pushBlock hpush
  intro item parent hitem hprev hlimit
  apply (hitems parent).2
  left
  rcases hhas item hitem with hold | rfl
  · exact h item parent hold hprev hlimit
  · rcases itemOf_cases hpushed with ⟨rfl, _⟩ | ⟨stored, hstored, _, rfl⟩
    · cases hprev
    · obtain rfl := Option.some.inj hprev
      exact hstored

theorem Rooted.pushBlock (h : db.Rooted limit) (hfirst : db.head = none → b.blockNum ≤ 1)
    (hpush : db.pushBlock b = .ok db') : db'.Rooted limit := by
  obtain ⟨pushed, hpushed, hhas⟩ := has_pushBlock hpush
  intro item hitem hnone
  rcases hhas item hitem with hold | rfl
  · exact h item hold hnone
  · apply le_max_of_le_left
    rcases itemOf_cases hpushed with ⟨rfl, hempty | hnull⟩ | ⟨_, _, _, rfl⟩
    · exact hfirst hempty
    · rw [ForkItem.num_eq]
      exact Nat.succ_le_succ (congrArg BlockId.num hnull).le
    · cases hnone

theorem Connected.mono (h : db.Connected limit) (hle : limit ≤ limit') : db.Connected limit' :=
  fun item parent hitem hprev hlimit ↦ h item parent hitem hprev (hle.trans_lt hlimit)

theorem Rooted.mono (h : db.Rooted limit) (hle : limit ≤ limit') : db.Rooted limit' :=
  fun item hitem hnone ↦ (h item hitem hnone).trans (max_le_max le_rfl hle)

theorem has_setMaxSize {size : ℕ} (h : (db.setMaxSize size).Has item) : db.Has item := by
  rw [Has, head_setMaxSize] at h
  exact h.imp_left mem_items_of_setMaxSize

/-- A window that is wide enough keeps the items connected. -/
theorem Connected.setMaxSize (h : db.Connected limit) {size : ℕ} (hhead : db.head = some top)
    (hsize : max 0 ((top.num : ℤ) - size) ≤ limit + 1) : (db.setMaxSize size).Connected limit := by
  intro item parent hitem hprev hlimit
  apply (mem_items_setMaxSize hhead).2
  refine ⟨h item parent (has_setMaxSize hitem) hprev hlimit, hsize.trans ?_⟩
  exact_mod_cast hlimit

theorem Rooted.setMaxSize (h : db.Rooted limit) (size : ℕ) : (db.setMaxSize size).Rooted limit :=
  fun item hitem hnone ↦ h item (has_setMaxSize hitem) hnone

theorem has_setHead {low : ForkItem} (hlow : db.Has low) (h : (db.setHead low).Has item) :
    db.Has item := by
  rcases h with hstored | hhead
  · exact .inl hstored
  · obtain rfl := Option.some.inj hhead
    exact hlow

/-- Above the height, the pointers lead from an item down to any number. -/
theorem Connected.exists_walkDown (h : db.Connected limit) (hroot : db.Rooted limit)
    (hlinked : item.WellLinked env blocks) (hitem : db.Has item) {m : ℕ} (hlimit : limit < m)
    (hle : m ≤ item.num) : ∃ found, db.walkDown m item = some found ∧ found.num = m := by
  have hstop : ∀ item : ForkItem, m ≤ item.num → ¬ m < item.num →
      ∃ found, some item = some found ∧ found.num = m :=
    fun item hle hge ↦ ⟨item, rfl, le_antisymm (Nat.not_lt.1 hge) hle⟩
  induction item with
  | unlinked address data =>
    have hlow := hroot _ hitem rfl
    have hge : ¬ m < data.blockNum := by
      have hnum : (ForkItem.unlinked address data).num = data.blockNum := rfl
      omega
    rw [walkDown, if_neg hge]
    exact hstop _ hle hge
  | linked address data prev ih =>
    rw [walkDown]
    split
    · rename_i hlt
      have hbelow : prev.num + 1 = data.blockNum := hlinked.num_prev rfl
      have hprev : prev ∈ db.items := h _ prev hitem rfl (by omega)
      rw [if_pos (List.mem_map_of_mem (mem_aliveItems hprev))]
      exact ih hlinked.2.2 (.inl hprev) (by omega)
    · rename_i hge
      exact hstop _ hle hge

/-- So a number with a stored block is found on the main branch, up to the head. -/
theorem Connected.exists_fetch (h : db.Connected limit) (hroot : db.Rooted limit)
    (hlinked : db.WellLinked blocks) (hhead : db.head = some top) {m : ℕ} (hlimit : limit < m)
    (hle : m ≤ top.num) (hitem : item ∈ db.items) (hnum : item.num = m) :
    ∃ found, db.fetchBlockOnMainBranchByNumber m = some found ∧ found.num = m := by
  have hmem : item ∈ db.fetchBlockByNumber m := List.mem_filter.2 ⟨hitem, decide_eq_true hnum⟩
  unfold fetchBlockOnMainBranchByNumber
  split
  · rename_i hnone
    rw [hnone] at hmem
    cases hmem
  · rename_i single hsingle
    rw [hsingle, List.mem_singleton] at hmem
    exact ⟨single, rfl, hmem ▸ hnum⟩
  · rw [walkMainBranchToNum, hhead, Option.bind_some, if_neg (Nat.not_lt.2 hle)]
    exact h.exists_walkDown hroot (hlinked.head top hhead) (.inr hhead) hlimit hle

/-! ## Addresses -/

/-- Everything that can still be reached by pointers, whether it is alive or not. -/
def lines (db : ForkDatabase env) : List ForkItem := db.aliveItems.flatMap ForkItem.line

/-- Every item has an address of its own. -/
structure Wired (db : ForkDatabase env) : Prop where
  below : ∀ item ∈ db.lines, item.address < db.nextAddress
  unique : ∀ item ∈ db.lines, ∀ other ∈ db.lines, item.address = other.address → item = other

theorem mem_lines : item ∈ db.lines ↔ ∃ start ∈ db.aliveItems, item ∈ start.line :=
  List.mem_flatMap

theorem mem_lines_of_alive (h : item ∈ db.aliveItems) : item ∈ db.lines :=
  mem_lines.2 ⟨item, h, item.mem_line_self⟩

theorem Wired.mono (h : db.Wired) (hlines : ∀ item ∈ db'.aliveItems, item ∈ db.lines)
    (haddress : db'.nextAddress = db.nextAddress) : db'.Wired := by
  have hsub : ∀ item ∈ db'.lines, item ∈ db.lines := by
    intro item hitem
    obtain ⟨start, hstart, hmem⟩ := mem_lines.1 hitem
    obtain ⟨origin, horigin, hline⟩ := mem_lines.1 (hlines start hstart)
    exact mem_lines.2 ⟨origin, horigin, ForkItem.mem_line_trans hmem hline⟩
  constructor
  · intro item hitem
    exact haddress ▸ h.below item (hsub item hitem)
  · intro item hitem other hother
    exact h.unique item (hsub item hitem) other (hsub other hother)

theorem Wired.pushBlock (h : db.Wired) (hpush : db.pushBlock b = .ok db') : db'.Wired := by
  simp only [ForkDatabase.pushBlock, bind_eq_ok, pure_eq_ok] at hpush
  obtain ⟨item, hitem, rfl⟩ := hpush
  have haddress : item.address = db.nextAddress := by
    rcases itemOf_cases hitem with ⟨rfl, _⟩ | ⟨_, _, _, rfl⟩ <;> rfl
  have hline : ∀ other ∈ item.line, other = item ∨ other ∈ db.lines := by
    intro other hother
    rcases itemOf_cases hitem with ⟨rfl, _⟩ | ⟨parent, hparent, _, rfl⟩
    · exact .inl (List.mem_singleton.1 hother)
    · rcases List.mem_cons.1 hother with rfl | hother
      · exact .inl rfl
      · exact .inr (mem_lines.2 ⟨parent, mem_aliveItems hparent, hother⟩)
  have hlines : ∀ other ∈ ((db.insert item).setHead (db.newHead item)).lines,
      other = item ∨ other ∈ db.lines := by
    intro other hother
    obtain ⟨start, hstart, hmem⟩ := mem_lines.1 hother
    have hstart' : start = item ∨ start ∈ db.aliveItems := by
      simp only [aliveItems, List.mem_append] at hstart ⊢
      rcases hstart with (hstored | hhead) | hheld
      · rcases mem_items_insert.1 hstored with hold | ⟨rfl, _⟩
        · exact .inr (.inl (.inl hold))
        · exact .inl rfl
      · rw [Option.mem_toList] at hhead
        rcases newHead_cases item hhead with hnew | hold
        · exact .inl hnew
        · exact .inr (.inl (.inr (Option.mem_toList.2 hold)))
      · exact .inr (.inr hheld)
    rcases hstart' with rfl | hstart
    · exact hline other hmem
    · exact .inr (mem_lines.2 ⟨start, hstart, hmem⟩)
  have hfresh : ∀ other ∈ db.lines, other.address ≠ item.address := by
    intro other hother
    rw [haddress]
    exact (h.below other hother).ne
  constructor
  · intro other hother
    rcases hlines other hother with rfl | hold
    · exact haddress ▸ Nat.lt_succ_self _
    · exact Nat.lt_succ_of_lt (h.below other hold)
  · intro first hfirst second hsecond heq
    rcases hlines first hfirst with rfl | hfirst'
    · rcases hlines second hsecond with rfl | hsecond'
      · rfl
      · exact absurd heq.symm (hfresh second hsecond')
    · rcases hlines second hsecond with rfl | hsecond'
      · exact absurd heq (hfresh first hfirst')
      · exact h.unique first hfirst' second hsecond' heq

/-- Only stored items can be locked, as long as a running call holds at most one other. -/
theorem Wired.mem_items_of_lock (h : db.Wired) {prev : ForkItem}
    (halive : ∀ alive ∈ db.aliveItems, alive ∈ db.items ∨ alive = top) (hitem : item ∈ db.lines)
    (hne : prev ≠ top) (hlock : db.lock item = some prev) : prev ∈ db.items := by
  obtain ⟨hprev, haddress⟩ := lock_eq_some.1 hlock
  obtain ⟨alive, hmem, heq⟩ := List.mem_map.1 haddress
  obtain ⟨start, hstart, hitem⟩ := mem_lines.1 hitem
  have hline : prev ∈ db.lines :=
    mem_lines.2 ⟨start, hstart, ForkItem.mem_line_trans (ForkItem.mem_line_of_prev hprev) hitem⟩
  obtain rfl := h.unique alive (mem_lines_of_alive hmem) prev hline heq
  exact (halive alive hmem).resolve_right hne

/-- Between two calls only the head need not be stored. -/
theorem mem_items_of_alive (hheld : db.held = []) (hhead : db.head = some top)
    (h : item ∈ db.aliveItems) : item ∈ db.items ∨ item = top := by
  rw [aliveItems, hhead, hheld, List.append_nil, Option.toList_some, List.mem_append,
    List.mem_singleton] at h
  exact h

theorem mem_lines_of_head (hhead : db.head = some top) : top ∈ db.lines := by
  apply mem_lines_of_alive
  rw [aliveItems, hhead]
  exact List.mem_append_left _ (List.mem_append_right _ (List.mem_singleton_self _))

theorem Wired.setMaxSize (h : db.Wired) (hhead : db.head = some top) (size : ℕ) :
    (db.setMaxSize size).Wired := by
  have haddress : (db.setMaxSize size).nextAddress = db.nextAddress := by
    rw [setMaxSize_eq hhead]
    rfl
  have hheld : (db.setMaxSize size).held = db.held := by
    rw [setMaxSize_eq hhead]
    rfl
  apply h.mono _ haddress
  intro item hitem
  apply mem_lines_of_alive
  rw [aliveItems, head_setMaxSize, hheld] at hitem
  simp only [aliveItems, List.mem_append] at hitem ⊢
  exact hitem.imp_left (Or.imp_left mem_items_of_setMaxSize)

/-- What can be locked can become the head. -/
theorem Wired.setHead (h : db.Wired) {item : ForkItem} (hitem : item ∈ db.lines) :
    (db.setHead item).Wired := by
  have haddress : (db.setHead item).nextAddress = db.nextAddress := rfl
  apply h.mono _ haddress
  intro other hother
  simp only [aliveItems, ForkDatabase.setHead, List.mem_append, Option.mem_toList,
    Option.some.injEq] at hother
  rcases hother with (hstored | rfl) | hheld
  · exact mem_lines_of_alive (mem_aliveItems hstored)
  · exact hitem
  · exact mem_lines_of_alive (List.mem_append_right _ hheld)

end ForkDatabase

end SophiaTX.Chain
