import SophiaTX.Forks.Calls

/-!
# Fork switches

A switch pops blocks down to the fork and applies the new branch from there. Each pop takes the head
of the fork database one block down the new branch, so it is low on that branch when the blocks are
applied. They go through when they are valid and make no block above it irreversible.
-/

namespace SophiaTX.Chain

open SophiaTX.Protocol SophiaTX.Lib

namespace ForkDatabase

variable {env : Env} {blocks : Set SignedBlock} {db db' db'' : ForkDatabase env}
  {item other parent top : ForkItem} {p : BlockId} {items : List ForkItem} {num limit : ℕ}
  {name : String}

/-! ## Branches that were found -/

/-- What can be locked from a stored item up to some height is stored. -/
def LocksStored (db : ForkDatabase env) (limit : ℕ) : Prop :=
  ∀ child ∈ db.items, child.num ≤ limit → ∀ parent, db.lock child = some parent →
    parent ∈ db.items ∧ parent.id env = child.previousId ∧ parent.num < child.num

theorem Wired.locksStored (h : db.Wired) (hlinked : db.WellLinked blocks) (hheld : db.held = [])
    (hhead : db.head = some top) : db.LocksStored top.num := by
  intro child hchild hle parent hlock
  have hprev : child.prev = some parent := (lock_eq_some.1 hlock).1
  have hchildLinked : child.WellLinked env blocks := hlinked.items child hchild
  have hbelow : parent.num + 1 = child.num := hchildLinked.num_prev hprev
  have hne : parent ≠ top := by
    rintro rfl
    omega
  refine ⟨?_, hchildLinked.id_prev hprev, by omega⟩
  exact h.mem_items_of_lock (fun _ ↦ mem_items_of_alive hheld hhead)
    (mem_lines_of_alive (mem_aliveItems hchild)) hne hlock

theorem level_cases {passed : List ForkItem} {levelled : ForkItem}
    (hok : db.level num name item = .ok (passed, levelled)) :
    passed = [] ∧ levelled = item ∨ ∃ parent rest, db.lock item = some parent ∧
      passed = item :: rest ∧ db.level num name parent = .ok (rest, levelled) := by
  cases item with
  | unlinked address data =>
    rw [level] at hok
    split at hok
    · cases hok
    · obtain ⟨rfl, rfl⟩ := Prod.mk.inj (Except.ok.inj hok)
      exact .inl ⟨rfl, rfl⟩
  | linked address data prev =>
    rw [level] at hok
    split at hok
    · simp only [bind_eq_ok, fcAssert_eq_ok, pure_eq_ok] at hok
      obtain ⟨_, halive, ⟨rest, last⟩, hrest, hpair⟩ := hok
      obtain ⟨rfl, rfl⟩ := Prod.mk.inj hpair
      exact .inr ⟨prev, rest, lock_eq_some.2 ⟨rfl, halive⟩, rfl, hrest⟩
    · obtain ⟨rfl, rfl⟩ := Prod.mk.inj (Except.ok.inj hok)
      exact .inl ⟨rfl, rfl⟩

theorem LocksStored.level (h : db.LocksStored limit) {passed : List ForkItem}
    {levelled : ForkItem} (hitem : item ∈ db.items) (hle : item.num ≤ limit)
    (hok : db.level num name item = .ok (passed, levelled)) :
    levelled ∈ db.items ∧ levelled.num ≤ limit ∧
      ∀ items p, db.Walk levelled items p → db.Walk item (passed ++ items) p := by
  induction passed generalizing item with
  | nil =>
    rcases level_cases hok with ⟨_, rfl⟩ | ⟨_, _, _, hcons, _⟩
    · exact ⟨hitem, hle, fun _ _ hwalk ↦ hwalk⟩
    · cases hcons
  | cons first rest ih =>
    rcases level_cases hok with ⟨hnil, _⟩ | ⟨parent, rest', hlock, hcons, hrest⟩
    · cases hnil
    · obtain ⟨rfl, rfl⟩ := List.cons.inj hcons
      obtain ⟨hparent, hid, hlt⟩ := h first hitem hle parent hlock
      obtain ⟨hmem, hheight, hwalk⟩ := ih hparent (hlt.le.trans hle) hrest
      exact ⟨hmem, hheight, fun items p hw ↦ .cons hitem hlock hid (hwalk items p hw)⟩

theorem descend_cases {firsts seconds : List ForkItem}
    (hok : db.descend item other = .ok (firsts, seconds)) :
    item.previousId = other.previousId ∧ firsts = [item] ∧ seconds = [other] ∨
      ∃ parent otherParent firsts' seconds', db.lock item = some parent ∧
        db.lock other = some otherParent ∧ firsts = item :: firsts' ∧ seconds = other :: seconds' ∧
        db.descend parent otherParent = .ok (firsts', seconds') := by
  cases item with
  | unlinked address data =>
    rw [descend] at hok
    split at hok
    · rename_i heq
      obtain ⟨rfl, rfl⟩ := Prod.mk.inj (Except.ok.inj hok)
      exact .inl ⟨heq, rfl, rfl⟩
    · cases hok
  | linked address data prev =>
    rw [descend] at hok
    split at hok
    · rename_i heq
      obtain ⟨rfl, rfl⟩ := Prod.mk.inj (Except.ok.inj hok)
      exact .inl ⟨heq, rfl, rfl⟩
    · simp only [bind_eq_ok, fcAssert_eq_ok] at hok
      obtain ⟨_, halive, hok⟩ := hok
      cases hlock : db.lock other with
      | none =>
        rw [hlock] at hok
        cases hok
      | some otherParent =>
        simp only [hlock, bind_eq_ok, pure_eq_ok] at hok
        obtain ⟨⟨firsts', seconds'⟩, hrest, hpair⟩ := hok
        obtain ⟨rfl, rfl⟩ := Prod.mk.inj hpair
        exact .inr ⟨prev, otherParent, firsts', seconds', lock_eq_some.2 ⟨rfl, halive⟩, rfl, rfl,
          rfl, hrest⟩

theorem LocksStored.descend (h : db.LocksStored limit) {firsts seconds : List ForkItem}
    (hitem : item ∈ db.items) (hle : item.num ≤ limit) (hother : other ∈ db.items)
    (hotherLe : other.num ≤ limit) (hok : db.descend item other = .ok (firsts, seconds)) :
    ∃ p, db.Walk item firsts p ∧ db.Walk other seconds p := by
  induction firsts generalizing item other seconds with
  | nil =>
    rcases descend_cases hok with ⟨_, hcons, _⟩ | ⟨_, _, _, _, _, _, hcons, _⟩ <;> cases hcons
  | cons first firsts ih =>
    rcases descend_cases hok with ⟨heq, hfirsts, rfl⟩ |
      ⟨parent, otherParent, firsts', seconds', hlock, hotherLock, hfirsts, rfl, hrest⟩
    · rw [hfirsts]
      exact ⟨_, .single hitem, heq ▸ .single hother⟩
    · obtain ⟨rfl, rfl⟩ := List.cons.inj hfirsts
      obtain ⟨hparent, hid, hlt⟩ := h first hitem hle parent hlock
      obtain ⟨hotherParent, hotherId, hotherLt⟩ := h other hother hotherLe otherParent hotherLock
      obtain ⟨p, hwalk, hotherWalk⟩ := ih hparent (hlt.le.trans hle) hotherParent
        (hotherLt.le.trans hotherLe) hrest
      exact ⟨p, .cons hitem hlock hid hwalk, .cons hother hotherLock hotherId hotherWalk⟩

/-- The two branches that are found go down to children of one block. -/
theorem LocksStored.fetchBranchFrom (h : db.LocksStored limit) {first second : BlockId}
    (hfirst : first.num ≤ limit) (hsecond : second.num ≤ limit) {new old : List ForkItem}
    (hok : db.fetchBranchFrom first second = .ok (new, old)) :
    ∃ item other p, item.id env = first ∧ other.id env = second ∧ db.Walk item new p ∧
      db.Walk other old p := by
  rw [ForkDatabase.fetchBranchFrom] at hok
  cases hfind : db.index.find? first with
  | none =>
    rw [hfind] at hok
    cases hok
  | some item =>
    cases hfind' : db.index.find? second with
    | none =>
      rw [hfind, hfind'] at hok
      cases hok
    | some other =>
      simp only [hfind, hfind', bind_eq_ok, pure_eq_ok] at hok
      obtain ⟨⟨passed, levelled⟩, hlevel, ⟨passed', levelled'⟩, hlevel', ⟨firsts, seconds⟩,
        hdescend, hpair⟩ := hok
      obtain ⟨rfl, rfl⟩ := Prod.mk.inj hpair
      obtain ⟨hitem, rfl⟩ := find?_eq_some.1 hfind
      obtain ⟨hother, rfl⟩ := find?_eq_some.1 hfind'
      obtain ⟨hmem, hheight, hwalk⟩ := h.level hitem hfirst hlevel
      obtain ⟨hmem', hheight', hwalk'⟩ := h.level hother hsecond hlevel'
      obtain ⟨p, hfirsts, hseconds⟩ := h.descend hmem hheight hmem' hheight' hdescend
      exact ⟨item, other, p, rfl, rfl, hwalk _ _ hfirsts, hwalk' _ _ hseconds⟩

namespace Walk

theorem mem_line (h : db.Walk item items p) (hmem : other ∈ items) : other ∈ item.line := by
  induction h with
  | single _ =>
    obtain rfl := List.mem_singleton.1 hmem
    exact other.mem_line_self
  | cons _ hlock _ _ ih =>
    rcases List.mem_cons.1 hmem with rfl | hmem
    · exact other.mem_line_self
    · exact ForkItem.mem_line_trans (ih hmem) (ForkItem.mem_line_of_prev (lock_eq_some.1 hlock).1)

/-- What a switch holds. -/
theorem held {firsts seconds : List ForkItem} (h : db.Walk item firsts p)
    (h' : db.Walk other seconds p) :
    ∀ alive ∈ top :: firsts ++ seconds, alive ∈ db.items ∨ alive = top := by
  intro alive hmem
  rcases List.mem_cons.1 hmem with rfl | hmem
  · exact .inr rfl
  · rcases List.mem_append.1 hmem with hfirst | hsecond
    · exact .inl (h.mem_items hfirst)
    · exact .inl (h'.mem_items hsecond)

/-- A walk down to the end of a line of ids carries it on. -/
theorem descends {ids : List BlockId} (h : db.Walk item items p) (hdb : db.WellLinked blocks)
    (hids : Descends env blocks ids) (hlast : ids.getLast?.getD BlockId.null = p) :
    Descends env blocks (ids ++ items.reverse.map (ForkItem.id env)) := by
  induction h with
  | @single item hitem =>
    rw [List.reverse_singleton, List.map_singleton]
    exact hids.snoc (hdb.items item hitem).made hlast
  | @cons item parent items p hitem hlock hid hrest ih =>
    rw [List.reverse_cons, List.map_append, ← List.append_assoc, List.map_singleton]
    apply (ih hlast).snoc (hdb.items item hitem).made
    have hnewest : (items.reverse.map (ForkItem.id env)).getLast? = some (parent.id env) := by
      rw [List.getLast?_map, List.getLast?_reverse, hrest.head?_eq]
      rfl
    rw [List.getLast?_append, hnewest]
    exact hid

/-- What the pointers of an item of one block lead to has its block on the walk. -/
theorem exists_of_line {low : ForkItem} (h : db.Walk item items p)
    (hparent : SeparatesParents env blocks) (hdb : db.WellLinked blocks)
    (hid : item.id env = top.id env) (htop : top.WellLinked env blocks) (hlow : low ∈ top.line)
    (hlt : p.num < low.num) : ∃ first ∈ items, first.id env = low.id env := by
  have hitemNum : item.num = top.num := congrArg BlockId.num hid
  have hle : low.num ≤ top.num := by
    rcases htop.eq_or_num_lt hlow with rfl | hlt
    · exact le_rfl
    · exact hlt.le
  have hnum := h.num_eq
  have hindex : low.num - p.num - 1 < (items.map (ForkItem.id env)).reverse.length := by
    rw [List.length_reverse, List.length_map]
    omega
  have hget := List.getElem?_eq_getElem hindex
  obtain ⟨first, hfirst, hfirstId⟩ :=
    List.mem_map.1 (List.mem_reverse.1 (List.mem_of_getElem? hget))
  rw [← hfirstId] at hget
  have hfirstNum : first.num = low.num := by
    have hheight := h.numbered hget
    rw [ForkItem.num_id] at hheight
    omega
  have hitem : item ∈ db.items := h.mem_items (List.mem_of_mem_head? h.head?_eq)
  exact ⟨first, hfirst, ForkItem.id_eq_of_line hparent (hdb.items item hitem) htop hid
    (h.mem_line hfirst) hlow hfirstNum⟩

end Walk

/-! ## Pops -/

/-- Only stored items can be locked below `start`. -/
structure Guarded (db : ForkDatabase env) (start : ForkItem) : Prop where
  wired : db.Wired
  alive : ∀ alive ∈ db.aliveItems, alive ∈ db.items ∨ alive = start

theorem Guarded.setHead {start prev : ForkItem} (h : db.Guarded start) (hhead : db.head = some top)
    (hlock : db.lock top = some prev) (hlt : prev.num < start.num) :
    prev ∈ db.items ∧ (db.setHead prev).Guarded start := by
  have hne : prev ≠ start := by
    rintro rfl
    exact absurd hlt (Nat.lt_irrefl _)
  have hprev : prev ∈ db.items :=
    h.wired.mem_items_of_lock h.alive (mem_lines_of_head hhead) hne hlock
  refine ⟨hprev, h.wired.setHead (mem_lines_of_alive (mem_aliveItems hprev)), ?_⟩
  intro alive hmem
  simp only [aliveItems, ForkDatabase.setHead, Option.toList_some, List.mem_append,
    List.mem_singleton] at hmem
  rcases hmem with (hstored | rfl) | hheld
  · exact .inl hstored
  · exact .inl hprev
  · exact h.alive alive (List.mem_append_right _ hheld)

/-! ## Smaller windows -/

/-- Nothing but stored items has gone. -/
structure Shrinks (db db' : ForkDatabase env) : Prop where
  head : db'.head = db.head
  held : db'.held = db.held
  nextAddress : db'.nextAddress = db.nextAddress
  items : ∀ item ∈ db'.items, item ∈ db.items

theorem Shrinks.refl (db : ForkDatabase env) : Shrinks db db :=
  ⟨rfl, rfl, rfl, fun _ h ↦ h⟩

theorem Shrinks.trans (h : Shrinks db db') (h' : Shrinks db' db'') : Shrinks db db'' where
  head := h'.head.trans h.head
  held := h'.held.trans h.held
  nextAddress := h'.nextAddress.trans h.nextAddress
  items := fun item hitem ↦ h.items item (h'.items item hitem)

theorem shrinks_setMaxSize (hhead : db.head = some top) (size : ℕ) :
    Shrinks db (db.setMaxSize size) where
  head := head_setMaxSize size
  held := by
    rw [setMaxSize_eq hhead]
    rfl
  nextAddress := by
    rw [setMaxSize_eq hhead]
    rfl
  items := fun _ hitem ↦ mem_items_of_setMaxSize hitem

theorem Shrinks.hold (h : Shrinks db db') (items : List ForkItem) :
    Shrinks { db with held := items } { db' with held := items } :=
  ⟨h.head, rfl, h.nextAddress, h.items⟩

/-- What is alive has come from what was alive. -/
theorem Shrinks.wired (h : Shrinks db db') (hwired : db.Wired) : db'.Wired := by
  apply hwired.mono _ h.nextAddress
  intro item hitem
  apply mem_lines_of_alive
  rw [aliveItems, h.head, h.held] at hitem
  simp only [aliveItems, List.mem_append] at hitem ⊢
  exact hitem.imp_left (Or.imp_left (h.items item))

end ForkDatabase

namespace Node

variable {ctx : NodeContext} {node node' : Node ctx.env} {s₀ : Database} {b : SignedBlock}
  {blocks : Set SignedBlock} {chain : List (Database × SignedBlock)} {top low start : ForkItem}
  {target p : BlockId} {forkDb : ForkDatabase ctx.env} {item : ForkItem}
  {items new old : List ForkItem}

/-! ## The blocks that are popped -/

/-- What pops leave, whether they come to the target or throw: the newest blocks are undone, and the
head of the fork database has gone down. -/
structure Pops (ctx : NodeContext) (blocks : Set SignedBlock) (s₀ : Database)
    (node node' : Node ctx.env) (top low : ForkItem)
    (popped chain : List (Database × SignedBlock)) : Prop where
  sound : Sound ctx blocks s₀ node' chain
  forkDb : node'.forkDb = node.forkDb.setHead low
  line : low ∈ top.line
  stored : low = top ∨ low ∈ node.forkDb.items
  blockLog : node'.blockLog = node.blockLog
  sessions : node'.sessions.length + popped.length = node.sessions.length

/-- What they have come to. -/
structure PopsTo (target : BlockId) (node node' : Node ctx.env) (top low : ForkItem)
    (count : ℕ) : Prop where
  head : node'.headBlockId = target
  num : low.num + count = top.num
  state : (node.state :: node.sessions)[count]? = some node'.state

theorem Pops.refl (h : Sound ctx blocks s₀ node chain) (hhead : node.forkDb.head = some top) :
    Pops ctx blocks s₀ node node top top [] chain where
  sound := h
  forkDb := by rw [ForkDatabase.setHead, ← hhead]
  line := top.mem_line_self
  stored := .inl rfl
  blockLog := rfl
  sessions := rfl

/-- One more pop before them. -/
theorem Pops.pop {mid : Node ctx.env} {prev : ForkItem}
    {popped popped' : List (Database × SignedBlock)}
    (h : Pops ctx blocks s₀ mid node' prev low popped chain) (hprev : top.prev = some prev)
    (hmem : prev ∈ node.forkDb.items) (hforkDb : mid.forkDb = node.forkDb.setHead prev)
    (hblockLog : mid.blockLog = node.blockLog)
    (hcount : node'.sessions.length + popped'.length = node.sessions.length) :
    Pops ctx blocks s₀ node node' top low popped' chain where
  sound := h.sound
  forkDb := by
    rw [h.forkDb, hforkDb]
    rfl
  line := ForkItem.mem_line_trans h.line (ForkItem.mem_line_of_prev hprev)
  stored := by
    right
    rcases h.stored with rfl | hstored
    · exact hmem
    · rw [hforkDb] at hstored
      exact hstored
  blockLog := h.blockLog.trans hblockLog
  sessions := hcount

/-- Without a session the pops never come to the target. -/
theorem popUntil_ne_ok (hhead : node.forkDb.head = some top) (hsessions : node.sessions = [])
    (htarget : node.headBlockId ≠ target) : popUntil target top node ≠ (node', .ok ()) := by
  induction top generalizing node with
  | unlinked address data =>
    rw [popUntil, if_neg htarget]
    cases hpop : node.popBlock with
    | error e => nofun
    | ok popped =>
      obtain ⟨_, other, prev, _, hother, hlock, _⟩ := popBlock_eq_ok hpop
      obtain rfl := Option.some.inj (hhead.symm.trans hother)
      cases (ForkDatabase.lock_eq_some.1 hlock).1
  | linked address data prev ih =>
    rw [popUntil, if_neg htarget]
    cases hpop : node.popBlock with
    | error e => nofun
    | ok popped =>
      obtain ⟨_, other, prev', _, hother, hlock, rfl⟩ := popBlock_eq_ok hpop
      obtain rfl := Option.some.inj (hhead.symm.trans hother)
      obtain rfl : prev = prev' := Option.some.inj (ForkDatabase.lock_eq_some.1 hlock).1
      have hundo : ({ node with forkDb := node.forkDb.setHead prev } : Node ctx.env).undo =
          { node with forkDb := node.forkDb.setHead prev } := undo_of_nil hsessions
      rw [hundo]
      exact ih rfl hsessions htarget

/-- The pops of a switch. -/
theorem Sound.popUntil (h : Sound ctx blocks s₀ node chain) (hguarded : node.forkDb.Guarded start)
    (hle : top.num ≤ start.num) (hhead : node.forkDb.head = some top) {result : Exec Unit}
    (hpops : popUntil target top node = (node', result)) : ∃ popped chain' low,
      chain = popped ++ chain' ∧ Pops ctx blocks s₀ node node' top low popped chain' ∧
      (result = .ok () → PopsTo target node node' top low popped.length) := by
  induction top generalizing node chain with
  | unlinked address data =>
    rw [Node.popUntil] at hpops
    split at hpops
    · rename_i htarget
      obtain ⟨rfl, rfl⟩ := Prod.mk.inj hpops
      exact ⟨[], chain, _, rfl, .refl h hhead, fun _ ↦ ⟨htarget, rfl, rfl⟩⟩
    · cases hpop : node.popBlock with
      | error e =>
        rw [hpop] at hpops
        obtain ⟨rfl, rfl⟩ := Prod.mk.inj hpops
        exact ⟨[], chain, _, rfl, .refl h hhead, nofun⟩
      | ok mid =>
        obtain ⟨prev, hlock, _⟩ := h.popBlock hhead hpop
        cases (ForkDatabase.lock_eq_some.1 hlock).1
  | linked address data prev ih =>
    rw [Node.popUntil] at hpops
    split at hpops
    · rename_i htarget
      obtain ⟨rfl, rfl⟩ := Prod.mk.inj hpops
      exact ⟨[], chain, _, rfl, .refl h hhead, fun _ ↦ ⟨htarget, rfl, rfl⟩⟩
    · rename_i htarget
      cases hpop : node.popBlock with
      | error e =>
        rw [hpop] at hpops
        obtain ⟨rfl, rfl⟩ := Prod.mk.inj hpops
        exact ⟨[], chain, _, rfl, .refl h hhead, nofun⟩
      | ok mid =>
        rw [hpop] at hpops
        dsimp only at hpops
        have hbelow : prev.num + 1 = (ForkItem.linked address data prev).num :=
          (h.linked.head _ hhead).num_prev rfl
        obtain ⟨prev', hlock, hforkDb, hblockLog, hcases⟩ := h.popBlock hhead hpop
        obtain rfl : prev = prev' := Option.some.inj (ForkDatabase.lock_eq_some.1 hlock).1
        obtain ⟨hprev, hmidGuarded⟩ := hguarded.setHead hhead hlock (by omega)
        rw [← hforkDb] at hmidGuarded
        have hmidHead : mid.forkDb.head = some prev := by
          rw [hforkDb]
          rfl
        rcases hcases with ⟨hnone, hstate, hnone', hmid⟩ |
          ⟨t, b, sessions, rest, rfl, hcons, hstate, hsessions, hmid⟩
        · obtain ⟨popped, chain', low, rfl, hrest, _⟩ :=
            ih hmid hmidGuarded (by omega) hmidHead hpops
          refine ⟨popped, chain', low, rfl, ?_, ?_⟩
          · apply hrest.pop rfl hprev hforkDb hblockLog
            rw [hrest.sessions, hnone', hnone]
          · rintro rfl
            have hstuck : mid.headBlockId ≠ target := by
              rw [headBlockId, hstate]
              exact htarget
            exact (popUntil_ne_ok hmidHead hnone' hstuck hpops).elim
        · obtain ⟨popped, chain', low, rfl, hrest, hresult⟩ :=
            ih hmid hmidGuarded (by omega) hmidHead hpops
          refine ⟨(t, b) :: popped, chain', low, rfl, ?_, fun hok ↦ ?_⟩
          · apply hrest.pop rfl hprev hforkDb hblockLog
            rw [hcons, List.length_cons, List.length_cons, ← hsessions]
            exact congrArg Nat.succ hrest.sessions
          · obtain ⟨hid, hnum, hreached⟩ := hresult hok
            refine ⟨hid, ?_, ?_⟩
            · rw [List.length_cons]
              omega
            · rw [hcons, List.length_cons, List.getElem?_cons_succ, ← hstate, ← hsessions]
              exact hreached

/-! ## The blocks that are applied -/

/-- The blocks are valid one after the other from a state on, and none of them makes a block above
`limit` irreversible. -/
def validUpTo (ctx : Context) (limit : ℕ) : Database → List SignedBlock → Bool
  | _, [] => true
  | s, b :: blocks =>
    match Chain.applyBlock ctx s b with
    | .error _ => false
    | .ok s' => decide (s'.dgp.lastIrreversibleBlockNum ≤ limit) && validUpTo ctx limit s' blocks

/-- A node in the middle of a switch, with the blocks of the new branch that are still to be
applied. The head of its fork database is on the line that they make with its chain. -/
structure Switching (ctx : NodeContext) (blocks : Set SignedBlock) (s₀ : Database)
    (node : Node ctx.env) (low : ForkItem) (items : List ForkItem)
    (chain : List (Database × SignedBlock)) : Prop extends Sound ctx blocks s₀ node chain where
  head : node.forkDb.head = some low
  near : low.num ≤ chain.length + 3
  line : Descends ctx.env blocks (mainIds ctx.env chain ++ items.map (ForkItem.id ctx.env))
  onLine : low.id ctx.env ∈ mainIds ctx.env chain ++ items.map (ForkItem.id ctx.env)
  kept : ∀ item ∈ items, item ∈ node.forkDb.items
  known : node.forkDb.isKnownBlock (low.id ctx.env) = true
  balanced : node.blockLog.length + node.sessions.length = chain.length
  connected : node.forkDb.Connected node.blockLog.length
  rooted : node.forkDb.Rooted node.blockLog.length

namespace Switching

/-- The line with the next block on the chain. -/
theorem line_cons (ids : List BlockId) (item : ForkItem) (items : List ForkItem) :
    ids ++ (item :: items).map (ForkItem.id ctx.env) =
      (ids ++ [ctx.env.blockId item.data]) ++ items.map (ForkItem.id ctx.env) := by
  rw [List.map_cons, List.append_assoc]
  rfl

/-- One block of the new branch. -/
theorem applied (hskip : ctx.skip.validate = false) (hgenesis : initGenesis ctx.genesis = .ok s₀)
    (hparent : SeparatesParents ctx.env blocks)
    (h : Switching ctx blocks s₀ node low (item :: items) chain)
    (happly : node.applyInSession ctx item.data = (node', .ok ())) :
    Switching ctx blocks s₀ node' low items ((node.state, item.data) :: chain) ∧
      node.forkDb.Shrinks node'.forkDb := by
  have hmem : item ∈ node.forkDb.items := h.kept item List.mem_cons_self
  have hline := h.line
  have honLine := h.onLine
  rw [line_cons] at hline honLine
  have hids : mainIds ctx.env ((node.state, item.data) :: chain) =
      mainIds ctx.env chain ++ [ctx.env.blockId item.data] := mainIds_cons _ _
  rw [← hids] at hline honLine
  have hlead : node.forkDb.LeadsMain _ low _ :=
    ForkDatabase.leadsMain_of_main hparent hline (h.linked.head low h.head) honLine
  rw [length_mainIds] at hlead
  have hsound := h.toSound.applied hskip hgenesis (h.linked.items item hmem).made happly h.head
    hlead h.near (ForkDatabase.isKnownBlock_iff.2 ⟨item, hmem, rfl⟩)
  obtain ⟨size, hwindow, hsize, hsizeNext, hsizeLow⟩ := h.window hskip hgenesis happly h.near
  have hgrows := (applyInSession_log happly).length_le
  have hkept : ∀ other ∈ items, other ∈ node'.forkDb.items := by
    intro other hother
    rw [hwindow]
    apply (ForkDatabase.mem_items_setMaxSize h.head).2
    refine ⟨h.kept other (List.mem_cons_of_mem _ hother), hsizeNext.trans ?_⟩
    obtain ⟨n, hn⟩ := List.getElem?_of_mem (List.mem_map_of_mem (f := ForkItem.id ctx.env) hother)
    have hnum := hline.numbered (chain.length + 1 + n) (other.id ctx.env) <| by
      rw [List.getElem?_append_right, length_mainIds, List.length_cons, Nat.add_sub_cancel_left, hn]
      rw [length_mainIds, List.length_cons]
      exact Nat.le_add_right _ _
    rw [ForkItem.num_id] at hnum
    omega
  refine ⟨{ hsound with
    head := by
      rw [hwindow, ForkDatabase.head_setMaxSize]
      exact h.head
    near := h.near.trans (by rw [List.length_cons]; omega)
    line := hline
    onLine := honLine
    kept := hkept
    known := by
      rw [hwindow]
      exact ForkDatabase.isKnownBlock_setMaxSize h.head hsizeLow h.known
    balanced := balanced_applied hskip hgenesis h.toSound h.balanced happly
    connected := by
      rw [hwindow]
      exact (h.connected.mono hgrows).setMaxSize h.head hsize
    rooted := by
      rw [hwindow]
      exact (h.rooted.mono hgrows).setMaxSize size }, ?_⟩
  rw [hwindow]
  exact ForkDatabase.shrinks_setMaxSize h.head size

/-- The blocks of the new branch that have been applied. -/
theorem applyBranch (hskip : ctx.skip.validate = false)
    (hgenesis : initGenesis ctx.genesis = .ok s₀) (hparent : SeparatesParents ctx.env blocks)
    (h : Switching ctx blocks s₀ node low items chain)
    (hok : node.applyBranch ctx items = (node', none)) : ∃ applied,
      applied.map Prod.snd = (items.map ForkItem.data).reverse ∧
      Switching ctx blocks s₀ node' low [] (applied ++ chain) ∧
      node.forkDb.Shrinks node'.forkDb ∧ node.blockLog <+: node'.blockLog := by
  induction items generalizing node chain with
  | nil =>
    obtain ⟨rfl, _⟩ := Prod.mk.inj hok
    exact ⟨[], rfl, h, .refl _, List.prefix_refl _⟩
  | cons item items ih =>
    rw [Node.applyBranch] at hok
    cases happly : node.applyInSession ctx item.data with
    | mk mid result =>
      rw [happly] at hok
      cases result with
      | error e => cases hok
      | ok _ =>
        obtain ⟨hmid, hshrinks⟩ := h.applied hskip hgenesis hparent happly
        obtain ⟨applied, hdata, hrest, hshrinks', hgrows⟩ := ih hmid hok
        refine ⟨applied ++ [(node.state, item.data)], ?_, ?_, hshrinks.trans hshrinks',
          (applyInSession_log happly).trans hgrows⟩
        · rw [List.map_append, hdata]
          exact (List.reverse_cons).symm
        · rw [List.append_assoc]
          exact hrest

/-- Valid blocks are applied to the last when they make nothing above `low` irreversible. -/
theorem exists_applyBranch (hskip : ctx.skip.validate = false)
    (hgenesis : initGenesis ctx.genesis = .ok s₀) (hparent : SeparatesParents ctx.env blocks)
    (h : Switching ctx blocks s₀ node low items chain)
    (hvalid : validUpTo ctx.toContext low.num node.state (items.map ForkItem.data) = true) :
    ∃ node', node.applyBranch ctx items = (node', none) := by
  induction items generalizing node chain with
  | nil => exact ⟨node, rfl⟩
  | cons item items ih =>
    rw [List.map_cons, validUpTo] at hvalid
    cases hstate : Chain.applyBlock ctx.toContext node.state item.data with
    | error e =>
      rw [hstate] at hvalid
      cases hvalid
    | ok t =>
      rw [hstate, Bool.and_eq_true, decide_eq_true_iff] at hvalid
      obtain ⟨hlimit, hvalid⟩ := hvalid
      have hmem : item ∈ node.forkDb.items := h.kept item List.mem_cons_self
      obtain ⟨mid, happly⟩ := h.exists_applied hskip hgenesis h.connected h.rooted h.head
        (ForkDatabase.isKnownBlock_iff.2 ⟨item, hmem, rfl⟩) hstate hlimit
      obtain ⟨hmid, _⟩ := h.applied hskip hgenesis hparent happly
      obtain ⟨_, _, hmidState, _⟩ := applyInSession_ok happly
      obtain rfl : t = mid.state := Except.ok.inj (hstate.symm.trans hmidState)
      rw [Node.applyBranch, happly]
      exact ih hmid hvalid

/-- When all blocks are applied the node comes to rest on the new branch. -/
theorem settled (hgenesis : initGenesis ctx.genesis = .ok s₀)
    (h : Switching ctx blocks s₀ node low [] chain) (hwired : (node.hold []).forkDb.Wired) :
    Settled ctx blocks s₀ (node.hold []) chain := by
  have honLine := h.onLine
  rw [List.map_nil, List.append_nil] at honLine
  have hheaded := h.headed hgenesis
  exact { h.hold [] with
    wired := hwired
    released := rfl
    balanced := h.balanced
    connected := h.connected
    rooted := .inr h.rooted
    headless := by
      intro hnone
      cases hnone.symm.trans h.head
    known := by
      intro other hother
      obtain rfl : low = other := Option.some.inj (h.head.symm.trans hother)
      exact h.known
    low := by
      intro other hother
      obtain rfl : low = other := Option.some.inj (h.head.symm.trans hother)
      rw [headBlockNum, ← ForkItem.num_id ctx.env]
      exact (Sound.mem_mainIds_num_le hheaded honLine).trans hheaded.number.ge }

end Switching

/-! ## The whole switch -/

/-- While a call holds stored items and the head, no others can be locked. -/
theorem AtRest.guarded (h : AtRest ctx blocks s₀ node chain) (hhead : node.forkDb.head = some top)
    (hitems : ∀ item ∈ items, item ∈ node.forkDb.items ∨ item = top) :
    (node.hold items).forkDb.Guarded top := by
  have halive : ∀ alive ∈ (node.hold items).forkDb.aliveItems,
      alive ∈ node.forkDb.items ∨ alive = top := by
    intro alive hmem
    rw [ForkDatabase.aliveItems, List.mem_append] at hmem
    rcases hmem with hbefore | hheld
    · apply ForkDatabase.mem_items_of_alive h.released hhead
      exact List.mem_append_left _ hbefore
    · exact hitems alive hheld
  refine ⟨?_, halive⟩
  have haddress : (node.hold items).forkDb.nextAddress = node.forkDb.nextAddress := rfl
  apply h.wired.mono _ haddress
  intro item hitem
  rcases halive item hitem with hstored | rfl
  · exact ForkDatabase.mem_lines_of_alive (ForkDatabase.mem_aliveItems hstored)
  · exact ForkDatabase.mem_lines_of_head hhead

/-- The branches that a switch finds start at the head of the fork database and at the head block,
and go down to children of one block. -/
theorem AtRest.branches (hgenesis : initGenesis ctx.genesis = .ok s₀)
    (h : AtRest ctx blocks s₀ node chain) (hhead : node.forkDb.head = some top)
    (habove : node.headBlockNum < top.num)
    (hfetch : node.forkDb.fetchBranchFrom (top.id ctx.env) node.headBlockId = .ok (new, old)) :
    ∃ item other p, item.id ctx.env = top.id ctx.env ∧ other.id ctx.env = node.headBlockId ∧
      node.forkDb.Walk item new p ∧ node.forkDb.Walk other old p := by
  have hheaded := h.headed hgenesis
  have hlocks := h.wired.locksStored h.linked h.released hhead
  have hheadLe : node.headBlockId.num ≤ top.num := by
    have hnum : node.headBlockId.num = node.headBlockNum :=
      hheaded.head_num.trans hheaded.number.symm
    omega
  exact hlocks.fetchBranchFrom (ForkItem.num_id ctx.env top).le hheadLe hfetch

theorem Pops.has {popped kept : List (Database × SignedBlock)} {mid : Node ctx.env}
    (h : Pops ctx blocks s₀ (node.hold items) mid top low popped kept)
    (hhead : node.forkDb.head = some top) (hitem : mid.forkDb.Has item) : node.forkDb.Has item := by
  rw [h.forkDb] at hitem
  have hlow : node.forkDb.Has low := by
    rcases h.stored with rfl | hstored
    · exact .inr hhead
    · exact .inl hstored
  exact ForkDatabase.has_setHead hlow hitem

/-- Pops leave a node at rest, however far they have come. -/
theorem Pops.atRest {popped kept : List (Database × SignedBlock)} {mid : Node ctx.env}
    (h : Pops ctx blocks s₀ (node.hold items) mid top low popped kept)
    (hnode : AtRest ctx blocks s₀ node (popped ++ kept)) (hhead : node.forkDb.head = some top) :
    AtRest ctx blocks s₀ (mid.hold []) kept := by
  have hitems : mid.forkDb.items = node.forkDb.items := by
    rw [h.forkDb]
    rfl
  have hmidHead : mid.forkDb.head = some low := by
    rw [h.forkDb]
    rfl
  have hlog : mid.blockLog = node.blockLog := h.blockLog
  exact { h.sound.hold [] with
    wired := by
      have haddress : (mid.hold []).forkDb.nextAddress = node.forkDb.nextAddress := by
        rw [hold, h.forkDb]
        rfl
      apply hnode.wired.mono _ haddress
      intro item hitem
      have hitem : item ∈ mid.forkDb.items ++ mid.forkDb.head.toList ++ [] := hitem
      rw [hitems, hmidHead, List.append_nil, Option.toList_some, List.mem_append,
        List.mem_singleton] at hitem
      rcases hitem with hstored | rfl
      · exact ForkDatabase.mem_lines_of_alive (ForkDatabase.mem_aliveItems hstored)
      · obtain ⟨alive, halive, hline⟩ :=
          ForkDatabase.mem_lines.1 (ForkDatabase.mem_lines_of_head hhead)
        exact ForkDatabase.mem_lines.2 ⟨alive, halive, ForkItem.mem_line_trans h.line hline⟩
    released := rfl
    balanced := by
      have hbalanced := hnode.balanced
      have hsessions : mid.sessions.length + popped.length = node.sessions.length := h.sessions
      rw [List.length_append] at hbalanced
      have hbefore : mid.blockLog.length + mid.sessions.length = kept.length := by
        rw [hlog]
        omega
      exact hbefore
    connected := by
      intro item parent hitem hprev hlimit
      have hparent : parent ∈ mid.forkDb.items := by
        rw [hitems]
        exact hnode.connected item parent (h.has hhead hitem) hprev (hlog ▸ hlimit)
      exact hparent
    rooted := by
      rcases hnode.rooted with hempty | hroot
      · exact .inl (List.append_eq_nil_iff.1 hempty).2
      · right
        intro item hitem hnone
        exact (hroot item (h.has hhead hitem) hnone).trans_eq (by rw [← hlog]; rfl)
    headless := by
      intro hnone
      cases hnone.symm.trans hmidHead
    known := by
      intro other hother
      obtain rfl : low = other := Option.some.inj (hmidHead.symm.trans hother)
      have hknown : node.forkDb.isKnownBlock (low.id ctx.env) = true := by
        rcases h.stored with rfl | hstored
        · exact hnode.known low hhead
        · exact ForkDatabase.isKnownBlock_iff.2 ⟨low, hstored, rfl⟩
      obtain ⟨item, hitem, hid⟩ := ForkDatabase.isKnownBlock_iff.1 hknown
      exact ForkDatabase.isKnownBlock_iff.2 ⟨item, hitems ▸ hitem, hid⟩ }

theorem AtRest.rooted_of_known (hgenesis : initGenesis ctx.genesis = .ok s₀)
    (h : AtRest ctx blocks s₀ node chain) {other : ForkItem}
    (hid : other.id ctx.env = node.headBlockId) : node.forkDb.Rooted node.blockLog.length := by
  apply h.rooted.resolve_left
  rintro rfl
  have hzero : node.headBlockId.num = 0 := (h.headed hgenesis).head_num
  rw [← hid] at hzero
  cases hzero

/-- What pops that come to the fork leave: a node in the middle of a switch. -/
structure SwitchesTo (ctx : NodeContext) (blocks : Set SignedBlock) (s₀ : Database)
    (node mid : Node ctx.env) (top low : ForkItem) (new old : List ForkItem)
    (popped kept : List (Database × SignedBlock)) : Prop where
  switching : Switching ctx blocks s₀ mid low new.reverse kept
  wired : (mid.hold []).forkDb.Wired
  forkDb : mid.forkDb = (node.hold (top :: new ++ old)).forkDb.setHead low
  blockLog : mid.blockLog = node.blockLog
  num : low.num + old.length = top.num
  state : (node.state :: node.sessions)[old.length]? = some mid.state
  newest : new.head?.map (ForkItem.id ctx.env) = some (top.id ctx.env)

/-- What becomes of the pops of a switch. They come to the fork after as many blocks as the old
branch has. -/
theorem AtRest.pops (hgenesis : initGenesis ctx.genesis = .ok s₀)
    (h : AtRest ctx blocks s₀ node chain) (hhead : node.forkDb.head = some top)
    (habove : node.headBlockNum < top.num)
    (hfetch : node.forkDb.fetchBranchFrom (top.id ctx.env) node.headBlockId = .ok (new, old))
    {last : ForkItem} (hlast : old.getLast? = some last) {mid : Node ctx.env} {result : Exec Unit}
    (hpops : popUntil last.previousId top (node.hold (top :: new ++ old)) = (mid, result)) :
    ∃ popped kept low, chain = popped ++ kept ∧
      Pops ctx blocks s₀ (node.hold (top :: new ++ old)) mid top low popped kept ∧
      (result = .ok () → popped.length = old.length ∧
        PopsTo last.previousId node mid top low old.length) := by
  obtain ⟨item, other, p, _, hotherId, hnew, hold⟩ := h.branches hgenesis hhead habove hfetch
  have hguarded := h.guarded hhead (hnew.held hold)
  obtain ⟨popped, kept, low, rfl, hpopped, hresult⟩ :=
    (h.hold (top :: new ++ old)).popUntil hguarded le_rfl hhead hpops
  refine ⟨popped, kept, low, rfl, hpopped, fun hok ↦ ?_⟩
  have hreached := hresult hok
  have hcount : popped.length = old.length := by
    have hend := hold.getLast?_eq
    rw [hlast] at hend
    have hheight : node.headBlockId.num = popped.length + kept.length := by
      rw [← List.length_append]
      exact (h.headed hgenesis).head_num
    have hforkHeight : last.previousId.num = kept.length := by
      rw [← hreached.head]
      exact (hpopped.sound.headed hgenesis).head_num
    have hnum := hold.num_eq
    rw [← ForkItem.num_id ctx.env, hotherId, ← Option.some.inj hend] at hnum
    omega
  exact ⟨hcount, hreached.head, hcount ▸ hreached.num, hcount ▸ hreached.state⟩

theorem AtRest.switchesTo (hgenesis : initGenesis ctx.genesis = .ok s₀)
    (hparent : SeparatesParents ctx.env blocks) (h : AtRest ctx blocks s₀ node chain)
    (hhead : node.forkDb.head = some top) (habove : node.headBlockNum < top.num)
    (hnear : top.num ≤ node.headBlockNum + 3)
    (hfetch : node.forkDb.fetchBranchFrom (top.id ctx.env) node.headBlockId = .ok (new, old))
    {last : ForkItem} (hlast : old.getLast? = some last) {mid : Node ctx.env}
    (hpops : popUntil last.previousId top (node.hold (top :: new ++ old)) = (mid, .ok ())) :
    ∃ popped kept low, chain = popped ++ kept ∧
      SwitchesTo ctx blocks s₀ node mid top low new old popped kept := by
  obtain ⟨item, other, p, hitemId, hotherId, hnew, hold⟩ :=
    h.branches hgenesis hhead habove hfetch
  have hroot := h.rooted_of_known hgenesis hotherId
  obtain rfl : last.previousId = p := by
    have hend := hold.getLast?_eq
    rw [hlast] at hend
    exact Option.some.inj hend
  obtain ⟨popped, kept, low, rfl, hpopped, hresult⟩ :=
    h.pops hgenesis hhead habove hfetch hlast hpops
  obtain ⟨hcount, hid, hlowNum, hstate⟩ := hresult rfl
  have hkeptHeaded := hpopped.sound.headed hgenesis
  have hpNum : last.previousId.num = kept.length := by
    rw [← hid]
    exact hkeptHeaded.head_num
  have hnumber : node.headBlockNum = popped.length + kept.length := by
    rw [← List.length_append]
    exact (h.headed hgenesis).number
  have hline := hnew.descends h.linked (hpopped.sound.descends hgenesis) <| by
    rw [← hid]
    exact hkeptHeaded.id.symm
  -- The head of the fork database has come down to a block of the new branch.
  obtain ⟨first, hfirst, hfirstId⟩ := hnew.exists_of_line hparent h.linked hitemId
    (h.linked.head top hhead) hpopped.line (by omega)
  have hitems : mid.forkDb.items = node.forkDb.items := by
    rw [hpopped.forkDb]
    rfl
  have hmidHead : mid.forkDb.head = some low := by
    rw [hpopped.forkDb]
    rfl
  have hrest := hpopped.atRest h hhead
  refine ⟨popped, kept, low, rfl,
    { switching := { hpopped.sound with
        head := hmidHead
        near := by omega
        line := hline
        onLine := ?_
        kept := ?_
        known := hrest.known low hmidHead
        balanced := hrest.balanced
        connected := hrest.connected
        rooted := ?_ }
      wired := hrest.wired
      forkDb := hpopped.forkDb
      blockLog := hpopped.blockLog
      num := hlowNum
      state := hstate
      newest := ?_ }⟩
  · rw [← hfirstId]
    exact List.mem_append_right _ (List.mem_map_of_mem (List.mem_reverse.2 hfirst))
  · intro other hother
    rw [hitems]
    exact hnew.mem_items (List.mem_reverse.1 hother)
  · intro item hitem hnone
    rw [hpopped.blockLog]
    exact hroot item (hpopped.has hhead hitem) hnone
  · rw [hnew.head?_eq, Option.map_some, hitemId]

theorem switchForks_eq_ok {newHead : ForkItem} {switched : Bool}
    (h : node.switchForks ctx newHead = (node', .ok switched)) : ∃ new old last popped,
      node.forkDb.fetchBranchFrom (newHead.id ctx.env) node.headBlockId = .ok (new, old) ∧
      old.getLast? = some last ∧
      popUntil last.previousId newHead (node.hold (newHead :: new ++ old)) = (popped, .ok ()) ∧
      popped.applyBranch ctx new.reverse = (node', none) ∧ switched = true := by
  rw [switchForks] at h
  cases hfetch : node.forkDb.fetchBranchFrom (newHead.id ctx.env) node.headBlockId with
  | error e =>
    rw [hfetch] at h
    cases h
  | ok branches =>
    obtain ⟨new, old⟩ := branches
    simp only [hfetch] at h
    cases hlast : old.getLast? with
    | none =>
      simp only [hlast] at h
      cases h
    | some last =>
      simp only [hlast] at h
      cases hpops : popUntil last.previousId newHead (node.hold (newHead :: new ++ old)) with
      | mk popped result =>
        rw [hpops] at h
        cases result with
        | error e => cases h
        | ok _ =>
          dsimp only at h
          cases happly : popped.applyBranch ctx new.reverse with
          | mk applied failed =>
            rw [happly] at h
            cases failed with
            | none =>
              obtain ⟨rfl, hresult⟩ := Prod.mk.inj h
              exact ⟨new, old, last, popped, rfl, hlast, hpops, happly,
                (Except.ok.inj hresult).symm⟩
            | some failed =>
              dsimp only at h
              unfold restoreBranch at h
              split at h
              · cases h
              · dsimp only at h
                split at h
                · cases h
                · split at h <;> cases h

/-- What a switch leaves that applies the whole new branch: a settled node on that branch. -/
structure Switched (ctx : NodeContext) (blocks : Set SignedBlock) (s₀ : Database)
    (node node' : Node ctx.env) (top : ForkItem)
    (applied kept : List (Database × SignedBlock)) : Prop where
  settled : Settled ctx blocks s₀ (node'.hold []) (applied ++ kept)
  log : node.blockLog <+: node'.blockLog
  newest : applied.head?.map (fun entry ↦ ctx.env.blockId entry.2) = some (top.id ctx.env)
  items : ∀ item ∈ node'.forkDb.items, item ∈ node.forkDb.items
  head : node'.forkDb.head ≠ none

theorem SwitchesTo.switched (hskip : ctx.skip.validate = false)
    (hgenesis : initGenesis ctx.genesis = .ok s₀) (hparent : SeparatesParents ctx.env blocks)
    {mid : Node ctx.env} {popped kept : List (Database × SignedBlock)}
    (h : SwitchesTo ctx blocks s₀ node mid top low new old popped kept)
    (happly : mid.applyBranch ctx new.reverse = (node', none)) :
    ∃ applied, Switched ctx blocks s₀ node node' top applied kept := by
  obtain ⟨applied, hdata, hresult, hshrinks, hgrows⟩ :=
    h.switching.applyBranch hskip hgenesis hparent happly
  refine ⟨applied, hresult.settled hgenesis ((hshrinks.hold []).wired h.wired), ?_, ?_, ?_, ?_⟩
  · rw [← h.blockLog]
    exact hgrows
  · have hblocks : applied.map Prod.snd = new.map ForkItem.data := by
      rw [hdata, ← List.map_reverse, List.reverse_reverse]
    have hids : applied.map (fun entry ↦ ctx.env.blockId entry.2) =
        new.map (ForkItem.id ctx.env) := by
      have hmapped := congrArg (List.map ctx.env.blockId) hblocks
      rwa [List.map_map, List.map_map] at hmapped
    rw [← List.head?_map, hids, List.head?_map]
    exact h.newest
  · intro item hitem
    have hmem := hshrinks.items item hitem
    rw [h.forkDb] at hmem
    exact hmem
  · rw [hresult.head]
    exact Option.some_ne_none low

/-- A switch that returns. -/
theorem AtRest.switchForks (hskip : ctx.skip.validate = false)
    (hgenesis : initGenesis ctx.genesis = .ok s₀) (hparent : SeparatesParents ctx.env blocks)
    (h : AtRest ctx blocks s₀ node chain) (hhead : node.forkDb.head = some top)
    (habove : node.headBlockNum < top.num) (hnear : top.num ≤ node.headBlockNum + 3)
    {switched : Bool} (hok : node.switchForks ctx top = (node', .ok switched)) :
    ∃ popped applied kept, chain = popped ++ kept ∧
      Switched ctx blocks s₀ node node' top applied kept := by
  obtain ⟨new, old, last, mid, hfetch, hlast, hpops, happly, _⟩ := switchForks_eq_ok hok
  obtain ⟨popped, kept, low, rfl, hmid⟩ :=
    h.switchesTo hgenesis hparent hhead habove hnear hfetch hlast hpops
  obtain ⟨applied, hresult⟩ := hmid.switched hskip hgenesis hparent happly
  exact ⟨popped, applied, kept, rfl, hresult⟩

end Node

end SophiaTX.Chain
