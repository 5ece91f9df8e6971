import SophiaTX.Forks.Irreversibility
import SophiaTX.Forks.PendingNode

/-!
# Closing and opening again

The files of a node have its state with the sessions, and the block log. When they are opened every
session is undone, so the node comes back at the last block that has been committed, and looks this
block up in the log.
-/

namespace SophiaTX.Chain

open SophiaTX.Protocol SophiaTX.Lib

namespace Node

section Open

variable {env : Env}

/-- `undo_all`. -/
def undoAll (node : Node env) : Node env := undo^[node.sessions.length] node

/-- `open`, on the files of a node. -/
def reopen (node : Node env) : Exec (Node env) := do
  let node := node.undoAll
  fcAssert (node.revision = node.headBlockNum) "Chainbase revision does not match head block num"
  if node.headBlockNum = 0 then pure node
  else match (node.readBlockByNum node.headBlockNum).filter fun b ↦
      decide (env.blockId b = node.headBlockId) with
    | none => .error (.assertion
        "Chain state does not match block log. Please reindex blockchain.")
    | some b => pure { node with forkDb := node.forkDb.startBlock b }

/-! ## The blocks that a push applies -/

/-- The nodes after each of the blocks that `applyBranch` applies, in order. -/
def nodesOfBranch (ctx : NodeContext) : List ForkItem → Node env → List (Node env)
  | [], _ => []
  | item :: items, node =>
    match node.applyInSession ctx item.data with
    | (_, .error _) => []
    | (node, .ok ()) => node :: nodesOfBranch ctx items node

def nodesOfSwitch (ctx : NodeContext) (node : Node env) (newHead : ForkItem) : List (Node env) :=
  match node.forkDb.fetchBranchFrom (newHead.id env) node.headBlockId with
  | .error _ => []
  | .ok (new, old) =>
    match old.getLast? with
    | none => []
    | some last =>
      match popUntil last.previousId newHead (node.hold (newHead :: new ++ old)) with
      | (_, .error _) => []
      | (node, .ok ()) => nodesOfBranch ctx new.reverse node

/-- The nodes after each of the blocks that a push applies, in order. -/
def nodesOfPush (ctx : NodeContext) (node : Node env) (b : SignedBlock) : List (Node env) :=
  match node.forkDb.pushBlock b with
  | .error _ => []
  | .ok forkDb =>
    let node : Node env := { node with forkDb := forkDb }
    match forkDb.head with
    | none => []
    | some newHead =>
      if newHead.previousId ≠ node.headBlockId then
        if node.headBlockNum < newHead.num then nodesOfSwitch ctx node newHead else []
      else match node.applyInSession ctx b with
        | (_, .error _) => []
        | (node, .ok ()) => [node]

end Open

variable {ctx : NodeContext} {node node' : Node ctx.env} {s₀ : Database} {b : SignedBlock}
  {blocks : Set SignedBlock} {chain : List (Database × SignedBlock)} {top : ForkItem}
  {switched : Bool} {forkDb : ForkDatabase ctx.env}

/-! ## Pushes that return -/

theorem pushBlock_eq_ok (h : node.pushBlock ctx b = (node', .ok switched)) : ∃ forkDb top,
    node.forkDb.pushBlock b = .ok forkDb ∧ forkDb.head = some top ∧
      (top.num ≤ node.headBlockNum ∧ node' = { node with forkDb := forkDb } ∧
          node.nodesOfPush ctx b = [] ∨
        top.previousId = node.headBlockId ∧
          ({ node with forkDb := forkDb } : Node ctx.env).applyInSession ctx b = (node', .ok ()) ∧
          node.nodesOfPush ctx b = [node'] ∨
        top.previousId ≠ node.headBlockId ∧ node.headBlockNum < top.num ∧
          (∃ left, ({ node with forkDb := forkDb } : Node ctx.env).switchForks ctx top =
            (left, .ok switched) ∧ node' = left.hold []) ∧
          node.nodesOfPush ctx b =
            ({ node with forkDb := forkDb } : Node ctx.env).nodesOfSwitch ctx top) := by
  rw [pushBlock] at h
  cases hpush : node.forkDb.pushBlock b with
  | error e =>
    rw [hpush] at h
    cases h
  | ok forkDb =>
    simp only [hpush] at h
    cases hhead : forkDb.head with
    | none =>
      simp only [hhead] at h
      cases h
    | some top =>
      simp only [hhead] at h
      refine ⟨forkDb, top, rfl, hhead, ?_⟩
      split at h
      · rename_i hprevious
        split at h
        · rename_i habove
          have hnodes : node.nodesOfPush ctx b =
              ({ node with forkDb := forkDb } : Node ctx.env).nodesOfSwitch ctx top := by
            simp only [nodesOfPush, hpush, hhead]
            rw [if_pos hprevious, if_pos habove]
          obtain ⟨hleft, hresult⟩ := Prod.mk.inj h
          refine .inr (.inr ⟨hprevious, habove, ⟨_, ?_, hleft.symm⟩, hnodes⟩)
          rw [← hresult]
        · rename_i hlow
          have hnodes : node.nodesOfPush ctx b = [] := by
            simp only [nodesOfPush, hpush, hhead]
            rw [if_pos hprevious, if_neg hlow]
          obtain ⟨rfl, _⟩ := Prod.mk.inj h
          exact .inl ⟨Nat.not_lt.1 hlow, rfl, hnodes⟩
      · rename_i hprevious
        rw [applyPushed] at h
        cases happly : ({ node with forkDb := forkDb } : Node ctx.env).applyInSession ctx b with
        | mk left result =>
          rw [happly] at h
          cases result with
          | error e => cases h
          | ok _ =>
            obtain ⟨rfl, _⟩ := Prod.mk.inj h
            have hnodes : node.nodesOfPush ctx b = [left] := by
              simp only [nodesOfPush, hpush, hhead]
              rw [if_neg hprevious, happly]
            exact .inr (.inl ⟨not_not.1 hprevious, rfl, hnodes⟩)

/-! ## The block log -/

/-- The log has its blocks at the positions of their numbers. -/
theorem CommitsStores.logHeadNum_eq {committed : Exec Unit} {s : Database}
    (h : CommitsStores node node' s committed) (hlog : node.logHeadNum = node.blockLog.length) :
    node'.logHeadNum = node'.blockLog.length := by
  obtain ⟨appended, hblockLog, _, _, hbranch⟩ := h.blockLog
  rw [logHeadNum, hblockLog, List.getLast?_append, List.length_append]
  cases hlast : appended.getLast? with
  | none =>
    obtain rfl := List.getLast?_eq_none_iff.1 hlast
    exact hlog
  | some b =>
    rw [List.getLast?_eq_getElem?] at hlast
    obtain ⟨hposition, _⟩ := hbranch _ b hlast
    have hpos : appended.length - 1 < appended.length := (List.getElem?_eq_some_iff.1 hlast).1
    have hnum : b.blockNum = b.previous.num + 1 := rfl
    rw [Option.some_or, Option.map_some, Option.getD_some]
    omega

/-- The log goes up to the last irreversible block, unless it was longer before. -/
theorem length_blockLog_applied (hlog : node.logHeadNum = node.blockLog.length)
    (happly : node.applyInSession ctx b = (node', .ok ())) :
    node'.logHeadNum = node'.blockLog.length ∧ node'.blockLog.length =
      max node.blockLog.length node'.lastNonUndoableBlockNum := by
  obtain ⟨s, hs, hstate, hcommits⟩ := applyInSession_ok happly
  have hstores : CommitsStores node node' s (.ok ()) :=
    ⟨hcommits.blockLog, hcommits.kept, hcommits.window⟩
  have hirreversible : node'.lastNonUndoableBlockNum = s.dgp.lastIrreversibleBlockNum :=
    irreversible_of_beforeCommit hs hstate
  obtain ⟨hgrows, hmax, hreached⟩ := hstores.length_blockLog hlog
  refine ⟨hstores.logHeadNum_eq hlog, ?_⟩
  rw [hirreversible]
  exact le_antisymm hmax (max_le hgrows (hreached rfl))

theorem length_blockLog_branch {items : List ForkItem}
    (hlog : node.logHeadNum = node.blockLog.length)
    (happly : node.applyBranch ctx items = (node', none)) : node'.blockLog.length =
      ((nodesOfBranch ctx items node).map lastNonUndoableBlockNum).foldl max
        node.blockLog.length := by
  induction items generalizing node with
  | nil =>
    obtain ⟨rfl, _⟩ := Prod.mk.inj happly
    rfl
  | cons item items ih =>
    rw [applyBranch] at happly
    rw [nodesOfBranch]
    cases hitem : node.applyInSession ctx item.data with
    | mk mid result =>
      rw [hitem] at happly
      cases result with
      | error e => cases happly
      | ok _ =>
        obtain ⟨hmid, hlength⟩ := length_blockLog_applied hlog hitem
        rw [ih hmid happly, List.map_cons, List.foldl_cons, hlength]

theorem AtRest.length_blockLog_switch (hgenesis : initGenesis ctx.genesis = .ok s₀)
    (h : AtRest ctx blocks s₀ node chain) (hhead : node.forkDb.head = some top)
    (habove : node.headBlockNum < top.num)
    (hswitch : node.switchForks ctx top = (node', .ok switched)) : node'.blockLog.length =
      ((node.nodesOfSwitch ctx top).map lastNonUndoableBlockNum).foldl max
        node.blockLog.length := by
  obtain ⟨new, old, last, popped, hfetch, hlast, hpops, happly, _⟩ := switchForks_eq_ok hswitch
  obtain ⟨_, kept, _, _, hpopped, _⟩ := h.pops hgenesis hhead habove hfetch hlast hpops
  have hlog := hpopped.sound.logHeadNum_eq (hpopped.sound.headed hgenesis)
  rw [length_blockLog_branch hlog happly, nodesOfSwitch, hpopped.blockLog]
  simp only [hfetch, hlast, hpops]
  rfl

/-! ## Runs of pushes that return -/

/-- No block in the fork database is above the head. -/
structure Bounded (node : Node ctx.env) : Prop where
  items : ∀ item ∈ node.forkDb.items, item.num ≤ node.headBlockNum
  started : node.forkDb.head = none → node.headBlockNum = 0

theorem Opens.bounded (hgenesis : initGenesis ctx.genesis = .ok s₀)
    (h : Opens ctx s₀ node chain) : node.Bounded := by
  have hheaded := h.mainChain.headed hgenesis
  cases h with
  | genesis => exact ⟨nofun, fun _ ↦ hheaded.number⟩
  | reopened h =>
    refine ⟨fun item hitem ↦ ?_, nofun⟩
    obtain rfl := items_startBlock hitem
    have hnumber := congrArg Heading.headBlockNumber (applyBlock_heading h.linked.1).2
    exact hnumber.ge

/-- What is pushed comes no higher than the head of the fork database after it. -/
theorem Bounded.pushBlock (h : node.Bounded) (hpush : node.forkDb.pushBlock b = .ok forkDb)
    (hhead : forkDb.head = some top) {item : ForkItem} (hitem : item ∈ forkDb.items) :
    item.num ≤ max node.headBlockNum top.num := by
  obtain ⟨pushed, _, hnew, _, hitems⟩ := ForkDatabase.pushBlock_eq_ok hpush
  rw [hhead] at hnew
  rcases (hitems item).1 hitem with hold | ⟨rfl, _⟩
  · exact (h.items item hold).trans (le_max_left _ _)
  · apply le_max_of_le_right
    rw [Option.some.inj hnew, ForkDatabase.newHead]
    cases node.forkDb.head with
    | none => exact le_rfl
    | some before =>
      dsimp only
      split
      · exact le_rfl
      · rename_i hlow
        exact Nat.not_lt.1 hlow

/-- The head of the fork database after a push is no higher than the one of the node, or it is the
item of the block. -/
theorem Settled.newHead_cases (h : Settled ctx blocks s₀ node chain)
    (hpush : node.forkDb.pushBlock b = .ok forkDb) (hhead : forkDb.head = some top)
    (habove : node.headBlockNum < top.num) :
    top.data = b ∧ ∀ before, node.forkDb.head = some before → before.num < b.blockNum := by
  obtain ⟨item, hitem, hnew, _, _⟩ := ForkDatabase.pushBlock_eq_ok hpush
  have hdata : item.data = b := ForkDatabase.itemOf_data hitem
  rw [hhead] at hnew
  rcases ForkDatabase.newHead_cases item hnew.symm with rfl | hbefore
  · refine ⟨hdata, fun before hbefore ↦ ?_⟩
    have hlow := h.low before hbefore
    have hnum : top.num = b.blockNum := by rw [ForkItem.num, hdata]
    omega
  · have hlow := h.low top hbefore
    omega

/-- A block is switched to only if it is one above the head. -/
theorem Bounded.num_of_switch (h : node.Bounded) (hgenesis : initGenesis ctx.genesis = .ok s₀)
    (hsettled : Settled ctx blocks s₀ node chain) (hpush : node.forkDb.pushBlock b = .ok forkDb)
    (hhead : forkDb.head = some top) (habove : node.headBlockNum < top.num)
    (hswitch : ({ node with forkDb := forkDb } : Node ctx.env).switchForks ctx top =
      (node', .ok switched)) : top.num = node.headBlockNum + 1 := by
  obtain ⟨hdata, _⟩ := hsettled.newHead_cases hpush hhead habove
  have hnum : top.num = b.previous.num + 1 := by
    rw [ForkItem.num, hdata]
    rfl
  obtain ⟨item, hitem, _, _, _⟩ := ForkDatabase.pushBlock_eq_ok hpush
  rcases ForkDatabase.itemOf_cases hitem with ⟨_, hempty | hnull⟩ | ⟨parent, hparent, hid, _⟩
  · -- Nothing has been applied yet, so the head block is no block of the fork database.
    have hzero := h.started hempty
    have hheaded := hsettled.headed hgenesis
    have hheadNum : node.headBlockId.num = 0 := hheaded.head_num.trans (hheaded.number ▸ hzero)
    obtain ⟨_, _, _, _, hfetch, _⟩ := switchForks_eq_ok hswitch
    rw [ForkDatabase.fetchBranchFrom] at hfetch
    cases hfind : forkDb.index.find? (top.id ctx.env) with
    | none =>
      simp only [hfind] at hfetch
      cases hfetch
    | some first =>
      cases hfind' : forkDb.index.find? node.headBlockId with
      | none =>
        have hnone : forkDb.index.find?
            ({ node with forkDb := forkDb } : Node ctx.env).headBlockId = none := hfind'
        simp only [hfind, hnone] at hfetch
        cases hfetch
      | some second =>
        obtain ⟨_, hsecond⟩ := ForkDatabase.find?_eq_some.1 hfind'
        have hsecondNum : second.num = 0 := by
          rw [← ForkItem.num_id ctx.env, hsecond, hheadNum]
        cases hsecondNum
  · have hnullNum : b.previous.num = 0 := by
      rw [hnull]
      rfl
    omega
  · have hparentLe := h.items parent hparent
    rw [← ForkItem.num_id ctx.env, hid] at hparentLe
    omega

/-- What a push leaves that returns. -/
theorem Settled.push_returned (hskip : ctx.skip.validate = false)
    (hgenesis : initGenesis ctx.genesis = .ok s₀) (hparent : SeparatesParents ctx.env blocks)
    (h : Settled ctx blocks s₀ node chain) (hb : b ∈ blocks) (hbounded : node.Bounded)
    (hok : node.pushBlock ctx b = (node', .ok switched)) :
    (∃ chain', Settled ctx blocks s₀ node' chain') ∧ node'.Bounded ∧ node'.blockLog.length =
      ((node.nodesOfPush ctx b).map lastNonUndoableBlockNum).foldl max node.blockLog.length := by
  obtain ⟨forkDb, top, hpush, hhead, hcases⟩ := pushBlock_eq_ok hok
  have hheaded := h.headed hgenesis
  have hlog : node.logHeadNum = node.blockLog.length := h.logHeadNum_eq hheaded
  have hitems : ∀ item ∈ forkDb.items, item.num ≤ max node.headBlockNum top.num :=
    fun item hitem ↦ hbounded.pushBlock hpush hhead hitem
  rcases hcases with ⟨hlow, rfl, hnodes⟩ | ⟨hprevious, happly, hnodes⟩ |
    ⟨hprevious, habove, ⟨left, hswitch, rfl⟩, hnodes⟩
  · rw [hnodes]
    refine ⟨⟨chain, h.store hb hpush fun other hother ↦ ?_⟩, ⟨fun item hitem ↦ ?_, ?_⟩, rfl⟩
    · obtain rfl := Option.some.inj (hhead.symm.trans hother)
      exact hlow
    · exact (hitems item hitem).trans (max_le le_rfl hlow)
    · intro hnone
      rw [hhead] at hnone
      cases hnone
  · have hnum : top.num = node.headBlockNum + 1 := by
      rw [ForkItem.num_eq, hprevious]
      exact congrArg Nat.succ (hheaded.head_num.trans hheaded.number.symm)
    obtain ⟨hdata, hnew⟩ := h.newHead_cases hpush hhead (by omega)
    have hsettled := h.toAtRest.extend hskip hgenesis hparent hb hpush hnew happly
    have hnumber : node'.headBlockNum = node.headBlockNum + 1 := by
      rw [headBlockNum, (hsettled.headed hgenesis).number, List.length_cons, ← hheaded.number]
      rfl
    obtain ⟨size, hwindow⟩ := exists_window happly
    refine ⟨⟨_, hsettled⟩, ⟨fun item hitem ↦ ?_, ?_⟩, ?_⟩
    · rw [hwindow] at hitem
      have hle := hitems item (ForkDatabase.mem_items_of_setMaxSize hitem)
      omega
    · intro hnone
      rw [hwindow, ForkDatabase.head_setMaxSize] at hnone
      cases hhead.symm.trans hnone
    · have hstoredLog : ({ node with forkDb := forkDb } : Node ctx.env).logHeadNum =
          ({ node with forkDb := forkDb } : Node ctx.env).blockLog.length := hlog
      rw [hnodes]
      exact (length_blockLog_applied hstoredLog happly).2
  · have hnum := hbounded.num_of_switch hgenesis h hpush hhead habove hswitch
    have hstored : AtRest ctx blocks s₀ { node with forkDb := forkDb } chain :=
      h.toAtRest.store hb hpush
    obtain ⟨_, applied, kept, _, hswitched⟩ := hstored.switchForks hskip hgenesis hparent hhead
      habove (hnum.le.trans (Nat.le_add_right _ 2)) hswitch
    have hnumber : (left.hold []).headBlockNum = node.headBlockNum + 1 := by
      have hid := hswitched.newest
      have hsettled := hswitched.settled
      cases applied with
      | nil => cases hid
      | cons entry applied =>
        have hnewest := congrArg BlockId.num (Option.some.inj hid)
        have hheight := congrArg Heading.headBlockNumber
          (applyBlock_heading hsettled.main.linked.1).2
        exact (hheight.trans hnewest).trans hnum
    refine ⟨⟨_, hswitched.settled⟩, ⟨fun item hitem ↦ ?_, ?_⟩, ?_⟩
    · have hle := hitems item (hswitched.items item hitem)
      omega
    · exact fun hempty ↦ absurd hempty hswitched.head
    · have hlength := hstored.length_blockLog_switch hgenesis hhead habove hswitch
      rw [hnodes]
      exact hlength

/-! ## Undoing every session -/

theorem undo_withForkDb (node : Node ctx.env) (forkDb : ForkDatabase ctx.env) :
    ({ node with forkDb := forkDb } : Node ctx.env).undo = { node.undo with forkDb := forkDb } := by
  obtain ⟨state, sessions, revision, _, blockLog⟩ := node
  cases sessions <;> rfl

theorem undoAll_withForkDb (node : Node ctx.env) (forkDb : ForkDatabase ctx.env) :
    ({ node with forkDb := forkDb } : Node ctx.env).undoAll =
      { node.undoAll with forkDb := forkDb } := by
  have hiterate : ∀ count, undo^[count] ({ node with forkDb := forkDb } : Node ctx.env) =
      { undo^[count] node with forkDb := forkDb } := by
    intro count
    induction count with
    | zero => rfl
    | succ count ih =>
      rw [Function.iterate_succ_apply', ih, undo_withForkDb, ← Function.iterate_succ_apply' undo]
  exact hiterate node.sessions.length

/-- The blocks that have a session are undone. -/
theorem Sound.undoAll (h : Sound ctx blocks s₀ node chain) : ∃ rest, rest <:+ chain ∧
    Sound ctx blocks s₀ node.undoAll rest ∧ node.undoAll.sessions = [] ∧
    node.undoAll.blockLog = node.blockLog ∧
    rest.length + node.sessions.length = chain.length := by
  rw [Node.undoAll]
  generalize hcount : node.sessions.length = count
  induction count generalizing node chain with
  | zero =>
    exact ⟨chain, List.suffix_refl chain, h, List.length_eq_zero_iff.1 hcount, rfl, rfl⟩
  | succ count ih =>
    have hne : node.sessions ≠ [] := by
      rw [← List.length_pos_iff, hcount]
      exact Nat.succ_pos count
    obtain ⟨t, b, sessions, older, rfl, hsessions⟩ := h.exists_cons hne
    obtain ⟨hundone, _, hfewer, _⟩ := h.undo hsessions
    have hcount' : node.undo.sessions.length = count := by
      rw [hsessions, List.length_cons] at hcount
      rw [hfewer]
      exact Nat.succ.inj hcount
    obtain ⟨rest, hsuffix, hsound, hnone, hlog, hlength⟩ := ih hundone hcount'
    rw [Function.iterate_succ_apply]
    refine ⟨rest, hsuffix.trans (List.suffix_cons _ _), hsound, hnone, ?_, ?_⟩
    · exact hlog.trans (blockLog_undo node)
    · rw [List.length_cons, ← hlength]
      rfl

/-- A settled node is opened again at the last block of its log. -/
structure RestartsAt (ctx : NodeContext) (s₀ : Database) (head : Database) (num : ℕ)
    (node : Node ctx.env) : Prop where
  main : ∃ chain rest, MainChain ctx.toContext s₀ chain head ∧ rest <:+ chain ∧
    rest.length = num ∧ MainChain ctx.toContext s₀ rest node.state
  sessions : node.sessions = []
  number : node.headBlockNum = num
  revision : node.revision = node.headBlockNum
  logged : num ≠ 0 → ∃ b, node.readBlockByNum num = some b ∧ ctx.env.blockId b = node.headBlockId

/-- `open` returns when the head block after `undo_all` has the number of the revision and is in the
log. -/
theorem reopen_eq_ok (node : Node ctx.env)
    (hrevision : node.undoAll.revision = node.undoAll.headBlockNum)
    (hlogged : node.undoAll.headBlockNum ≠ 0 → ∃ b,
      node.undoAll.readBlockByNum node.undoAll.headBlockNum = some b ∧
        ctx.env.blockId b = node.undoAll.headBlockId) :
    ∃ forkDb, node.reopen = .ok { node.undoAll with forkDb := forkDb } := by
  rw [Node.reopen]
  dsimp only
  rw [fcAssert, if_pos hrevision, ok_bind]
  by_cases hzero : node.undoAll.headBlockNum = 0
  · rw [if_pos hzero]
    exact ⟨_, rfl⟩
  · obtain ⟨b, hread, hid⟩ := hlogged hzero
    rw [if_neg hzero, hread, Option.filter_some, if_pos (decide_eq_true hid)]
    exact ⟨_, rfl⟩

/-- A settled node is opened again at the last block of its log, whatever the fork database. -/
theorem Settled.reopen (hgenesis : initGenesis ctx.genesis = .ok s₀)
    (h : Settled ctx blocks s₀ node chain) (forkDb : ForkDatabase ctx.env) : ∃ reopened,
      ({ node with forkDb := forkDb } : Node ctx.env).reopen = .ok reopened ∧
      reopened.state = ({ node with forkDb := forkDb } : Node ctx.env).undoAll.state ∧
      RestartsAt ctx s₀ node.state node.blockLog.length reopened := by
  obtain ⟨rest, hsuffix, hsound, hnone, hlog, hlength⟩ := h.toSound.undoAll
  have hheaded := hsound.headed hgenesis
  have hrest : rest.length = node.blockLog.length := by
    have hbalanced := h.balanced
    omega
  have hnumber : node.undoAll.headBlockNum = node.blockLog.length :=
    hheaded.number.trans hrest
  have hrevision : node.undoAll.revision = node.undoAll.headBlockNum :=
    hsound.revision.trans hheaded.number.symm
  have hlogged : node.undoAll.headBlockNum ≠ 0 → ∃ b,
      node.undoAll.readBlockByNum node.undoAll.headBlockNum = some b ∧
        ctx.env.blockId b = node.undoAll.headBlockId := by
    intro hne
    rw [hnumber] at hne ⊢
    have hlast : node.blockLog.length - 1 < node.undoAll.blockLog.length := by
      rw [hlog]
      omega
    obtain ⟨b, hread, hid⟩ := readBlockByNum_main hsound.log hlast
    rw [Nat.sub_add_cancel (Nat.pos_of_ne_zero hne)] at hread
    refine ⟨b, hread, ?_⟩
    have hheadId := hheaded.id
    rw [List.getLast?_eq_getElem?, length_mainIds, hrest, hid, Option.getD_some] at hheadId
    exact hheadId.symm
  have hundone := undoAll_withForkDb node forkDb
  obtain ⟨forkDb', hreopen⟩ : ∃ forkDb', ({ node with forkDb := forkDb } : Node ctx.env).reopen =
      .ok { node.undoAll with forkDb := forkDb' } := by
    have hok := reopen_eq_ok ({ node with forkDb := forkDb } : Node ctx.env)
    rw [hundone] at hok
    exact hok hrevision hlogged
  refine ⟨_, hreopen, ?_, ⟨chain, rest, h.main, hsuffix, hrest, hsound.main⟩, hnone, hnumber,
    hrevision, fun hne ↦ ?_⟩
  · rw [hundone]
  · rw [← hnumber] at hne ⊢
    exact hlogged hne

end Node

/-! ## Nodes with pending transactions -/

namespace PendingNode

/-- `close`. -/
def close {env : Env} (p : PendingNode env) : Node env :=
  { p.clearPending.node with forkDb := p.clearPending.node.forkDb.reset }

/-- Runs in which every block that is pushed is one of these and accepted, each with the largest
number that has been committed as that of the last irreversible block. A node that is opened starts
at that block. -/
inductive Runs (ctx : PendingContext) (blocks : Set SignedBlock) (start : Node ctx.env) :
    PendingNode ctx.env → ℕ → Prop
  | refl : Runs ctx blocks start (idle start) start.headBlockNum
  | pushBlock {p : PendingNode ctx.env} {num : ℕ} (h : Runs ctx blocks start p num)
      (b : SignedBlock) (hb : b ∈ blocks) (hok : (p.pushBlock ctx b).2.isOk = true) :
      Runs ctx blocks start (p.pushBlock ctx b).1
        (((p.headNode.nodesOfPush ctx.toNodeContext b).map
          Node.lastNonUndoableBlockNum).foldl max num)
  | pushTransaction {p : PendingNode ctx.env} {num : ℕ} (h : Runs ctx blocks start p num)
      (trx : Transaction) : Runs ctx blocks start (p.pushTransaction ctx trx).1 num

variable {ctx : PendingContext} {start : Node ctx.env} {p : PendingNode ctx.env} {num : ℕ}
  {s₀ : Database} {blocks : Set SignedBlock} {chain : List (Database × SignedBlock)}

theorem Runs.reaches (h : Runs ctx blocks start p num) : Reaches ctx (idle start) p := by
  induction h with
  | refl => exact .refl
  | pushBlock _ b _ _ ih => exact ih.call (.pushBlock b)
  | pushTransaction _ trx ih => exact ih.call (.pushTransaction trx)

/-- Without its pending transactions the node stays settled, and its log goes up to the largest
number. -/
theorem Runs.settled (hskip : ctx.skip.validate = false)
    (hgenesis : initGenesis ctx.genesis = .ok s₀) (hparent : SeparatesParents ctx.env blocks)
    (hstart : Node.Opens ctx.toNodeContext s₀ start chain) (hmade : MadeOf blocks chain)
    (h : Runs ctx blocks start p num) :
    (∃ chain', Node.Settled ctx.toNodeContext blocks s₀ p.headNode chain') ∧ p.headNode.Bounded ∧
      p.headNode.blockLog.length = num := by
  induction h with
  | refl =>
    have hsettled := hstart.settled hskip hgenesis hmade
    have hbalanced := hsettled.balanced
    have hnumber : start.headBlockNum = chain.length := (hsettled.headed hgenesis).number
    have hnone : start.sessions.length = 0 := by
      cases hstart <;> rfl
    refine ⟨⟨chain, hsettled⟩, hstart.bounded hgenesis, ?_⟩
    have hlog : start.blockLog.length = start.headBlockNum := by omega
    exact hlog
  | @pushBlock p num h b hb hok ih =>
    obtain ⟨⟨chain', hsettled⟩, hbounded, hlog⟩ := ih
    have hpends := h.reaches.pends
    rw [(hpends.pushBlock b).1.headNode_eq]
    have hresult : (p.pushBlock ctx b).2 =
        (p.headNode.pushBlock ctx.toNodeContext b).2 := rfl
    rw [hresult] at hok
    cases hpush : p.headNode.pushBlock ctx.toNodeContext b with
    | mk node result =>
      rw [hpush] at hok
      cases result with
      | error e => cases hok
      | ok switched =>
        rw [← hlog]
        obtain ⟨⟨chain', hnext⟩, hbounded', hlog'⟩ :=
          hsettled.push_returned hskip hgenesis hparent hb hbounded hpush
        exact ⟨⟨chain', hnext.withPopped []⟩, ⟨hbounded'.items, hbounded'.started⟩, hlog'⟩
  | @pushTransaction p num h trx ih =>
    have hpends := h.reaches.pends
    rw [(hpends.pushTransaction trx).1.headNode_eq]
    exact ih

/-- A node that is closed is opened again at the last block that has been committed, and has this
block in its log. -/
theorem reopened_at_last_committed (hskip : ctx.skip.validate = false)
    (hgenesis : initGenesis ctx.genesis = .ok s₀) (hparent : SeparatesParents ctx.env blocks)
    (hstart : Node.Opens ctx.toNodeContext s₀ start chain) (hmade : MadeOf blocks chain)
    (h : Runs ctx blocks start p num)
    (forkDb : ForkDatabase ctx.env) : ∃ reopened,
      ({ p.close with forkDb := forkDb } : Node ctx.env).reopen = .ok reopened ∧
      reopened.state = ({ p.close with forkDb := forkDb } : Node ctx.env).undoAll.state ∧
      Node.RestartsAt ctx.toNodeContext s₀ p.headNode.state num reopened := by
  obtain ⟨⟨_, hsettled⟩, _, hlog⟩ := h.settled hskip hgenesis hparent hstart hmade
  rw [← hlog]
  exact hsettled.reopen hgenesis forkDb

/-- A network whose last irreversible block is two blocks below the head. -/
def promptPool : PendingContext := { Node.promptNodes with trxSize := fun _ ↦ 100 }

/-- Three blocks, with a transfer that is pending before the last of them. -/
theorem reopened_at_first_block :
    ∃ s₀, ∃ p : PendingNode promptPool.env, ∃ reopened, initGenesis promptPool.genesis = .ok s₀ ∧
      p.headNode.headBlockNum = 3 ∧
      ({ p.close with forkDb := ForkDatabase.empty } : Node promptPool.env).reopen =
        .ok reopened ∧
      Node.RestartsAt promptPool.toNodeContext s₀ p.headNode.state 1 reopened := by
  have hok : okAnd (initGenesis promptPool.genesis) (fun s₀ ↦
      let start : PendingNode promptPool.env := idle (Node.opened s₀)
      let first := start.pushBlock promptPool Node.firstBlock
      let second := first.1.pushBlock promptPool (Node.secondBlock 7)
      let transfer := second.1.pushTransaction promptPool smallTransfer
      let third := transfer.1.pushBlock promptPool (Node.thirdBlock 7)
      first.2.isOk && second.2.isOk && third.2.isOk && decide
        (transfer.1.pendingTx = [smallTransfer] ∧ third.1.headNode.headBlockNum = 3 ∧
          ((transfer.1.headNode.nodesOfPush promptPool.toNodeContext (Node.thirdBlock 7)).map
            Node.lastNonUndoableBlockNum).foldl max
            (((first.1.headNode.nodesOfPush promptPool.toNodeContext (Node.secondBlock 7)).map
              Node.lastNonUndoableBlockNum).foldl max
              (((start.headNode.nodesOfPush promptPool.toNodeContext Node.firstBlock).map
                Node.lastNonUndoableBlockNum).foldl max
                (Node.opened s₀ : Node promptPool.env).headBlockNum)) = 1)) = true := by
    decide +kernel
  obtain ⟨s₀, hgenesis, hs₀⟩ := exists_of_okAnd hok
  simp only [Bool.and_eq_true, decide_eq_true_eq] at hs₀
  obtain ⟨⟨⟨hfirst, hsecond⟩, hthird⟩, _, hheight, hnum⟩ := hs₀
  have hruns : Runs promptPool Set.univ (Node.opened s₀) _ _ :=
    (((Runs.refl.pushBlock Node.firstBlock (Set.mem_univ _) hfirst).pushBlock
      (Node.secondBlock 7) (Set.mem_univ _) hsecond).pushTransaction smallTransfer).pushBlock
        (Node.thirdBlock 7) (Set.mem_univ _) hthird
  rw [hnum] at hruns
  have hopens : Node.Opens promptPool.toNodeContext s₀ (Node.opened s₀) [] := .genesis
  obtain ⟨reopened, hreopen, _, hrestarts⟩ := reopened_at_last_committed rfl hgenesis
    (linkedContext_separatesParents Set.univ) hopens (List.forall_mem_nil _) hruns
    ForkDatabase.empty
  exact ⟨s₀, _, reopened, hgenesis, hheight, hreopen, hrestarts⟩

end PendingNode

end SophiaTX.Chain
