import SophiaTX.Forks.Soundness

/-!
# Calls on a node

A node is opened, at genesis or again later, and then blocks are pushed and popped in any order.
Between two calls a sound node is at rest; it is settled when the head of its fork database is no
higher than its own.
-/

namespace SophiaTX.Chain

open SophiaTX.Protocol SophiaTX.Lib

namespace Node

inductive Call where
  | push (b : SignedBlock)
  | pop

/-- The block of a push is one of these. -/
def Call.Within (blocks : Set SignedBlock) : Call → Prop
  | .push b => b ∈ blocks
  | .pop => True

theorem Call.within_univ (c : Call) : c.Within Set.univ := by
  cases c <;> trivial

/-- The node after a call, whether it has returned or thrown. -/
def call {env : Env} (ctx : NodeContext) (node : Node env) : Call → Node env
  | .push b => (node.pushBlock ctx b).1
  | .pop =>
    match node.popBlock with
    | .ok node' => node'
    | .error _ => node

/-- A node that has been opened, at genesis or again later: the state is that of the last block of
the log then, and the fork database has this block alone. -/
inductive Opens (ctx : NodeContext) (s₀ : Database) :
    Node ctx.env → List (Database × SignedBlock) → Prop
  | genesis : Opens ctx s₀ (Node.opened s₀) []
  | reopened {chain : List (Database × SignedBlock)} {s t : Database} {b : SignedBlock}
      (h : MainChain ctx.toContext s₀ ((t, b) :: chain) s) :
      Opens ctx s₀
        { state := s
          sessions := []
          revision := chain.length + 1
          forkDb := ForkDatabase.empty.startBlock b
          blockLog := (b :: chain.map Prod.snd).reverse } ((t, b) :: chain)

/-- What calls lead to that push some of these blocks and meet a condition on the node they are made
on. -/
inductive Reaches (ctx : NodeContext) (blocks : Set SignedBlock) (C : Node ctx.env → Call → Bool)
    (start : Node ctx.env) : Node ctx.env → Prop
  | refl : Reaches ctx blocks C start start
  | call {node : Node ctx.env} (h : Reaches ctx blocks C start node) (c : Call)
      (hc : c.Within blocks) (hC : C node c = true) : Reaches ctx blocks C start (node.call ctx c)

/-- Calls one after the other, each of which meets a condition. -/
def allMeet (ctx : NodeContext) (C : Node ctx.env → Call → Bool) (node : Node ctx.env) :
    List Call → Bool
  | [] => true
  | c :: cs => C node c && allMeet ctx C (node.call ctx c) cs

variable {ctx : NodeContext} {node node' : Node ctx.env} {s s₀ : Database} {b : SignedBlock}
  {blocks : Set SignedBlock} {chain : List (Database × SignedBlock)} {top : ForkItem}
  {id : BlockId} {n : ℕ} {forkDb : ForkDatabase ctx.env}

theorem reaches_of_allMeet {C : Node ctx.env → Call → Bool} {start : Node ctx.env} {cs : List Call}
    (h : Reaches ctx Set.univ C start node) (hcs : allMeet ctx C node cs = true) :
    Reaches ctx Set.univ C start (cs.foldl (Node.call ctx) node) := by
  induction cs generalizing node with
  | nil => exact h
  | cons c cs ih =>
    rw [allMeet, Bool.and_eq_true] at hcs
    exact ih (h.call c c.within_univ hcs.1) hcs.2

theorem reaches_foldl {start : Node ctx.env} {cs : List Call}
    (h : Reaches ctx Set.univ (fun _ _ ↦ true) start node) :
    Reaches ctx Set.univ (fun _ _ ↦ true) start (cs.foldl (Node.call ctx) node) := by
  induction cs generalizing node with
  | nil => exact h
  | cons c cs ih => exact ih (h.call c c.within_univ rfl)

/-- A sound node between two calls. The block log and the sessions divide its chain. Its fork
database has the parents of its items above the log, and an item for its head; it has nothing only
before the first block. -/
structure AtRest (ctx : NodeContext) (blocks : Set SignedBlock) (s₀ : Database)
    (node : Node ctx.env) (chain : List (Database × SignedBlock)) : Prop
    extends Sound ctx blocks s₀ node chain where
  wired : node.forkDb.Wired
  released : node.forkDb.held = []
  balanced : node.blockLog.length + node.sessions.length = chain.length
  connected : node.forkDb.Connected node.blockLog.length
  rooted : chain = [] ∨ node.forkDb.Rooted node.blockLog.length
  headless : node.forkDb.head = none → chain = [] ∧ node.forkDb.items = []
  known : ∀ top, node.forkDb.head = some top → node.forkDb.isKnownBlock (top.id ctx.env) = true

/-- A node at rest whose fork database has a head that is no higher than the head block. -/
structure Settled (ctx : NodeContext) (blocks : Set SignedBlock) (s₀ : Database)
    (node : Node ctx.env) (chain : List (Database × SignedBlock)) : Prop
    extends AtRest ctx blocks s₀ node chain where
  low : ∀ top, node.forkDb.head = some top → top.num ≤ node.headBlockNum

theorem Settled.withPopped (h : Settled ctx blocks s₀ node chain) (poppedTx : List Transaction) :
    Settled ctx blocks s₀ (node.withPopped poppedTx) chain :=
  { h.toSound.withPopped poppedTx with
    wired := h.wired
    released := h.released
    balanced := h.balanced
    connected := h.connected
    rooted := h.rooted
    headless := h.headless
    known := h.known
    low := h.low }

/-! ## Opening -/

theorem Opens.mainChain (h : Opens ctx s₀ node chain) :
    MainChain ctx.toContext s₀ chain node.state := by
  cases h with
  | genesis => exact .genesis
  | reopened h => exact h

theorem items_startBlock {item : ForkItem}
    (h : item ∈ (ForkDatabase.empty.startBlock b : ForkDatabase ctx.env).items) :
    item = .unlinked 0 b := by
  have hinsert : item ∈ (ForkDatabase.empty.insert (.unlinked 0 b) : ForkDatabase ctx.env).items :=
    h
  rcases ForkDatabase.mem_items_insert.1 hinsert with hempty | ⟨rfl, _⟩
  · cases hempty
  · rfl

theorem wired_startBlock :
    (ForkDatabase.empty.startBlock b : ForkDatabase ctx.env).Wired := by
  have hlines : ∀ item ∈ (ForkDatabase.empty.startBlock b : ForkDatabase ctx.env).lines,
      item = .unlinked 0 b := by
    intro item hitem
    obtain ⟨start, hstart, hline⟩ := ForkDatabase.mem_lines.1 hitem
    have hstart' : start = .unlinked 0 b := by
      rcases List.mem_append.1 hstart with hstart | hheld
      · rcases List.mem_append.1 hstart with hstored | hhead
        · exact items_startBlock hstored
        · exact List.mem_singleton.1 hhead
      · cases hheld
    rw [hstart'] at hline
    exact List.mem_singleton.1 hline
  constructor
  · intro item hitem
    rw [hlines item hitem]
    exact Nat.zero_lt_one
  · intro item hitem other hother _
    rw [hlines item hitem, hlines other hother]

theorem has_startBlock {item : ForkItem}
    (h : (ForkDatabase.empty.startBlock b : ForkDatabase ctx.env).Has item) :
    item = .unlinked 0 b := by
  rcases h with hstored | hhead
  · exact items_startBlock hstored
  · exact (Option.some.inj hhead).symm

theorem Opens.settled (hskip : ctx.skip.validate = false)
    (hgenesis : initGenesis ctx.genesis = .ok s₀) (h : Opens ctx s₀ node chain)
    (hmade : MadeOf blocks chain) : Settled ctx blocks s₀ node chain := by
  cases h with
  | genesis =>
    have hsound : Sound ctx blocks s₀ (Node.opened s₀) [] :=
      { main := .genesis
        made := hmade
        sessions := List.nil_prefix
        revision := rfl
        log := List.nil_prefix
        committed := le_rfl
        irreversible := by
          intro s hs
          obtain rfl : s = s₀ := List.mem_singleton.1 hs
          exact (initGenesis_irreversible hgenesis).le
        stored := by
          intro n id _ hid
          cases hid
        linked := ⟨List.forall_mem_nil _, fun _ hhead ↦ (Option.some_ne_none _ hhead.symm).elim⟩ }
    have hnothing : ∀ item, ¬ (Node.opened s₀ : Node ctx.env).forkDb.Has item := by
      intro item hitem
      rcases hitem with hstored | hhead
      · cases hstored
      · cases hhead
    exact { hsound with
      wired := ⟨List.forall_mem_nil _, List.forall_mem_nil _⟩
      released := rfl
      balanced := rfl
      connected := fun item _ hitem ↦ absurd hitem (hnothing item)
      rooted := .inl rfl
      headless := fun _ ↦ ⟨rfl, rfl⟩
      known := fun _ hhead ↦ (Option.some_ne_none _ hhead.symm).elim
      low := fun _ hhead ↦ (Option.some_ne_none _ hhead.symm).elim }
  | @reopened chain s t b h =>
    have hheaded := h.headed hgenesis
    have hids : (b :: chain.map Prod.snd).reverse.map ctx.env.blockId =
        mainIds ctx.env ((t, b) :: chain) := by
      rw [mainIds, List.map_reverse, List.map_cons, List.map_map]
      rfl
    have hlength : (b :: chain.map Prod.snd).reverse.length = chain.length + 1 := by
      rw [List.length_reverse, List.length_cons, List.length_map]
    have hhead : s.dgp.headBlockId = ctx.env.blockId b :=
      congrArg Heading.headBlockId (applyBlock_heading h.linked.1).2
    have hnum : b.blockNum = chain.length + 1 := by
      have hheadNum : b.blockNum = (s.dgp.headBlockId).num := congrArg BlockId.num hhead.symm
      exact hheadNum.trans hheaded.head_num
    have hirreversible : s.dgp.lastIrreversibleBlockNum ≤ chain.length + 1 :=
      (h.linked.runsFrom.irreversible_le_head hskip hgenesis).trans hheaded.number.le
    have hsound : Sound ctx blocks s₀
        { state := s
          sessions := []
          revision := chain.length + 1
          forkDb := ForkDatabase.empty.startBlock b
          blockLog := (b :: chain.map Prod.snd).reverse } ((t, b) :: chain) :=
      { main := h
        made := hmade
        sessions := List.nil_prefix
        revision := rfl
        log := by
          rw [hids]
        committed := hlength.le
        irreversible := by
          intro other hother
          obtain rfl : other = s := List.mem_singleton.1 hother
          rw [hlength]
          exact hirreversible
        stored := by
          intro n id hn hid
          have hlt := (List.getElem?_eq_some_iff.1 hid).1
          rw [length_mainIds, List.length_cons, ← hlength] at hlt
          exact absurd hn (Nat.not_le_of_lt hlt)
        linked := by
          have hb : b ∈ blocks := hmade (t, b) List.mem_cons_self
          constructor
          · intro item hitem
            rw [items_startBlock hitem]
            exact hb
          · intro item hitem
            obtain rfl := Option.some.inj hitem
            exact hb }
    exact { hsound with
      wired := wired_startBlock
      released := rfl
      balanced := hlength
      connected := by
        intro item parent hitem hprev
        rw [has_startBlock hitem] at hprev
        cases hprev
      rooted := by
        right
        intro item hitem _
        rw [has_startBlock hitem, hlength]
        exact hnum.le.trans (le_max_right _ _)
      headless := fun hhead ↦ absurd hhead (Option.some_ne_none _)
      known := by
        intro top htop
        obtain rfl := Option.some.inj htop
        apply ForkDatabase.isKnownBlock_iff.2
        exact ⟨.unlinked 0 b, ForkDatabase.mem_items_insert.2 (.inr ⟨rfl, rfl⟩), rfl⟩
      low := by
        intro top htop
        obtain rfl := Option.some.inj htop
        exact (hnum.trans hheaded.number.symm).le }

/-! ## Blocks that are stored -/

/-- The item of a block is that of its id. -/
theorem id_itemOf {item : ForkItem} (hitem : node.forkDb.itemOf b = .ok item) :
    item.id ctx.env = ctx.env.blockId b := by
  rw [ForkItem.id, ForkDatabase.itemOf_data hitem]

/-- A block that is only stored leaves a node at rest. -/
theorem AtRest.store (h : AtRest ctx blocks s₀ node chain) (hb : b ∈ blocks)
    (hpush : node.forkDb.pushBlock b = .ok forkDb) :
    AtRest ctx blocks s₀ { node with forkDb := forkDb } chain := by
  obtain ⟨item, hitem, hnew, _, _⟩ := ForkDatabase.pushBlock_eq_ok hpush
  exact { h.toSound.store hb hpush with
    wired := h.wired.pushBlock hpush
    released := (ForkDatabase.held_pushBlock hpush).trans h.released
    balanced := h.balanced
    connected := h.connected.pushBlock hpush
    rooted := by
      rcases h.rooted with hempty | hroot
      · exact .inl hempty
      · by_cases hhead : node.forkDb.head = none
        · exact .inl (h.headless hhead).1
        · exact .inr (hroot.pushBlock (fun hnone ↦ absurd hnone hhead) hpush)
    headless := by
      intro hnone
      have hsome : forkDb.head = none := hnone
      rw [hnew] at hsome
      cases hsome
    known := by
      intro top htop
      have htop : forkDb.head = some top := htop
      rw [hnew] at htop
      rcases ForkDatabase.newHead_cases item htop with rfl | hbefore
      · rw [id_itemOf hitem]
        exact ForkDatabase.isKnownBlock_pushBlock hpush
      · exact ForkDatabase.isKnownBlock_of_pushBlock hpush (h.known top hbefore) }

/-- A block that leaves the head of the fork database low is stored. -/
theorem Settled.store (h : Settled ctx blocks s₀ node chain) (hb : b ∈ blocks)
    (hpush : node.forkDb.pushBlock b = .ok forkDb)
    (hlow : ∀ top, forkDb.head = some top → top.num ≤ node.headBlockNum) :
    Settled ctx blocks s₀ { node with forkDb := forkDb } chain :=
  { h.toAtRest.store hb hpush with low := hlow }

/-! ## Blocks that are applied -/

/-- The log takes the blocks whose sessions are dropped. -/
theorem balanced_applied (hskip : ctx.skip.validate = false)
    (hgenesis : initGenesis ctx.genesis = .ok s₀) (h : Sound ctx blocks s₀ node chain)
    (hbalanced : node.blockLog.length + node.sessions.length = chain.length)
    (happly : node.applyInSession ctx b = (node', .ok ())) :
    node'.blockLog.length + node'.sessions.length = chain.length + 1 := by
  obtain ⟨s, hs, hstate, hcommits⟩ := applyInSession_ok happly
  have hlogHead : node.logHeadNum = node.blockLog.length := h.logHeadNum_eq (h.headed hgenesis)
  obtain ⟨_, hirreversible⟩ := h.heights_beforeCommit hskip hgenesis hs hstate
  have hstores : CommitsStores node node' s (.ok ()) :=
    ⟨hcommits.blockLog, hcommits.kept, hcommits.window⟩
  obtain ⟨hgrows, hmax, hreached⟩ := hstores.length_blockLog hlogHead
  have hreached := hreached rfl
  have hrevision : node.startUndoSession.revision = chain.length + 1 :=
    congrArg Nat.succ h.revision
  have hsessions : node'.sessions = (node.state :: node.sessions).take
      (chain.length + 1 - s.dgp.lastIrreversibleBlockNum) := by
    rw [hcommits.sessions, hrevision]
    rfl
  rw [hsessions, List.length_take, List.length_cons]
  omega

theorem applyInSession_log (h : node.applyInSession ctx b = (node', .ok ())) :
    node.blockLog <+: node'.blockLog := by
  obtain ⟨_, _, _, hcommits⟩ := applyInSession_ok h
  obtain ⟨appended, hlog, _⟩ := hcommits.blockLog
  rw [hlog]
  exact List.prefix_append _ _

theorem headBlockId_applied (h : node.applyInSession ctx b = (node', .ok ())) :
    node'.headBlockId = ctx.env.blockId b := by
  obtain ⟨_, _, hstate, _⟩ := applyInSession_ok h
  exact congrArg Heading.headBlockId (applyBlock_heading hstate).2

/-- The window of the fork database after a block. -/
theorem exists_window (h : node.applyInSession ctx b = (node', .ok ())) :
    ∃ size, node'.forkDb = node.forkDb.setMaxSize size := by
  obtain ⟨s, _, _, hcommits⟩ := applyInSession_ok h
  exact ⟨_, hcommits.window rfl⟩

/-- The window after a block that is applied at most two blocks below the head of the fork database
keeps what comes after the log, and the head. -/
theorem Sound.window (hskip : ctx.skip.validate = false)
    (hgenesis : initGenesis ctx.genesis = .ok s₀) (h : Sound ctx blocks s₀ node chain)
    (happly : node.applyInSession ctx b = (node', .ok ())) (htop : top.num ≤ chain.length + 3) :
    ∃ size, node'.forkDb = node.forkDb.setMaxSize size ∧
      max 0 ((top.num : ℤ) - size) ≤ node'.blockLog.length + 1 ∧
      max 0 ((top.num : ℤ) - size) ≤ chain.length + 2 ∧
      max 0 ((top.num : ℤ) - size) ≤ top.num := by
  obtain ⟨s, hs, hstate, hcommits⟩ := applyInSession_ok happly
  have hlogHead : node.logHeadNum = node.blockLog.length := h.logHeadNum_eq (h.headed hgenesis)
  obtain ⟨hheadNum, hirreversible⟩ := h.heights_beforeCommit hskip hgenesis hs hstate
  have hstores : CommitsStores node node' s (.ok ()) :=
    ⟨hcommits.blockLog, hcommits.kept, hcommits.window⟩
  have hreached := (hstores.length_blockLog hlogHead).2.2 rfl
  refine ⟨_, hcommits.window rfl, ?_, ?_, ?_⟩ <;> omega

/-- What the fork database finds makes a valid block go through. -/
theorem Sound.exists_applied (hskip : ctx.skip.validate = false)
    (hgenesis : initGenesis ctx.genesis = .ok s₀) (h : Sound ctx blocks s₀ node chain)
    (hconnected : node.forkDb.Connected node.blockLog.length)
    (hroot : node.forkDb.Rooted node.blockLog.length) (hhead : node.forkDb.head = some top)
    (hknown : node.forkDb.isKnownBlock (ctx.env.blockId b) = true) {t : Database}
    (hstate : Chain.applyBlock ctx.toContext node.state b = .ok t)
    (hlimit : t.dgp.lastIrreversibleBlockNum ≤ top.num) :
    ∃ node', node.applyInSession ctx b = (node', .ok ()) := by
  apply exists_applyInSession hstate (h.logHeadNum_eq (h.headed hgenesis))
  intro m hlog hle
  have hheaded := (h.main.apply hstate).headed hgenesis
  have hirreversible : t.dgp.lastIrreversibleBlockNum ≤ chain.length + 1 :=
    ((h.main.apply hstate).linked.runsFrom.irreversible_le_head hskip hgenesis).trans
      hheaded.number.le
  have hindex : m - 1 < (mainIds ctx.env ((node.state, b) :: chain)).length := by
    rw [length_mainIds, List.length_cons]
    omega
  have hid := List.getElem?_eq_getElem hindex
  have hstored := h.stored_cons hknown (m - 1) _ (by omega) hid
  obtain ⟨item, hitem, hitemId⟩ := ForkDatabase.isKnownBlock_iff.1 hstored
  have hnum : item.num = m := by
    rw [← ForkItem.num_id ctx.env, hitemId, hheaded.numbered _ _ hid]
    omega
  exact hconnected.exists_fetch hroot h.linked hhead hlog (hle.trans hlimit) hitem hnum

/-- The fork database is rooted once it has the first block. -/
theorem AtRest.rooted_extend (h : AtRest ctx blocks s₀ node chain)
    (hpush : node.forkDb.pushBlock b = .ok forkDb)
    (habove : ∀ top, node.forkDb.head = some top → top.num < b.blockNum)
    (hnum : b.blockNum = chain.length + 1) : forkDb.Rooted node.blockLog.length := by
  have hfirst : node.forkDb.head = none → b.blockNum ≤ 1 := by
    intro hnone
    rw [hnum, (h.headless hnone).1]
    exact le_rfl
  apply ForkDatabase.Rooted.pushBlock _ hfirst hpush
  rcases h.rooted with rfl | hroot
  · intro item hitem _
    exfalso
    rcases hitem with hstored | hhead
    · cases hhead : node.forkDb.head with
      | none =>
        rw [(h.headless hhead).2] at hstored
        cases hstored
      | some top =>
        have hlt := habove top hhead
        rw [hnum] at hlt
        exact absurd hlt (Nat.not_lt.2 (Nat.succ_pos _))
    · have hlt := habove item hhead
      rw [hnum] at hlt
      exact absurd hlt (Nat.not_lt.2 (Nat.succ_pos _))
  · exact hroot

/-- A block above the head of the fork database that is applied. -/
theorem AtRest.extend (hskip : ctx.skip.validate = false)
    (hgenesis : initGenesis ctx.genesis = .ok s₀) (hparent : SeparatesParents ctx.env blocks)
    (h : AtRest ctx blocks s₀ node chain) (hb : b ∈ blocks)
    (hpush : node.forkDb.pushBlock b = .ok forkDb)
    (habove : ∀ top, node.forkDb.head = some top → top.num < b.blockNum)
    (happly : ({ node with forkDb := forkDb } : Node ctx.env).applyInSession ctx b =
      (node', .ok ())) :
    Settled ctx blocks s₀ node' ((node.state, b) :: chain) := by
  have hstored : AtRest ctx blocks s₀ { node with forkDb := forkDb } chain := h.store hb hpush
  obtain ⟨top, hitem, hhead, _, _⟩ := ForkDatabase.pushBlock_eq_ok hpush
  have hnum : top.num = b.blockNum := by
    rw [ForkItem.num, ForkDatabase.itemOf_data hitem]
  have hhead : forkDb.head = some top := by
    rw [hhead]
    exact congrArg some (ForkDatabase.newHead_of_above fun before hbefore ↦
      hnum ▸ habove before hbefore)
  have hmain : MainChain ctx.toContext s₀ ((node.state, b) :: chain) node'.state := by
    obtain ⟨_, _, hstate, _⟩ := applyInSession_ok happly
    exact h.main.apply hstate
  have hheaded := hmain.headed hgenesis
  have hids := hheaded.descends (List.forall_mem_cons.2 ⟨hb, h.made⟩ : MadeOf blocks _)
  have htop : top.id ctx.env ∈ mainIds ctx.env ((node.state, b) :: chain) := by
    rw [id_itemOf hitem, mainIds_cons]
    exact List.mem_append_right _ (List.mem_singleton_self _)
  have hheight : top.num = chain.length + 1 := by
    rw [← ForkItem.num_id ctx.env, id_itemOf hitem, ← headBlockId_applied happly]
    exact hheaded.head_num
  rw [← List.append_nil (mainIds _ _)] at hids htop
  have hlead : forkDb.LeadsMain _ top _ :=
    ForkDatabase.leadsMain_of_main hparent hids (hstored.linked.head top hhead) htop
  rw [length_mainIds] at hlead
  have hsound := hstored.toSound.applied hskip hgenesis hb happly hhead hlead (by omega)
    (ForkDatabase.isKnownBlock_pushBlock hpush)
  obtain ⟨size, hwindow, hsize, _, hsizeTop⟩ :=
    hstored.window hskip hgenesis happly (show top.num ≤ _ by omega)
  have hwindow : node'.forkDb = forkDb.setMaxSize size := hwindow
  have hhead' : node'.forkDb.head = some top := by
    rw [hwindow, ForkDatabase.head_setMaxSize, hhead]
  exact { hsound with
    wired := by
      rw [hwindow]
      exact hstored.wired.setMaxSize hhead _
    released := by
      rw [hwindow, ForkDatabase.setMaxSize_eq hhead]
      exact hstored.released
    balanced := balanced_applied hskip hgenesis hstored.toSound hstored.balanced happly
    connected := by
      rw [hwindow]
      exact (hstored.connected.mono (applyInSession_log happly).length_le).setMaxSize hhead hsize
    rooted := by
      right
      rw [hwindow]
      exact ((h.rooted_extend hpush habove (hnum.symm.trans hheight)).mono
        (applyInSession_log happly).length_le).setMaxSize _
    headless := by
      intro hnone
      cases hhead'.symm.trans hnone
    known := by
      intro other hother
      obtain rfl : top = other := Option.some.inj (hhead'.symm.trans hother)
      rw [hwindow]
      exact ForkDatabase.isKnownBlock_setMaxSize hhead hsizeTop (hstored.known top hhead)
    low := by
      intro other hother
      obtain rfl : top = other := Option.some.inj (hhead'.symm.trans hother)
      exact (hheight.trans hheaded.number.symm).le }

/-! ## Pops -/

theorem popBlock_eq_ok {env : Env} {node node' : Node env} (h : node.popBlock = .ok node') :
    ∃ headBlock top prev, node.headBlock = some headBlock ∧ node.forkDb.head = some top ∧
      node.forkDb.lock top = some prev ∧
      node' = ({ node with forkDb := node.forkDb.setHead prev } : Node env).undo.withPopped
        (headBlock.transactions ++ node.poppedTx) := by
  rw [popBlock] at h
  cases hblock : node.headBlock with
  | none =>
    rw [hblock] at h
    cases h
  | some headBlock =>
    simp only [hblock, bind_eq_ok, pure_eq_ok] at h
    obtain ⟨forkDb, hpop, rfl⟩ := h
    rw [ForkDatabase.popBlock] at hpop
    split at hpop
    · cases hpop
    · rename_i top hhead
      split at hpop
      · cases hpop
      · rename_i prev hlock
        obtain rfl := Except.ok.inj hpop
        exact ⟨headBlock, top, prev, rfl, hhead, hlock, rfl⟩

theorem blockLog_undo (node : Node ctx.env) : node.undo.blockLog = node.blockLog := by
  unfold undo
  split <;> rfl

theorem undo_of_nil (h : node.sessions = []) : node.undo = node := by
  rw [undo, h]

/-- Undoing the last block. -/
theorem Sound.undo {t : Database} {sessions : List Database}
    (h : Sound ctx blocks s₀ node ((t, b) :: chain)) (hsessions : node.sessions = t :: sessions) :
    Sound ctx blocks s₀ node.undo chain ∧ node.undo.state = t ∧ node.undo.sessions = sessions ∧
      node.undo.forkDb = node.forkDb := by
  have hundo : node.undo = { node with
      state := t
      sessions := sessions
      revision := node.revision - 1 } := by
    rw [Node.undo, hsessions]
  have hcommitted := h.committed
  rw [hsessions, List.length_cons, List.length_cons] at hcommitted
  rw [hundo]
  refine ⟨?_, rfl, rfl, rfl⟩
  constructor
  · exact h.main.pop
  · exact fun entry hentry ↦ h.made entry (List.mem_cons_of_mem _ hentry)
  · have hnewest := h.sessions
    rw [hsessions, List.map_cons, List.prefix_cons_inj] at hnewest
    exact hnewest
  · exact congrArg Nat.pred h.revision
  · have hlog := h.log
    rw [mainIds_cons] at hlog
    apply List.prefix_of_prefix_length_le hlog (List.prefix_append _ _)
    rw [List.length_map, length_mainIds]
    exact Nat.le_of_add_right_le (Nat.le_of_succ_le_succ hcommitted)
  · exact Nat.le_of_succ_le_succ hcommitted
  · intro s hs
    apply h.irreversible
    rw [hsessions]
    exact List.mem_cons_of_mem _ hs
  · intro n id hn hid
    apply h.stored n id hn
    rw [mainIds_cons, List.getElem?_append_left (List.getElem?_eq_some_iff.1 hid).1, hid]
  · exact h.linked

/-- The newest session is that of the last block. -/
theorem Sound.exists_cons (h : Sound ctx blocks s₀ node chain) (hsessions : node.sessions ≠ []) :
    ∃ t b sessions rest, chain = (t, b) :: rest ∧ node.sessions = t :: sessions := by
  obtain ⟨t, sessions, hcons⟩ := List.exists_cons_of_ne_nil hsessions
  have hnewest := h.sessions
  cases chain with
  | nil =>
    rw [hcons] at hnewest
    cases List.prefix_nil.1 hnewest
  | cons entry rest =>
    rw [hcons, List.map_cons, List.cons_prefix_cons] at hnewest
    refine ⟨t, entry.2, sessions, rest, ?_, hcons⟩
    rw [hnewest.1]

/-- Every pop moves the head of the fork database; it undoes a block while there is a session. -/
theorem Sound.popBlock (h : Sound ctx blocks s₀ node chain) (hhead : node.forkDb.head = some top)
    (hpop : node.popBlock = .ok node') : ∃ prev, node.forkDb.lock top = some prev ∧
      node'.forkDb = node.forkDb.setHead prev ∧ node'.blockLog = node.blockLog ∧
      (node.sessions = [] ∧ node'.state = node.state ∧ node'.sessions = [] ∧
          Sound ctx blocks s₀ node' chain ∨
        ∃ t b sessions rest, chain = (t, b) :: rest ∧ node.sessions = t :: sessions ∧
          node'.state = t ∧ node'.sessions = sessions ∧ Sound ctx blocks s₀ node' rest) := by
  obtain ⟨headBlock, other, prev, _, hother, hlock, rfl⟩ := popBlock_eq_ok hpop
  obtain rfl : top = other := Option.some.inj (hhead.symm.trans hother)
  have hlinked : prev.WellLinked ctx.env blocks :=
    (h.linked.head top hhead).prev (ForkDatabase.lock_eq_some.1 hlock).1
  have hmoved := h.setHead hlinked
  refine ⟨prev, hlock, ?_⟩
  by_cases hsessions : node.sessions = []
  · have hundo : ({ node with forkDb := node.forkDb.setHead prev } : Node ctx.env).undo =
        { node with forkDb := node.forkDb.setHead prev } := undo_of_nil hsessions
    rw [hundo]
    exact ⟨rfl, rfl, .inl ⟨hsessions, rfl, hsessions, hmoved.withPopped _⟩⟩
  · obtain ⟨t, b, sessions, rest, rfl, hcons⟩ := h.exists_cons hsessions
    obtain ⟨hsound, hstate, hrest, hforkDb⟩ := hmoved.undo hcons
    refine ⟨hforkDb, blockLog_undo _, .inr ?_⟩
    exact ⟨t, b, sessions, rest, rfl, hcons, hstate, hrest, hsound.withPopped _⟩

/-- A pop leaves a node at rest. -/
theorem AtRest.pop (h : AtRest ctx blocks s₀ node chain) (hhead : node.forkDb.head = some top)
    (hpop : node.popBlock = .ok node') : ∃ chain', AtRest ctx blocks s₀ node' chain' ∧
      ∃ prev ∈ node.forkDb.items, node.forkDb.lock top = some prev ∧
        node'.forkDb = node.forkDb.setHead prev ∧ node'.blockLog = node.blockLog ∧
        (node.sessions = [] ∧ chain' = chain ∨ ∃ t b sessions, chain = (t, b) :: chain' ∧
          node.sessions = t :: sessions ∧ node'.state = t) := by
  obtain ⟨prev, hlock, hforkDb, hblockLog, hcases⟩ := h.toSound.popBlock hhead hpop
  have hprev : prev ∈ node.forkDb.items :=
    h.wired.mem_items_of_lock (fun _ ↦ ForkDatabase.mem_items_of_alive h.released hhead)
      (ForkDatabase.mem_lines_of_head hhead)
      (ForkItem.ne_of_prev (ForkDatabase.lock_eq_some.1 hlock).1) hlock
  have hhas : ∀ item, node'.forkDb.Has item → node.forkDb.Has item := by
    intro item hitem
    rw [hforkDb] at hitem
    exact ForkDatabase.has_setHead (.inl hprev) hitem
  have hitems : node'.forkDb.items = node.forkDb.items := by
    rw [hforkDb]
    rfl
  have hrest : ∀ chain', Sound ctx blocks s₀ node' chain' → (chain = [] → chain' = []) →
      node'.blockLog.length + node'.sessions.length = chain'.length →
        AtRest ctx blocks s₀ node' chain' := by
    intro chain' hsound hempty hbalanced
    exact { hsound with
      wired := by
        rw [hforkDb]
        exact h.wired.setHead (ForkDatabase.mem_lines_of_alive (ForkDatabase.mem_aliveItems hprev))
      released := by
        rw [hforkDb]
        exact h.released
      balanced := hbalanced
      connected := by
        intro item parent hitem hparent hlimit
        rw [hitems]
        exact h.connected item parent (hhas item hitem) hparent (hblockLog ▸ hlimit)
      rooted := by
        rw [hblockLog]
        exact h.rooted.imp hempty fun hroot item hitem ↦ hroot item (hhas item hitem)
      headless := by
        intro hnone
        rw [hforkDb] at hnone
        cases hnone
      known := by
        intro other hother
        rw [hforkDb] at hother ⊢
        obtain rfl := Option.some.inj hother
        exact ForkDatabase.isKnownBlock_iff.2 ⟨prev, hprev, rfl⟩ }
  have hbalanced := h.balanced
  rcases hcases with ⟨hnone, _, hnone', hsound⟩ |
    ⟨t, b, sessions, rest, rfl, hcons, hstate, hsessions, hsound⟩
  · refine ⟨chain, hrest chain hsound id ?_, prev, hprev, hlock, hforkDb, hblockLog,
      .inl ⟨hnone, rfl⟩⟩
    rw [hblockLog, hnone', ← hnone]
    exact hbalanced
  · refine ⟨rest, hrest rest hsound nofun ?_, prev, hprev, hlock, hforkDb, hblockLog,
      .inr ⟨t, b, sessions, rfl, hcons, hstate⟩⟩
    rw [hcons, List.length_cons, List.length_cons] at hbalanced
    rw [hblockLog, hsessions]
    exact Nat.succ.inj hbalanced

/-- A pop keeps the head of the fork database low. -/
theorem Settled.pop (hgenesis : initGenesis ctx.genesis = .ok s₀)
    (h : Settled ctx blocks s₀ node chain) (hhead : node.forkDb.head = some top)
    (hpop : node.popBlock = .ok node') : ∃ chain', Settled ctx blocks s₀ node' chain' ∧
      ∃ prev ∈ node.forkDb.items, node.forkDb.lock top = some prev ∧
        node'.forkDb = node.forkDb.setHead prev ∧
        (node.sessions = [] ∧ chain' = chain ∨ ∃ t b sessions, chain = (t, b) :: chain' ∧
          node.sessions = t :: sessions ∧ node'.state = t) := by
  obtain ⟨chain', hrest, prev, hprev, hlock, hforkDb, _, hcases⟩ := h.toAtRest.pop hhead hpop
  have hbelow : prev.num + 1 = top.num :=
    (h.linked.head top hhead).num_prev (ForkDatabase.lock_eq_some.1 hlock).1
  have htop : top.num ≤ chain.length := (h.low top hhead).trans (h.headed hgenesis).number.le
  have hlength : chain.length ≤ chain'.length + 1 := by
    rcases hcases with ⟨_, rfl⟩ | ⟨t, b, _, rfl, _⟩
    · exact Nat.le_succ _
    · exact le_rfl
  refine ⟨chain', { hrest with low := ?_ }, prev, hprev, hlock, hforkDb, hcases⟩
  intro other hother
  rw [hforkDb] at hother
  obtain rfl := Option.some.inj hother
  have hnumber : node'.headBlockNum = chain'.length := (hrest.headed hgenesis).number
  omega

/-! ## Pushes -/

/-- A block that the fork database refuses changes nothing. -/
theorem pushBlock_of_error {e : ChainError} (hpush : node.forkDb.pushBlock b = .error e) :
    node.pushBlock ctx b = (node, .error e) := by
  rw [pushBlock, hpush]

/-- Pushing a block while the head of the fork database builds on the head block. -/
theorem pushBlock_onHead (hpush : node.forkDb.pushBlock b = .ok forkDb)
    (hhead : forkDb.head = some top) (hprevious : top.previousId = node.headBlockId) :
    node.pushBlock ctx b = ({ node with forkDb := forkDb } : Node ctx.env).applyPushed ctx b := by
  have hextends : ¬ top.previousId ≠
      ({ node with forkDb := forkDb } : Node ctx.env).headBlockId := not_not.2 hprevious
  simp only [pushBlock, hpush, hhead]
  rw [if_neg hextends]

/-- Pushing a block that extends the head and is applied. -/
theorem pushBlock_extend (hpush : node.forkDb.pushBlock b = .ok forkDb)
    (habove : ∀ top, node.forkDb.head = some top → top.num < b.blockNum)
    (hprevious : b.previous = node.headBlockId)
    (happly : ({ node with forkDb := forkDb } : Node ctx.env).applyInSession ctx b =
      (node', .ok ())) :
    node.pushBlock ctx b = (node', .ok false) := by
  obtain ⟨top, hitem, hhead, _, _⟩ := ForkDatabase.pushBlock_eq_ok hpush
  have hdata : top.data = b := ForkDatabase.itemOf_data hitem
  subst hdata
  have hhead : forkDb.head = some top := by
    rw [hhead]
    exact congrArg some (ForkDatabase.newHead_of_above habove)
  rw [pushBlock_onHead hpush hhead hprevious, applyPushed, happly]

/-! ## A development network -/

/-- A fresh node after some calls. -/
def afterCalls (ctx : NodeContext) (s₀ : Database) (cs : List Call) : Node ctx.env :=
  cs.foldl (Node.call ctx) (Node.opened s₀)

theorem reaches_afterCalls {C : Node ctx.env → Call → Bool} {cs : List Call}
    (hcs : allMeet ctx C (Node.opened s₀) cs = true) :
    Reaches ctx Set.univ C (Node.opened s₀) (afterCalls ctx s₀ cs) :=
  reaches_of_allMeet .refl hcs

theorem reaches_anyCalls (s₀ : Database) (cs : List Call) :
    Reaches ctx Set.univ (fun _ _ ↦ true) (Node.opened s₀) (afterCalls ctx s₀ cs) :=
  reaches_foldl .refl

/-- A development network of one node. -/
def linkedNodes : NodeContext := { linkedContext with leftBy := fun s _ ↦ s }

def firstBlock : SignedBlock := devBlock .null 1531512803 []

/-- The next block, signed with this key. -/
def secondBlock (key : PublicKey) : SignedBlock :=
  { devBlock (linkedNodes.env.blockId firstBlock) 1531512806 [] with witnessSignature := key }

end Node

end SophiaTX.Chain
