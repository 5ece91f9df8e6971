import SophiaTX.Forks.Changes
import SophiaTX.Forks.Lookups
import SophiaTX.Forks.Pushes
import SophiaTX.Governance.Quorum

/-!
# Sound nodes

The sessions, the block log and the fork database of a node belong to its main chain. Each step of
a push keeps that.
-/

namespace SophiaTX.Chain

open SophiaTX.Protocol SophiaTX.Lib

namespace Node

variable {ctx : NodeContext} {node node' : Node ctx.env} {s s₀ : Database} {b : SignedBlock}
  {blocks : Set SignedBlock} {chain : List (Database × SignedBlock)} {top : ForkItem}
  {id : BlockId} {n : ℕ}

/-- A node on its main chain: the sessions are those of its last blocks; the block log has its first
blocks, at least as far as a state that can still be returned to calls them irreversible; and the
blocks after those are stored in the fork database. All blocks are among those ever pushed. -/
structure Sound (ctx : NodeContext) (blocks : Set SignedBlock) (s₀ : Database)
    (node : Node ctx.env) (chain : List (Database × SignedBlock)) : Prop where
  main : MainChain ctx.toContext s₀ chain node.state
  made : MadeOf blocks chain
  sessions : node.sessions <+: chain.map Prod.fst
  revision : node.revision = chain.length
  log : node.blockLog.map ctx.env.blockId <+: mainIds ctx.env chain
  committed : node.blockLog.length + node.sessions.length ≤ chain.length
  irreversible : ∀ s ∈ node.state :: node.sessions,
    s.dgp.lastIrreversibleBlockNum ≤ node.blockLog.length
  stored : ∀ n id, node.blockLog.length ≤ n → (mainIds ctx.env chain)[n]? = some id →
    node.forkDb.isKnownBlock id = true
  linked : node.forkDb.WellLinked blocks

/-! ## The commit -/

namespace CommitsStores

variable {committed : Exec Unit}

/-- The log grows along the chain that the head item leads to. -/
theorem log (h : CommitsStores node node' s committed)
    (hids : Descends ctx.env blocks (mainIds ctx.env chain))
    (hlogHead : node.logHeadNum = node.blockLog.length)
    (hlog : node.blockLog.map ctx.env.blockId <+: mainIds ctx.env chain)
    (hle : s.dgp.lastIrreversibleBlockNum ≤ chain.length) (htop : node.forkDb.head = some top)
    (hlead : node.forkDb.LeadsMain (mainIds ctx.env chain) top s.dgp.lastIrreversibleBlockNum)
    (hstored : ∀ n id, node.blockLog.length ≤ n → (mainIds ctx.env chain)[n]? = some id →
      node.forkDb.isKnownBlock id = true) :
    node'.blockLog.map ctx.env.blockId <+: mainIds ctx.env chain := by
  obtain ⟨appended, hblockLog, hcount, _, hbranch⟩ := h.blockLog
  rw [hlogHead] at hcount hbranch
  rw [hblockLog, List.prefix_iff_getElem?]
  intro i hi
  rw [List.length_map, List.length_append] at hi
  rw [List.getElem_map, List.getElem_append]
  split
  · rename_i hlt
    have hmap : i < (node.blockLog.map ctx.env.blockId).length := by
      rwa [List.length_map]
    rw [List.prefix_iff_getElem?.1 hlog i hmap, List.getElem_map]
  · rename_i hge
    have hindex : i - node.blockLog.length < appended.length := by omega
    obtain ⟨_, found, hfetch, hdata⟩ := hbranch _ _ (List.getElem?_eq_getElem hindex)
    rw [Nat.add_sub_cancel' (Nat.not_lt.1 hge)] at hfetch
    have hi' : i < (mainIds ctx.env chain).length := by
      rw [length_mainIds]
      omega
    have hid := List.getElem?_eq_getElem hi'
    have hfound : found.id ctx.env = (mainIds ctx.env chain)[i] :=
      ForkDatabase.fetchBlockOnMainBranchByNumber_main hids htop hlead hid
        (hstored i _ (Nat.not_lt.1 hge) hid) (by omega) hfetch
    rw [hid, ← hfound, ← hdata]
    rfl

theorem length_blockLog (h : CommitsStores node node' s committed)
    (hlogHead : node.logHeadNum = node.blockLog.length) :
    node.blockLog.length ≤ node'.blockLog.length ∧
      node'.blockLog.length ≤ max node.blockLog.length s.dgp.lastIrreversibleBlockNum ∧
      (committed = .ok () → s.dgp.lastIrreversibleBlockNum ≤ node'.blockLog.length) := by
  obtain ⟨appended, hblockLog, hcount, hall, _⟩ := h.blockLog
  rw [hlogHead] at hcount hall
  rw [hblockLog, List.length_append]
  refine ⟨by omega, by omega, fun hok ↦ ?_⟩
  rw [hall hok]
  omega

theorem forkDb (h : CommitsStores node node' s committed) : node'.forkDb = node.forkDb ∨
    committed = .ok () ∧ node'.forkDb = node.forkDb.setMaxSize
      (s.dgp.headBlockNumber - s.dgp.lastIrreversibleBlockNum + 1) := by
  by_cases hok : committed = .ok ()
  · exact .inr ⟨hok, h.window hok⟩
  · exact .inl (h.kept hok)

/-- The smaller window drops no block after the log, also if the head of the fork database is up to
two blocks above the head block. -/
theorem isKnownBlock (h : CommitsStores node node' s committed)
    (hlogHead : node.logHeadNum = node.blockLog.length) (htop : node.forkDb.head = some top)
    (hnum : top.num ≤ s.dgp.headBlockNumber + 2) (hid : node'.blockLog.length < id.num)
    (hknown : node.forkDb.isKnownBlock id = true) : node'.forkDb.isKnownBlock id = true := by
  rcases h.forkDb with hsame | ⟨hok, hwindow⟩
  · rwa [hsame]
  · have hlength := (h.length_blockLog hlogHead).2.2 hok
    rw [hwindow]
    apply ForkDatabase.isKnownBlock_setMaxSize htop _ hknown
    omega

theorem mem_items_forkDb (h : CommitsStores node node' s committed) {item : ForkItem}
    (hitem : item ∈ node'.forkDb.items) : item ∈ node.forkDb.items := by
  rcases h.forkDb with hsame | ⟨_, hwindow⟩
  · rwa [hsame] at hitem
  · rw [hwindow] at hitem
    exact ForkDatabase.mem_items_of_setMaxSize hitem

theorem head_forkDb (h : CommitsStores node node' s committed) :
    node'.forkDb.head = node.forkDb.head := by
  rcases h.forkDb with hsame | ⟨_, hwindow⟩
  · rw [hsame]
  · rw [hwindow, ForkDatabase.head_setMaxSize]

theorem linked (h : CommitsStores node node' s committed)
    (hlinked : node.forkDb.WellLinked blocks) : node'.forkDb.WellLinked blocks :=
  hlinked.mono (fun _ ↦ h.mem_items_forkDb) h.head_forkDb

end CommitsStores

/-! ## Steps of a push -/

namespace Sound

theorem headed (h : Sound ctx blocks s₀ node chain)
    (hgenesis : initGenesis ctx.genesis = .ok s₀) : Headed ctx.env chain node.state :=
  h.main.headed hgenesis

theorem descends (h : Sound ctx blocks s₀ node chain)
    (hgenesis : initGenesis ctx.genesis = .ok s₀) :
    Descends ctx.env blocks (mainIds ctx.env chain) :=
  (h.headed hgenesis).descends h.made

theorem length_blockLog_le (h : Sound ctx blocks s₀ node chain) :
    node.blockLog.length ≤ chain.length :=
  (Nat.le_add_right _ _).trans h.committed

theorem logHeadNum_eq (h : Sound ctx blocks s₀ node chain) (hs : Headed ctx.env chain s) :
    node.logHeadNum = node.blockLog.length := by
  rw [logHeadNum]
  cases hlast : node.blockLog.getLast? with
  | none =>
    rw [List.getLast?_eq_none_iff.1 hlast]
    rfl
  | some b =>
    rw [List.getLast?_eq_getElem?] at hlast
    obtain ⟨hlt, hb⟩ := List.getElem?_eq_some_iff.1 hlast
    have hmap : node.blockLog.length - 1 < (node.blockLog.map ctx.env.blockId).length := by
      rwa [List.length_map]
    have hid := List.prefix_iff_getElem?.1 h.log _ hmap
    rw [List.getElem_map, hb] at hid
    have hnum : b.blockNum = node.blockLog.length - 1 + 1 := hs.numbered _ _ hid
    rw [Option.map_some, Option.getD_some, hnum]
    omega

/-- Storing a block changes nothing else. -/
theorem store (h : Sound ctx blocks s₀ node chain) (hb : b ∈ blocks)
    {forkDb : ForkDatabase ctx.env} (hpush : node.forkDb.pushBlock b = .ok forkDb) :
    Sound ctx blocks s₀ { node with forkDb := forkDb } chain := by
  obtain ⟨item, _, _, _, hitems⟩ := ForkDatabase.pushBlock_eq_ok hpush
  refine { h with stored := fun n id hn hid ↦ ?_, linked := h.linked.pushBlock hb hpush }
  obtain ⟨old, hold, hid⟩ := ForkDatabase.isKnownBlock_iff.1 (h.stored n id hn hid)
  exact ForkDatabase.isKnownBlock_iff.2 ⟨old, (hitems old).2 (.inl hold), hid⟩

/-- So does another choice of the head item. -/
theorem setHead (h : Sound ctx blocks s₀ node chain) {item : ForkItem}
    (hitem : item.WellLinked ctx.env blocks) :
    Sound ctx blocks s₀ { node with forkDb := node.forkDb.setHead item } chain :=
  { h with
    stored := h.stored
    linked := ⟨h.linked.items, fun _ hother ↦ Option.some.inj hother ▸ hitem⟩ }

theorem hold (h : Sound ctx blocks s₀ node chain) (items : List ForkItem) :
    Sound ctx blocks s₀ (node.hold items) chain :=
  { h with stored := h.stored, linked := ⟨h.linked.items, h.linked.head⟩ }

/-- The transactions of popped blocks are none of its stores. -/
theorem withPopped (h : Sound ctx blocks s₀ node chain) (poppedTx : List Transaction) :
    Sound ctx blocks s₀ (node.withPopped poppedTx) chain :=
  { h with stored := h.stored }

theorem mem_mainIds_num_le (hs : Headed ctx.env chain s) (hid : id ∈ mainIds ctx.env chain) :
    id.num ≤ chain.length := by
  obtain ⟨n, hn⟩ := List.getElem?_of_mem hid
  have hlt := (List.getElem?_eq_some_iff.1 hn).1
  rw [length_mainIds] at hlt
  rw [hs.numbered n id hn]
  exact hlt

/-- The height of the state that is committed with a block, and of what it makes irreversible. -/
theorem heights_beforeCommit (hskip : ctx.skip.validate = false)
    (hgenesis : initGenesis ctx.genesis = .ok s₀) (h : Sound ctx blocks s₀ node chain)
    (hs : Chain.runStages ctx.toContext (SignedBlock.stagesBeforeCommit b) node.state = .ok s)
    {t : Database} (hstate : Chain.applyBlock ctx.toContext node.state b = .ok t) :
    s.dgp.headBlockNumber = chain.length + 1 ∧
      s.dgp.lastIrreversibleBlockNum ≤ chain.length + 1 := by
  have hheaded := (h.main.apply hstate).headed hgenesis
  have hs' := congrArg Heading.headBlockNumber (heading_beforeCommit hs).2
  have hnum := congrArg Heading.headBlockNumber (applyBlock_heading hstate).2
  have hhead : s.dgp.headBlockNumber = chain.length + 1 :=
    (hs'.trans hnum.symm).trans hheaded.number
  exact ⟨hhead, (h.main.irreversible_le_head hskip hgenesis hs).trans hhead.le⟩

/-- The blocks of the main chain with one more are stored after the log. -/
theorem stored_cons (h : Sound ctx blocks s₀ node chain)
    (hknown : node.forkDb.isKnownBlock (ctx.env.blockId b) = true) :
    ∀ n id, node.blockLog.length ≤ n →
      (mainIds ctx.env ((s, b) :: chain))[n]? = some id → node.forkDb.isKnownBlock id = true := by
  intro n id hn hid
  rcases getElem?_mainIds_cons hid with hold | ⟨_, rfl⟩
  · exact h.stored n id hn hold
  · exact hknown

/-- A block that is applied while the head item leads to the main chain. -/
theorem applied (hskip : ctx.skip.validate = false) (hgenesis : initGenesis ctx.genesis = .ok s₀)
    (h : Sound ctx blocks s₀ node chain) (hb : b ∈ blocks)
    (happly : node.applyInSession ctx b = (node', .ok ())) (hhead : node.forkDb.head = some top)
    (hlead : node.forkDb.LeadsMain (mainIds ctx.env ((node.state, b) :: chain)) top
      (chain.length + 1))
    (htop : top.num ≤ chain.length + 3)
    (hknown : node.forkDb.isKnownBlock (ctx.env.blockId b) = true) :
    Sound ctx blocks s₀ node' ((node.state, b) :: chain) := by
  obtain ⟨s, hs, hstate, hcommits⟩ := applyInSession_ok happly
  have hmain : MainChain ctx.toContext s₀ ((node.state, b) :: chain) node'.state :=
    h.main.apply hstate
  have hmade : MadeOf blocks ((node.state, b) :: chain) := List.forall_mem_cons.2 ⟨hb, h.made⟩
  have hids := (hmain.headed hgenesis).descends hmade
  have hlogHead : node.logHeadNum = node.blockLog.length := h.logHeadNum_eq (h.headed hgenesis)
  obtain ⟨hheadNum, hirreversible⟩ := h.heights_beforeCommit hskip hgenesis hs hstate
  have hprefix : node.blockLog.map ctx.env.blockId <+:
      mainIds ctx.env ((node.state, b) :: chain) := by
    rw [mainIds_cons]
    exact h.log.trans (List.prefix_append _ _)
  have hstored := h.stored_cons (s := node.state) hknown
  have hstores : CommitsStores node node' s (.ok ()) :=
    ⟨hcommits.blockLog, hcommits.kept, hcommits.window⟩
  obtain ⟨hgrows, hmax, hreached⟩ := hstores.length_blockLog hlogHead
  have hirreversible' : node'.state.dgp.lastIrreversibleBlockNum =
      s.dgp.lastIrreversibleBlockNum := irreversible_of_beforeCommit hs hstate
  have hrevision : node.startUndoSession.revision = chain.length + 1 :=
    congrArg Nat.succ h.revision
  have hsessions : node'.sessions = (node.state :: node.sessions).take
      (chain.length + 1 - s.dgp.lastIrreversibleBlockNum) := by
    rw [hcommits.sessions, hrevision]
    rfl
  constructor
  · exact hmain
  · exact hmade
  · rw [hsessions]
    exact (List.take_prefix _ _).trans ((List.prefix_cons_inj _).2 h.sessions)
  · exact hcommits.revision.trans hrevision
  · apply hstores.log hids hlogHead hprefix hirreversible hhead _ hstored
    exact fun m found hpos hle ↦ hlead m found hpos (hle.trans hirreversible)
  · have hcommitted := h.committed
    have hreached := hreached rfl
    rw [hsessions, List.length_take, List.length_cons, List.length_cons]
    omega
  · intro t ht
    rcases List.mem_cons.1 ht with rfl | ht
    · rw [hirreversible']
      exact hreached rfl
    · rw [hsessions] at ht
      exact (h.irreversible t (List.mem_of_mem_take ht)).trans hgrows
  · intro n id hn hid
    have hnum : id.num = n + 1 := hids.numbered n id hid
    apply hstores.isKnownBlock hlogHead hhead (by omega) (by omega)
    exact hstored n id (hgrows.trans hn) hid
  · exact hstores.linked h.linked

end Sound

end Node

end SophiaTX.Chain
