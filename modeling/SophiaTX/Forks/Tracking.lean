import SophiaTX.Forks.InStep
import SophiaTX.Forks.Switches

/-!
# Nodes that track their main chain

A node to which blocks are pushed in order, and others aside, has stores that agree with its main
chain, and nothing above its head.
-/

namespace SophiaTX.Chain

open SophiaTX.Protocol SophiaTX.Lib

/-! ## Walks from the main chain -/

/-- The parent of a block with an id of the main chain is on the main chain, unless it is the first
block. -/
theorem Headed.previous_main {env : Env} {blocks : Set SignedBlock}
    {chain : List (Database × SignedBlock)} {s : Database} {b : SignedBlock}
    (hs : Headed env chain s) (hparent : SeparatesParents env blocks) (hmade : MadeOf blocks chain)
    (hb : b ∈ blocks) (hid : env.blockId b ∈ mainIds env chain) :
    b.previous = BlockId.null ∨ b.previous ∈ mainIds env chain := by
  obtain ⟨n, hn⟩ := List.getElem?_of_mem hid
  obtain ⟨b', hb', hsame, hprevious⟩ := hs.parents n _ hn
  obtain ⟨entry, hentry, rfl⟩ := List.mem_map.1 hb'
  rw [hparent b hb entry.2 (hmade entry hentry) hsame.symm, hprevious]
  cases hlast : ((mainIds env chain).take n).getLast? with
  | none => exact .inl rfl
  | some id => exact .inr (List.mem_of_mem_take (List.mem_of_getLast? hlast))

/-- A walk from a block of the main chain stays on it. -/
theorem ForkDatabase.Walk.main {env : Env} {blocks : Set SignedBlock} {db : ForkDatabase env}
    {chain : List (Database × SignedBlock)} {s : Database} {item : ForkItem}
    {items : List ForkItem} {p : BlockId} (h : db.Walk item items p) (hs : Headed env chain s)
    (hparent : SeparatesParents env blocks) (hmade : MadeOf blocks chain)
    (hdb : db.WellLinked blocks) (hitem : item.id env ∈ mainIds env chain) :
    (∀ other ∈ items, other.id env ∈ mainIds env chain) ∧
      (p = BlockId.null ∨ p ∈ mainIds env chain) := by
  induction h with
  | single hstored =>
    refine ⟨fun other hother ↦ ?_, hs.previous_main hparent hmade (hdb.items _ hstored).made hitem⟩
    rwa [List.mem_singleton.1 hother]
  | @cons item parent items p hstored hlock hid hrest ih =>
    have hprevious := hs.previous_main hparent hmade (hdb.items _ hstored).made hitem
    have hparentMain : parent.id env ∈ mainIds env chain := by
      rw [hid]
      apply hprevious.resolve_left
      intro hnull
      exact absurd (congrArg BlockId.num (hid.trans hnull)) (Nat.succ_ne_zero _)
    obtain ⟨honmain, hend⟩ := ih hparentMain
    refine ⟨fun other hother ↦ ?_, hend⟩
    rcases List.mem_cons.1 hother with rfl | hlater
    · exact hitem
    · exact honmain other hlater

namespace Node

variable {ctx : NodeContext} {node node' start : Node ctx.env} {s₀ : Database} {b : SignedBlock}
  {blocks : Set SignedBlock} {chain opened : List (Database × SignedBlock)} {top item : ForkItem}
  {id : BlockId} {forkDb : ForkDatabase ctx.env}

/-- The fork database has no block above the head block. -/
def Topped (node : Node ctx.env) : Prop := ∀ item ∈ node.forkDb.items, item.num ≤ node.headBlockNum

/-! ## Nodes at rest -/

/-- A block of the main chain is known: it is in the block log or in the fork database. -/
theorem AtRest.isKnownBlock_main (h : AtRest ctx blocks s₀ node chain)
    (hgenesis : initGenesis ctx.genesis = .ok s₀) (hid : id ∈ mainIds ctx.env chain) :
    node.isKnownBlock id = true := by
  obtain ⟨n, hn⟩ := List.getElem?_of_mem hid
  rcases Nat.lt_or_ge n node.blockLog.length with hlogged | hlater
  · obtain ⟨b, hread, hb⟩ := readBlockByNum_main h.log hlogged
    have hnum : id.num = n + 1 := (h.headed hgenesis).numbered n id hn
    have hsame : ctx.env.blockId b = id := Option.some.inj (hb.symm.trans hn)
    rw [isKnownBlock, fetchBlockById]
    cases hfetch : node.forkDb.fetchBlock id with
    | some item => rfl
    | none =>
      dsimp only
      rw [hnum, hread, Option.filter_some, decide_eq_true hsame]
      rfl
  · exact isKnownBlock_of_forkDb (h.stored n id hlater hn)

/-- In step, the blocks of the main chain after the log are found on the main branch. -/
theorem AtRest.fetchBlockOnMainBranch (h : AtRest ctx blocks s₀ node chain)
    (hgenesis : initGenesis ctx.genesis = .ok s₀) (hparent : SeparatesParents ctx.env blocks)
    (hinStep : node.HeadInStep) {n : ℕ} (hid : (mainIds ctx.env chain)[n]? = some id)
    (hlater : node.blockLog.length ≤ n) : ∃ item,
      node.forkDb.fetchBlockOnMainBranchByNumber (n + 1) = some item ∧ item.id ctx.env = id := by
  have hheaded := h.headed hgenesis
  have hids := h.descends hgenesis
  have hlt := (List.getElem?_eq_some_iff.1 hid).1
  obtain ⟨top, hhead, htop, _⟩ := hinStep
  have hne : chain ≠ [] := by
    rintro rfl
    exact absurd hlt (Nat.not_lt_zero n)
  have htopNum : top.num = (mainIds ctx.env chain).length := by
    calc top.num = (top.id ctx.env).num := (ForkItem.num_id ctx.env top).symm
      _ = node.headBlockId.num := congrArg BlockId.num htop
      _ = (mainIds ctx.env chain).length := by
        rw [length_mainIds]
        exact hheaded.head_num
  have hrooted := h.rooted.resolve_left hne
  obtain ⟨item, hstored, hitemId⟩ := ForkDatabase.isKnownBlock_iff.1 (h.stored n id hlater hid)
  have hitemNum : item.num = n + 1 := by
    rw [← ForkItem.num_id ctx.env, hitemId]
    exact hheaded.numbered n id hid
  obtain ⟨found, hfetch, _⟩ := h.connected.exists_fetch hrooted h.linked hhead
    (Nat.lt_succ_of_le hlater) (htopNum ▸ hlt) hstored hitemNum
  have hline : Descends ctx.env blocks (mainIds ctx.env chain ++ []) :=
    (List.append_nil _).symm ▸ hids
  have hmem : top.id ctx.env ∈ mainIds ctx.env chain ++ [] := by
    rw [List.append_nil, htop]
    exact List.mem_of_getLast? (hheaded.getLast?_mainIds hne)
  have hlead : node.forkDb.LeadsMain (mainIds ctx.env chain) top (mainIds ctx.env chain).length :=
    ForkDatabase.leadsMain_of_main hparent hline (h.linked.head top hhead) hmem
  exact ⟨found, hfetch, ForkDatabase.fetchBlockOnMainBranchByNumber_main hids hhead hlead hid
    (h.stored n id hlater hid) hlt hfetch⟩

theorem AtRest.tracks (h : AtRest ctx blocks s₀ node chain)
    (hgenesis : initGenesis ctx.genesis = .ok s₀) (hparent : SeparatesParents ctx.env blocks)
    (hhead : node.forkDb.head = none ∧ chain = [] ∨ node.HeadInStep) (htopped : node.Topped) :
    node.Tracks chain where
  main := ⟨s₀, hgenesis, h.main⟩
  log := h.log
  irreversible := h.irreversible node.state List.mem_cons_self
  branch := by
    intro n id hid hlater _
    rcases hhead with ⟨_, rfl⟩ | hinStep
    · cases hid
    · exact h.fetchBlockOnMainBranch hgenesis hparent hinStep hid hlater
  bounded := by
    intro item hitem
    exact (htopped item hitem).trans (h.headed hgenesis).number.le

/-! ## Pushes -/

theorem Opens.topped (hgenesis : initGenesis ctx.genesis = .ok s₀)
    (h : Opens ctx s₀ node chain) : node.Topped := by
  have hheaded := h.mainChain.headed hgenesis
  cases h with
  | genesis => nofun
  | @reopened chain s t b h =>
    intro item hitem
    rw [items_startBlock hitem]
    have hhead : s.dgp.headBlockId = ctx.env.blockId b :=
      congrArg Heading.headBlockId (applyBlock_heading h.linked.1).2
    calc (ForkItem.unlinked 0 b).num = s.dgp.headBlockId.num := (congrArg BlockId.num hhead).symm
      _ = chain.length + 1 := hheaded.head_num
      _ ≤ s.dgp.headBlockNumber := hheaded.number.ge

/-- What is stored below the head of the fork database, and a block that becomes the head block. -/
theorem InStep.topped_extend (hskip : ctx.skip.validate = false)
    (hgenesis : initGenesis ctx.genesis = .ok s₀) (hparent : SeparatesParents ctx.env blocks)
    (h : InStep ctx blocks s₀ node chain) (htopped : node.Topped) (hb : b ∈ blocks)
    (hpush : node.forkDb.pushBlock b = .ok forkDb)
    (habove : ∀ top, node.forkDb.head = some top → top.num < b.blockNum)
    (happly : ({ node with forkDb := forkDb } : Node ctx.env).applyInSession ctx b =
      (node', .ok ())) : node'.Topped := by
  have hnext := h.extend hskip hgenesis hparent hb hpush habove happly
  have hheight : node'.headBlockNum = node.headBlockNum + 1 := by
    have hnumber : node'.headBlockNum = chain.length + 1 := (hnext.headed hgenesis).number
    rw [hnumber]
    exact congrArg (· + 1) (h.headed hgenesis).number.symm
  have hnum : b.blockNum = node'.headBlockNum := by
    have hheadId : node'.headBlockId = ctx.env.blockId b := headBlockId_applied happly
    calc b.blockNum = node'.headBlockId.num := (congrArg BlockId.num hheadId).symm
      _ = chain.length + 1 := (hnext.headed hgenesis).head_num
      _ = node'.headBlockNum := (hnext.headed hgenesis).number.symm
  obtain ⟨size, hwindow⟩ := exists_window happly
  obtain ⟨pushed, hpushed, _, _, hitems⟩ := ForkDatabase.pushBlock_eq_ok hpush
  intro item hitem
  rw [hwindow] at hitem
  rcases (hitems item).1 (ForkDatabase.mem_items_of_setMaxSize hitem) with hold | ⟨rfl, _⟩
  · exact (htopped item hold).trans (by omega)
  · rw [ForkItem.num, ForkDatabase.itemOf_data hpushed]
    exact hnum.le

theorem InStep.topped_aside (hgenesis : initGenesis ctx.genesis = .ok s₀)
    (h : InStep ctx blocks s₀ node chain) (htopped : node.Topped)
    (hpush : node.forkDb.pushBlock b = .ok forkDb) (hhead : node.forkDb.head = some top)
    (hle : b.blockNum ≤ top.num) : ({ node with forkDb := forkDb } : Node ctx.env).Topped := by
  obtain ⟨pushed, hpushed, _, _, hitems⟩ := ForkDatabase.pushBlock_eq_ok hpush
  intro item hitem
  rcases (hitems item).1 hitem with hold | ⟨rfl, _⟩
  · exact htopped item hold
  · rw [ForkItem.num, ForkDatabase.itemOf_data hpushed]
    exact hle.trans (h.num_eq hgenesis hhead).2.le

/-- An orderly push. -/
def pushes (ctx : NodeContext) (node : Node ctx.env) : Call → Bool
  | .push b => orderly ctx node (.push b)
  | .pop => false

theorem Reaches.pushed (hskip : ctx.skip.validate = false)
    (hgenesis : initGenesis ctx.genesis = .ok s₀) (hparent : SeparatesParents ctx.env blocks)
    (hstart : InStep ctx blocks s₀ start opened) (htopped : start.Topped)
    (h : Reaches ctx blocks (pushes ctx) start node) :
    ∃ chain, InStep ctx blocks s₀ node chain ∧ node.Topped := by
  induction h with
  | refl => exact ⟨opened, hstart, htopped⟩
  | call _ c hmade hc ih =>
    obtain ⟨chain, hnode, htopped⟩ := ih
    cases c with
    | pop => cases hc
    | push b =>
      rw [Node.call]
      rcases hnode.pushBlock_cases hgenesis hc with ⟨e, hresult⟩ |
        ⟨forkDb, top, hpush, hhead, hle, hresult⟩ | ⟨forkDb, node', hpush, habove, happly, hresult⟩
      · rw [hresult]
        exact ⟨chain, hnode, htopped⟩
      · rw [hresult]
        exact ⟨chain, hnode.storeAside hmade hpush hhead hle,
          hnode.topped_aside hgenesis htopped hpush hhead hle⟩
      · rw [hresult]
        exact ⟨_, hnode.extend hskip hgenesis hparent hmade hpush habove happly,
          hnode.topped_extend hskip hgenesis hparent htopped hmade hpush habove happly⟩

/-- A node tracks its main chain after orderly pushes. -/
theorem Reaches.tracks (hskip : ctx.skip.validate = false)
    (hgenesis : initGenesis ctx.genesis = .ok s₀) (hparent : SeparatesParents ctx.env blocks)
    (hstart : Opens ctx s₀ start opened) (hmade : MadeOf blocks opened)
    (h : Reaches ctx blocks (pushes ctx) start node) :
    ∃ chain, InStep ctx blocks s₀ node chain ∧ node.Tracks chain := by
  obtain ⟨chain, hnode, htopped⟩ := h.pushed hskip hgenesis hparent
    (hstart.inStep hskip hgenesis hmade) (hstart.topped hgenesis)
  exact ⟨chain, hnode, hnode.tracks hgenesis hparent hnode.head htopped⟩

end Node

end SophiaTX.Chain
