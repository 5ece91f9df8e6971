import SophiaTX.Forks.InStep
import SophiaTX.Forks.Switches

/-!
# Irreversible blocks

As long as the blocks that are applied are valid, a node stays at rest, over pops, fork switches and
switches that are refused. Then what is irreversible stays on the main chain, and the block log
grows along it.
-/

namespace SophiaTX.Chain

open SophiaTX.Protocol SophiaTX.Lib

namespace Node

/-- A switch is refused, or its branch is valid. A branch that is applied comes at most three blocks
above the head, and makes nothing irreversible above the block where the pops leave the head of the
fork database. -/
def validSwitch (ctx : NodeContext) (node : Node ctx.env) (newHead : ForkItem) : Bool :=
  match node.forkDb.fetchBranchFrom (newHead.id ctx.env) node.headBlockId with
  | .error _ => true
  | .ok (new, old) =>
    match (node.state :: node.sessions)[old.length]? with
    | none => true
    | some fork => decide (newHead.num ≤ node.headBlockNum + 3) &&
        validUpTo ctx.toContext (newHead.num - old.length) fork (new.reverse.map ForkItem.data)

/-- The blocks that a push applies are valid: the pushed one, when it is above the head of the fork
database and builds on the head block, or those of the new branch. -/
def goesThrough (ctx : NodeContext) (node : Node ctx.env) : Call → Bool
  | .push b =>
    match node.forkDb.pushBlock b with
    | .error _ => true
    | .ok forkDb => forkDb.head.all fun newHead ↦
        if newHead.previousId = node.headBlockId then
          node.forkDb.head.all (fun before ↦ decide (before.num < b.blockNum)) &&
            (Chain.applyBlock ctx.toContext node.state b).isOk
        else decide (newHead.num ≤ node.headBlockNum) ||
          ({ node with forkDb := forkDb } : Node ctx.env).validSwitch ctx newHead
  | .pop => true

variable {ctx : NodeContext} {node node' start : Node ctx.env} {s s₀ : Database} {b : SignedBlock}
  {blocks : Set SignedBlock} {chain chain' : List (Database × SignedBlock)} {top : ForkItem}
  {forkDb : ForkDatabase ctx.env} {new old : List ForkItem}

/-! ## Switches -/

/-- A switch to valid blocks leaves a node at rest, whether it is refused or returns. -/
theorem AtRest.switch (hskip : ctx.skip.validate = false)
    (hgenesis : initGenesis ctx.genesis = .ok s₀) (hparent : SeparatesParents ctx.env blocks)
    (h : AtRest ctx blocks s₀ node chain) (hhead : node.forkDb.head = some top)
    (habove : node.headBlockNum < top.num) (hvalid : node.validSwitch ctx top = true) :
    (∃ chain', AtRest ctx blocks s₀ ((node.switchForks ctx top).1.hold []) chain') ∧
      node.blockLog <+: (node.switchForks ctx top).1.blockLog := by
  have hstays : AtRest ctx blocks s₀ (node.hold []) chain := by
    have hsame : node.hold [] = node := by
      rw [Node.hold, ← h.released]
    rwa [hsame]
  rw [validSwitch] at hvalid
  rw [Node.switchForks]
  cases hfetch : node.forkDb.fetchBranchFrom (top.id ctx.env) node.headBlockId with
  | error e => exact ⟨⟨chain, hstays⟩, List.prefix_refl _⟩
  | ok branches =>
    obtain ⟨new, old⟩ := branches
    simp only [hfetch] at hvalid
    dsimp only
    cases hlast : old.getLast? with
    | none => exact ⟨⟨chain, hstays⟩, List.prefix_refl _⟩
    | some last =>
      dsimp only
      cases hpops : popUntil last.previousId top (node.hold (top :: new ++ old)) with
      | mk mid result =>
        cases result with
        | error e =>
          obtain ⟨popped, kept, low, rfl, hpopped, _⟩ :=
            h.pops hgenesis hhead habove hfetch hlast hpops
          refine ⟨⟨kept, hpopped.atRest h hhead⟩, ?_⟩
          have hlog : mid.blockLog = node.blockLog := hpopped.blockLog
          rw [hlog]
        | ok _ =>
          obtain ⟨_, _, _, _, _, hreached⟩ := h.pops hgenesis hhead habove hfetch hlast hpops
          rw [(hreached rfl).2.state, Bool.and_eq_true, decide_eq_true_iff] at hvalid
          obtain ⟨hnear, hvalid⟩ := hvalid
          obtain ⟨popped, kept, low, rfl, hmid⟩ :=
            h.switchesTo hgenesis hparent hhead habove hnear hfetch hlast hpops
          rw [← hmid.num, Nat.add_sub_cancel] at hvalid
          obtain ⟨node', happly⟩ :=
            hmid.switching.exists_applyBranch hskip hgenesis hparent hvalid
          obtain ⟨applied, hresult⟩ := hmid.switched hskip hgenesis hparent happly
          dsimp only
          rw [happly]
          exact ⟨⟨applied ++ kept, hresult.settled.toAtRest⟩, hresult.log⟩

/-! ## Runs -/

/-- A push of valid blocks leaves a node at rest, and the block log only grows. -/
theorem AtRest.push (hskip : ctx.skip.validate = false)
    (hgenesis : initGenesis ctx.genesis = .ok s₀) (hparent : SeparatesParents ctx.env blocks)
    (h : AtRest ctx blocks s₀ node chain) (hmade : b ∈ blocks)
    (hb : goesThrough ctx node (.push b) = true) :
    (∃ chain', AtRest ctx blocks s₀ (node.pushBlock ctx b).1 chain') ∧
      node.blockLog <+: (node.pushBlock ctx b).1.blockLog := by
  rw [goesThrough] at hb
  cases hpush : node.forkDb.pushBlock b with
  | error e =>
    rw [pushBlock_of_error hpush]
    exact ⟨⟨chain, h⟩, List.prefix_refl _⟩
  | ok forkDb =>
    have hstored := h.store hmade hpush
    obtain ⟨item, hitem, hnew, _, _⟩ := ForkDatabase.pushBlock_eq_ok hpush
    simp only [hpush, hnew, Option.all_some] at hb
    split at hb
    · rename_i hprevious
      rw [Bool.and_eq_true, Option.all_eq_true] at hb
      obtain ⟨habove, hok⟩ := hb
      have habove : ∀ before, node.forkDb.head = some before → before.num < b.blockNum :=
        fun before hbefore ↦ of_decide_eq_true (habove before hbefore)
      have hdata : item.data = b := ForkDatabase.itemOf_data hitem
      have hitemNum : item.num = b.blockNum := by rw [ForkItem.num, hdata]
      rw [ForkDatabase.newHead_of_above (hitemNum ▸ habove)] at hnew hprevious
      have hprevious : b.previous = node.headBlockId := hdata ▸ hprevious
      have hnum : b.blockNum = chain.length + 1 := by
        have hheight := congrArg BlockId.num hprevious
        exact congrArg Nat.succ (hheight.trans (h.headed hgenesis).head_num)
      obtain ⟨t, hstate⟩ : ∃ t, Chain.applyBlock ctx.toContext node.state b = .ok t := by
        cases hstate : Chain.applyBlock ctx.toContext node.state b with
        | error e =>
          rw [hstate] at hok
          cases hok
        | ok t => exact ⟨t, rfl⟩
      have hirreversible : t.dgp.lastIrreversibleBlockNum ≤ item.num := by
        have hmain := h.main.apply hstate
        have hle := hmain.linked.runsFrom.irreversible_le_head hskip hgenesis
        rw [(hmain.headed hgenesis).number, List.length_cons] at hle
        omega
      obtain ⟨node', happly⟩ := hstored.exists_applied hskip hgenesis hstored.connected
        (h.rooted_extend hpush habove hnum) hnew (ForkDatabase.isKnownBlock_pushBlock hpush)
        hstate hirreversible
      rw [pushBlock_extend hpush habove hprevious happly]
      have hgrows : ({ node with forkDb := forkDb } : Node ctx.env).blockLog <+:
          node'.blockLog := applyInSession_log happly
      exact ⟨⟨_, (h.extend hskip hgenesis hparent hmade hpush habove happly).toAtRest⟩, hgrows⟩
    · rename_i hprevious
      generalize node.forkDb.newHead item = top at hnew hb hprevious
      have hprevious : top.previousId ≠
          ({ node with forkDb := forkDb } : Node ctx.env).headBlockId := hprevious
      simp only [pushBlock, hpush, hnew]
      rw [if_pos hprevious]
      split
      · rename_i habove
        have hnot : ¬ top.num ≤ node.headBlockNum := Nat.not_le.2 habove
        rw [decide_eq_false hnot, Bool.false_or] at hb
        exact hstored.switch hskip hgenesis hparent hnew habove hb
      · exact ⟨⟨chain, hstored⟩, List.prefix_refl _⟩

theorem AtRest.call (hskip : ctx.skip.validate = false)
    (hgenesis : initGenesis ctx.genesis = .ok s₀) (hparent : SeparatesParents ctx.env blocks)
    (h : AtRest ctx blocks s₀ node chain) {c : Call} (hmade : c.Within blocks)
    (hc : goesThrough ctx node c = true) :
    (∃ chain', AtRest ctx blocks s₀ (node.call ctx c) chain') ∧
      node.blockLog <+: (node.call ctx c).blockLog := by
  cases c with
  | push b => exact h.push hskip hgenesis hparent hmade hc
  | pop =>
    rw [Node.call]
    cases hpop : node.popBlock with
    | error e => exact ⟨⟨chain, h⟩, List.prefix_refl _⟩
    | ok node' =>
      obtain ⟨_, top, _, _, hhead, _, _⟩ := popBlock_eq_ok hpop
      obtain ⟨chain', hrest, _, _, _, _, hblockLog, _⟩ := h.pop hhead hpop
      dsimp only
      rw [hblockLog]
      exact ⟨⟨chain', hrest⟩, List.prefix_refl _⟩

theorem Reaches.atRest (hskip : ctx.skip.validate = false)
    (hgenesis : initGenesis ctx.genesis = .ok s₀) (hparent : SeparatesParents ctx.env blocks)
    (hstart : AtRest ctx blocks s₀ start chain)
    (h : Reaches ctx blocks (goesThrough ctx) start node) :
    (∃ chain', AtRest ctx blocks s₀ node chain') ∧ start.blockLog <+: node.blockLog := by
  induction h with
  | refl => exact ⟨⟨chain, hstart⟩, List.prefix_refl _⟩
  | call _ c hmade hc ih =>
    obtain ⟨⟨chain', hnode⟩, hlog⟩ := ih
    obtain ⟨hcall, hgrows⟩ := hnode.call hskip hgenesis hparent hmade hc
    exact ⟨hcall, hlog.trans hgrows⟩

/-! ## The main chain of a state -/

/-- All chains of these blocks that lead to one state have the same blocks. -/
theorem mainIds_eq (hgenesis : initGenesis ctx.genesis = .ok s₀)
    (hparent : SeparatesParents ctx.env blocks) (h : MainChain ctx.toContext s₀ chain s)
    (hmade : MadeOf blocks chain) (h' : MainChain ctx.toContext s₀ chain' s)
    (hmade' : MadeOf blocks chain') : mainIds ctx.env chain = mainIds ctx.env chain' := by
  have hheaded := h.headed hgenesis
  have hheaded' := h'.headed hgenesis
  have hlength : chain.length = chain'.length := hheaded.number.symm.trans hheaded'.number
  apply List.ext_getElem?
  intro k
  rcases Nat.lt_or_ge k chain.length with hlt | hge
  · have hlast : ∀ {chain : List (Database × SignedBlock)}, k < chain.length →
        Headed ctx.env chain s → (mainIds ctx.env chain)[chain.length - 1]? =
          some s.dgp.headBlockId := by
      intro chain hlt hs
      have hid := hs.id
      rw [List.getLast?_eq_getElem?, length_mainIds,
        List.getElem?_eq_getElem (by rw [length_mainIds]; omega), Option.getD_some] at hid
      rw [List.getElem?_eq_getElem (by rw [length_mainIds]; omega), hid]
    have htop' := hlast (hlength ▸ hlt) hheaded'
    rw [← hlength] at htop'
    exact (hheaded.descends hmade).agree hparent (hheaded'.descends hmade')
      (hlast hlt hheaded) htop' (by omega)
  · rw [List.getElem?_eq_none (by rw [length_mainIds]; exact hge),
      List.getElem?_eq_none (by rw [length_mainIds, ← hlength]; exact hge)]

/-- The block log of a later node starts with all that is irreversible now. -/
structure KeepsIrreversible (ctx : NodeContext) (blocks : Set SignedBlock) (s₀ : Database)
    (node node' : Node ctx.env) : Prop where
  main : ∃ chain, MadeOf blocks chain ∧ MainChain ctx.toContext s₀ chain node'.state
  bounded : node'.lastNonUndoableBlockNum ≤ node'.headBlockNum
  stays : ∀ chain chain', MadeOf blocks chain → MadeOf blocks chain' →
    MainChain ctx.toContext s₀ chain node.state → MainChain ctx.toContext s₀ chain' node'.state →
      (mainIds ctx.env chain).take node.lastNonUndoableBlockNum =
        (mainIds ctx.env chain').take node.lastNonUndoableBlockNum
  grows : node.blockLog <+: node'.blockLog
  log : ∀ chain', MadeOf blocks chain' → MainChain ctx.toContext s₀ chain' node'.state →
    node'.blockLog.map ctx.env.blockId <+: mainIds ctx.env chain'

theorem irreversible_blocks_stay (hskip : ctx.skip.validate = false)
    (hgenesis : initGenesis ctx.genesis = .ok s₀) (hparent : SeparatesParents ctx.env blocks)
    (hstart : Opens ctx s₀ start chain) (hmade : MadeOf blocks chain)
    (h : Reaches ctx blocks (goesThrough ctx) start node)
    (h' : Reaches ctx blocks (goesThrough ctx) node node') :
    KeepsIrreversible ctx blocks s₀ node node' := by
  obtain ⟨⟨chain₁, hnode⟩, _⟩ :=
    h.atRest hskip hgenesis hparent (hstart.settled hskip hgenesis hmade).toAtRest
  obtain ⟨⟨chain₂, hnode'⟩, hgrows⟩ := h'.atRest hskip hgenesis hparent hnode
  have hirreversible : node.lastNonUndoableBlockNum ≤ node.blockLog.length :=
    hnode.irreversible node.state List.mem_cons_self
  have hirreversible' : node'.lastNonUndoableBlockNum ≤ node'.blockLog.length :=
    hnode'.irreversible node'.state List.mem_cons_self
  have hheight : node'.headBlockNum = chain₂.length := (hnode'.headed hgenesis).number
  have hlog : ∀ chain', MadeOf blocks chain' → MainChain ctx.toContext s₀ chain' node'.state →
      node'.blockLog.map ctx.env.blockId <+: mainIds ctx.env chain' := by
    intro chain' hmade' hmain
    rw [mainIds_eq hgenesis hparent hmain hmade' hnode'.main hnode'.made]
    exact hnode'.log
  constructor
  · exact ⟨chain₂, hnode'.made, hnode'.main⟩
  · have hlength := hnode'.length_blockLog_le
    omega
  · intro chain chain' hchain hchain' hmain hmain'
    have hfirst : node.blockLog.map ctx.env.blockId <+: mainIds ctx.env chain := by
      rw [mainIds_eq hgenesis hparent hmain hchain hnode.main hnode.made]
      exact hnode.log
    have hsecond : node.blockLog.map ctx.env.blockId <+: mainIds ctx.env chain' :=
      (hgrows.map _).trans (hlog chain' hchain' hmain')
    have htake : ∀ {ids : List BlockId}, node.blockLog.map ctx.env.blockId <+: ids →
        ids.take node.lastNonUndoableBlockNum =
          (node.blockLog.map ctx.env.blockId).take node.lastNonUndoableBlockNum := by
      intro ids hids
      obtain ⟨rest, rfl⟩ := hids
      exact List.take_append_of_le_length (by rwa [List.length_map])
    rw [htake hfirst, htake hsecond]
  · exact hgrows
  · exact hlog

/-- A development network whose last irreversible block is two blocks below the head. -/
def promptNodes : NodeContext :=
  { linkedNodes with genesis := { devGenesis with maxWitnesses := 2 } }

/-- A block on another one, at this time. -/
def blockOn (b : SignedBlock) (timestamp : ℕ) : SignedBlock :=
  devBlock (promptNodes.env.blockId b) timestamp []

/-- The first block of another branch. -/
def sideBlock : SignedBlock := devBlock .null 1531512806 []

/-- Blocks of a fork after the first block, which is longer than the chain. -/
def forkAfterFirst : List SignedBlock :=
  let second := blockOn firstBlock 1531512809
  [second, blockOn second 1531512812]

/-- Blocks of a fork from genesis, which is longer still. -/
def forkBelow : List SignedBlock :=
  let second := blockOn sideBlock 1531512812
  let third := blockOn second 1531512815
  [sideBlock, second, third, blockOn third 1531512818]

/-- Two blocks, a switch to a fork that makes the first block irreversible, and a fork from below
it, which is refused while its blocks are popped. -/
theorem irreversible_blocks_stay_over_switches :
    ∃ s₀ node node', initGenesis promptNodes.genesis = .ok s₀ ∧
      Reaches promptNodes Set.univ (goesThrough promptNodes) node node' ∧
      node.lastNonUndoableBlockNum = 1 ∧ node.headBlockNum = 3 ∧ node'.headBlockNum = 1 ∧
      KeepsIrreversible promptNodes Set.univ s₀ node node' := by
  have hok : okAnd (initGenesis promptNodes.genesis) (fun s₀ ↦
      let calls : List Call := (firstBlock :: blockOn firstBlock 1531512806 ::
        forkAfterFirst).map Call.push
      let later : List Call := forkBelow.map Call.push
      let node := afterCalls promptNodes s₀ calls
      allMeet promptNodes (goesThrough promptNodes) (Node.opened s₀) calls &&
      allMeet promptNodes (goesThrough promptNodes) node later &&
      decide (node.lastNonUndoableBlockNum = 1 ∧ node.headBlockNum = 3 ∧
        (later.foldl (Node.call promptNodes) node).headBlockNum = 1)) = true := by
    decide +kernel
  obtain ⟨s₀, hgenesis, hs₀⟩ := exists_of_okAnd hok
  simp only [Bool.and_eq_true, decide_eq_true_eq] at hs₀
  obtain ⟨⟨hcalls, hlater⟩, hirreversible, hheight, hheight'⟩ := hs₀
  have hreaches := reaches_afterCalls hcalls
  have hreaches' := reaches_of_allMeet (.refl (C := goesThrough promptNodes)) hlater
  have hkept := irreversible_blocks_stay rfl hgenesis (linkedContext_separatesParents Set.univ)
    .genesis (List.forall_mem_nil _) hreaches hreaches'
  exact ⟨s₀, _, _, hgenesis, hreaches', hirreversible, hheight, hheight', hkept⟩

/-! ## A block that is logged in place of another -/

/-- The head of the fork database builds on the head block when this block is pushed. -/
def onHead (node : Node ctx.env) (b : SignedBlock) : Bool :=
  match node.forkDb.pushBlock b with
  | .error _ => false
  | .ok forkDb => forkDb.head.any fun top ↦ decide (top.previousId = node.headBlockId)

theorem pushBlock_of_onHead (h : node.onHead b = true) : ∃ forkDb,
    node.pushBlock ctx b = ({ node with forkDb := forkDb } : Node ctx.env).applyPushed ctx b := by
  rw [onHead] at h
  split at h
  · cases h
  · rename_i forkDb hpush
    obtain ⟨top, hhead, hprevious⟩ := (Option.any_eq_true _ _).1 h
    exact ⟨forkDb, pushBlock_onHead hpush hhead (of_decide_eq_true hprevious)⟩

theorem mainChain_push (hmain : MainChain ctx.toContext s₀ chain node.state)
    (h : node.onHead b = true) (hok : (node.pushBlock ctx b).2.isOk = true) :
    MainChain ctx.toContext s₀ ((node.state, b) :: chain) (node.pushBlock ctx b).1.state := by
  obtain ⟨forkDb, hpush⟩ := pushBlock_of_onHead h
  rw [hpush, applyPushed] at hok ⊢
  cases happly : ({ node with forkDb := forkDb } : Node ctx.env).applyInSession ctx b with
  | mk node' result =>
    rw [happly] at hok
    cases result with
    | error e => cases hok
    | ok _ =>
      obtain ⟨_, _, hstate, _⟩ := applyInSession_ok happly
      exact hmain.apply hstate

/-- A block that is refused before the commit leaves the state. -/
theorem state_push_refused (h : node.onHead b = true)
    (hrefused : (Chain.runStages ctx.toContext (SignedBlock.stagesBeforeCommit b)
      node.state).isOk = false) : (node.pushBlock ctx b).1.state = node.state := by
  obtain ⟨forkDb, hpush⟩ := pushBlock_of_onHead h
  rw [hpush, applyPushed]
  cases happly : ({ node with forkDb := forkDb } : Node ctx.env).applyInSession ctx b with
  | mk node' result =>
    cases result with
    | error e =>
      rcases applyInSession_error happly with rfl | ⟨s, _, hs, _⟩
      · rfl
      · rw [hs] at hrefused
        cases hrefused
    | ok _ =>
      obtain ⟨s, hs, _⟩ := applyInSession_ok happly
      rw [hs] at hrefused
      cases hrefused

/-- A block on the second one, signed with this key. -/
def thirdBlock (key : PublicKey) : SignedBlock :=
  { devBlock (promptNodes.env.blockId (secondBlock 7)) 1531512809 [] with witnessSignature := key }

/-- A refused third block leaves the head of the fork database on it, so the first block, when it
comes again, is tried on the head block and removed. With the next block the side block is logged in
its place. -/
theorem log_takes_side_block :
    ∃ s₀ node chain, initGenesis promptNodes.genesis = .ok s₀ ∧
      Reaches promptNodes Set.univ (fun _ _ ↦ true) (Node.opened s₀) node ∧
      MainChain promptNodes.toContext s₀ chain node.state ∧
      ¬ KeepsIrreversible promptNodes Set.univ s₀ (Node.opened s₀) node := by
  have hok : okAnd (initGenesis promptNodes.genesis) (fun s₀ ↦
      let calls : List Call := [.push firstBlock, .push sideBlock, .push (secondBlock 7)]
      let node := afterCalls promptNodes s₀ calls
      let refused := (node.pushBlock promptNodes (thirdBlock 8)).1
      let again := (refused.pushBlock promptNodes firstBlock).1
      let logged := again.pushBlock promptNodes (thirdBlock 7)
      allMeet promptNodes (goesThrough promptNodes) (Node.opened s₀) calls &&
      (node.onHead (thirdBlock 8) && !(Chain.runStages promptNodes.toContext
        (SignedBlock.stagesBeforeCommit (thirdBlock 8)) node.state).isOk) &&
      (refused.onHead firstBlock && !(Chain.runStages promptNodes.toContext
        (SignedBlock.stagesBeforeCommit firstBlock) refused.state).isOk) &&
      (again.onHead (thirdBlock 7) && logged.2.isOk) &&
      decide (logged.1.blockLog.map promptNodes.env.blockId =
          [promptNodes.env.blockId sideBlock] ∧
        logged.1.state.blockSummaries 1 = promptNodes.env.blockId firstBlock)) = true := by
    decide +kernel
  obtain ⟨s₀, hgenesis, hs₀⟩ := exists_of_okAnd hok
  simp only [Bool.and_eq_true, Bool.not_eq_true', decide_eq_true_eq] at hs₀
  obtain ⟨⟨⟨⟨hcalls, hthird, hthird'⟩, hfirst, hfirst'⟩, hlast, hlast'⟩, hlog, hring⟩ := hs₀
  have hparent : SeparatesParents promptNodes.env Set.univ := linkedContext_separatesParents _
  have hopens : Opens promptNodes s₀ (Node.opened s₀) [] := .genesis
  obtain ⟨⟨chain, hrest⟩, _⟩ := (reaches_afterCalls hcalls).atRest rfl hgenesis hparent
    (hopens.settled rfl hgenesis (List.forall_mem_nil _)).toAtRest
  have hstate := (state_push_refused hfirst hfirst').trans (state_push_refused hthird hthird')
  have hmain := mainChain_push (hstate ▸ hrest.main) hlast hlast'
  have hreaches : Reaches promptNodes Set.univ (fun _ _ ↦ true) (Node.opened s₀)
      (afterCalls promptNodes s₀ [.push firstBlock, .push sideBlock, .push (secondBlock 7),
        .push (thirdBlock 8), .push firstBlock, .push (thirdBlock 7)]) := reaches_anyCalls s₀ _
  refine ⟨s₀, _, _, hgenesis, ?_, hmain, fun hkept ↦ ?_⟩
  · exact hreaches
  have hheaded := hmain.headed hgenesis
  have hnumber := congrArg BlockId.num hring
  have hfirstId := hheaded.summaries.eq_of_number hheaded.numbered rfl Nat.one_pos hnumber
  obtain ⟨rest, hlogged⟩ := hkept.log _ (fun _ _ ↦ Set.mem_univ _) hmain
  rw [hlog] at hlogged
  rw [← hlogged, hring] at hfirstId
  have hdiffer : promptNodes.env.blockId sideBlock ≠ promptNodes.env.blockId firstBlock := by
    decide
  exact hdiffer (Option.some.inj hfirstId)

end Node

end SophiaTX.Chain
