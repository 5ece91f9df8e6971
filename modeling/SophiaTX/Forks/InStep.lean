import SophiaTX.Forks.Calls

/-!
# Nodes in step

The fork database has a head of its own. It is in step with the node when it is the item of the
head block. Blocks that are applied on the head, blocks that come no higher than it and pops keep
the two in step.
-/

namespace SophiaTX.Chain

open SophiaTX.Protocol SophiaTX.Lib

namespace Node

/-- A block that the fork database takes above its head extends the head of the node and is
applied, and a block is popped only while there is a session for it. -/
def orderly (ctx : NodeContext) (node : Node ctx.env) : Call → Bool
  | .push b =>
    match node.forkDb.pushBlock b with
    | .error _ => true
    | .ok forkDb =>
      node.forkDb.head.any (fun top ↦ decide (b.blockNum ≤ top.num)) ||
        (decide (b.previous = node.headBlockId) &&
          (({ node with forkDb := forkDb } : Node ctx.env).applyInSession ctx b).2.isOk)
  | .pop => !node.sessions.isEmpty || !node.forkDb.popBlock.isOk

variable {ctx : NodeContext} {node node' : Node ctx.env} {s s₀ : Database} {b : SignedBlock}
  {blocks : Set SignedBlock} {chain : List (Database × SignedBlock)} {top : ForkItem}
  {id : BlockId} {n : ℕ} {forkDb : ForkDatabase ctx.env}

/-- The head of the fork database is the item of the head block, and its id is in the index. -/
def HeadInStep (node : Node ctx.env) : Prop :=
  ∃ top, node.forkDb.head = some top ∧ top.id ctx.env = node.headBlockId ∧
    node.forkDb.isKnownBlock node.headBlockId = true

instance (node : Node ctx.env) : Decidable node.HeadInStep :=
  decidable_of_iff ((node.forkDb.head.any fun top ↦ decide (top.id ctx.env = node.headBlockId)) &&
      node.forkDb.isKnownBlock node.headBlockId) <| by
    rw [Bool.and_eq_true, Option.any_eq_true]
    constructor
    · intro ⟨⟨top, hhead, hid⟩, hknown⟩
      exact ⟨top, hhead, of_decide_eq_true hid, hknown⟩
    · intro ⟨top, hhead, hid, hknown⟩
      exact ⟨⟨top, hhead, decide_eq_true hid⟩, hknown⟩

/-- A settled node whose fork database is in step and has no item that is too old. -/
structure InStep (ctx : NodeContext) (blocks : Set SignedBlock) (s₀ : Database)
    (node : Node ctx.env) (chain : List (Database × SignedBlock)) : Prop
    extends Settled ctx blocks s₀ node chain where
  head : node.forkDb.head = none ∧ chain = [] ∨ node.HeadInStep
  recent : ∀ top, node.forkDb.head = some top →
    ∀ item ∈ node.forkDb.items, node.forkDb.oldest top ≤ item.num

theorem Opens.inStep (hskip : ctx.skip.validate = false)
    (hgenesis : initGenesis ctx.genesis = .ok s₀) (h : Opens ctx s₀ node chain)
    (hmade : MadeOf blocks chain) : InStep ctx blocks s₀ node chain := by
  have hsettled := h.settled hskip hgenesis hmade
  cases h with
  | genesis =>
    exact { hsettled with
      head := .inl ⟨rfl, rfl⟩
      recent := nofun }
  | @reopened chain s t b h =>
    have hhead : s.dgp.headBlockId = ctx.env.blockId b :=
      congrArg Heading.headBlockId (applyBlock_heading h.linked.1).2
    have hknown : (ForkDatabase.empty.startBlock b : ForkDatabase ctx.env).isKnownBlock
        s.dgp.headBlockId = true := by
      rw [hhead]
      apply ForkDatabase.isKnownBlock_iff.2
      exact ⟨.unlinked 0 b, ForkDatabase.mem_items_insert.2 (.inr ⟨rfl, rfl⟩), rfl⟩
    exact { hsettled with
      head := .inr ⟨.unlinked 0 b, rfl, hhead.symm, hknown⟩
      recent := by
        intro top htop item hitem
        obtain rfl := Option.some.inj htop
        rw [items_startBlock hitem]
        exact max_le (Int.natCast_nonneg _) (Int.sub_le_self _ (Int.natCast_nonneg _)) }

/-! ## Blocks on the head -/

/-- A block that extends the head is applied, and the fork database stays in step. -/
theorem InStep.extend (hskip : ctx.skip.validate = false)
    (hgenesis : initGenesis ctx.genesis = .ok s₀) (hparent : SeparatesParents ctx.env blocks)
    (h : InStep ctx blocks s₀ node chain) (hb : b ∈ blocks)
    (hpush : node.forkDb.pushBlock b = .ok forkDb)
    (habove : ∀ top, node.forkDb.head = some top → top.num < b.blockNum)
    (happly : ({ node with forkDb := forkDb } : Node ctx.env).applyInSession ctx b =
      (node', .ok ())) :
    InStep ctx blocks s₀ node' ((node.state, b) :: chain) := by
  have hsettled := h.toAtRest.extend hskip hgenesis hparent hb hpush habove happly
  obtain ⟨top, hitem, hnew, _, _⟩ := ForkDatabase.pushBlock_eq_ok hpush
  have hnum : top.num = b.blockNum := by
    rw [ForkItem.num, ForkDatabase.itemOf_data hitem]
  have hhead : forkDb.head = some top := by
    rw [hnew]
    exact congrArg some (ForkDatabase.newHead_of_above fun before hbefore ↦
      hnum ▸ habove before hbefore)
  have hheadId : node'.headBlockId = ctx.env.blockId b := headBlockId_applied happly
  obtain ⟨size, hwindow⟩ := exists_window happly
  have hrecent : ∀ other, node'.forkDb.head = some other →
      ∀ item ∈ node'.forkDb.items, node'.forkDb.oldest other ≤ item.num := by
    intro other hother item hstored
    rw [hwindow] at hother hstored ⊢
    rw [ForkDatabase.head_setMaxSize] at hother
    have holdest := ((ForkDatabase.mem_items_setMaxSize hother).1 hstored).2
    rw [ForkDatabase.setMaxSize_eq hother]
    exact holdest
  have hknown : node'.forkDb.isKnownBlock node'.headBlockId = true := by
    obtain ⟨item, hstored, hid⟩ :=
      ForkDatabase.isKnownBlock_iff.1 (ForkDatabase.isKnownBlock_pushBlock hpush)
    have hitemNum : item.num = top.num := by
      rw [← ForkItem.num_id ctx.env, hid, ← id_itemOf hitem]
      rfl
    rw [hheadId, hwindow]
    apply ForkDatabase.isKnownBlock_iff.2
    refine ⟨item, (ForkDatabase.mem_items_setMaxSize hhead).2 ⟨hstored, ?_⟩, hid⟩
    rw [hitemNum]
    exact max_le (Int.natCast_nonneg _) (Int.sub_le_self _ (Int.natCast_nonneg _))
  have hinStep : node'.HeadInStep := by
    refine ⟨top, ?_, (id_itemOf hitem).trans hheadId.symm, hknown⟩
    rw [hwindow, ForkDatabase.head_setMaxSize]
    exact hhead
  exact { hsettled with
    head := .inr hinStep
    recent := hrecent }

/-! ## Other blocks -/

/-- A block that comes no higher than the head of the fork database is stored. -/
theorem InStep.storeAside (h : InStep ctx blocks s₀ node chain) (hb : b ∈ blocks)
    (hpush : node.forkDb.pushBlock b = .ok forkDb) (hhead : node.forkDb.head = some top)
    (hle : b.blockNum ≤ top.num) : InStep ctx blocks s₀ { node with forkDb := forkDb } chain := by
  obtain ⟨item, hitem, _, hsize, hitems⟩ := ForkDatabase.pushBlock_eq_ok hpush
  have hnum : item.num = b.blockNum := by
    rw [ForkItem.num, ForkDatabase.itemOf_data hitem]
  have hnew : forkDb.head = some top := ForkDatabase.head_pushBlock_of_le hpush hhead hle
  have hsettled := h.toSettled.store hb hpush fun other hother ↦
    h.low other (hhead.trans (hnew.symm.trans hother))
  have holdest : forkDb.oldest top = node.forkDb.oldest top := by
    rw [ForkDatabase.oldest, ForkDatabase.oldest, hsize]
  have hrecent : ∀ other, forkDb.head = some other →
      ∀ stored ∈ forkDb.items, forkDb.oldest other ≤ stored.num := by
    intro other hother stored hstored
    obtain rfl : top = other := Option.some.inj (hnew.symm.trans hother)
    rw [holdest]
    rcases (hitems stored).1 hstored with hold | ⟨rfl, _⟩
    · exact h.recent top hhead stored hold
    · rw [hnum]
      exact (ForkDatabase.oldest_lt_of_itemOf hhead hitem).le
  have hinStep : ({ node with forkDb := forkDb } : Node ctx.env).HeadInStep := by
    rcases h.head with ⟨hnone, _⟩ | ⟨other, hother, hid, hknown⟩
    · rw [hhead] at hnone
      cases hnone
    · obtain rfl : top = other := Option.some.inj (hhead.symm.trans hother)
      exact ⟨top, hnew, hid, ForkDatabase.isKnownBlock_of_pushBlock hpush hknown⟩
  exact { hsettled with
    head := .inr hinStep
    recent := hrecent }

/-- The head of the fork database is as high as the head block. -/
theorem InStep.num_eq (hgenesis : initGenesis ctx.genesis = .ok s₀)
    (h : InStep ctx blocks s₀ node chain) (hhead : node.forkDb.head = some top) :
    top.id ctx.env = node.headBlockId ∧ top.num = node.headBlockNum := by
  rcases h.head with ⟨hnone, _⟩ | ⟨other, hother, hid, _⟩
  · rw [hhead] at hnone
    cases hnone
  · obtain rfl : top = other := Option.some.inj (hhead.symm.trans hother)
    have hheaded := h.headed hgenesis
    refine ⟨hid, ?_⟩
    rw [← ForkItem.num_id ctx.env, hid]
    exact hheaded.head_num.trans hheaded.number.symm

/-- Pushing such a block does no more. -/
theorem InStep.pushBlock_aside (hgenesis : initGenesis ctx.genesis = .ok s₀)
    (h : InStep ctx blocks s₀ node chain) (hpush : node.forkDb.pushBlock b = .ok forkDb)
    (hhead : node.forkDb.head = some top) (hle : b.blockNum ≤ top.num) :
    node.pushBlock ctx b = ({ node with forkDb := forkDb }, .ok false) := by
  have hnew : forkDb.head = some top := ForkDatabase.head_pushBlock_of_le hpush hhead hle
  obtain ⟨hid, hnum⟩ := h.num_eq hgenesis hhead
  have hprevious : top.previousId ≠
      ({ node with forkDb := forkDb } : Node ctx.env).headBlockId := by
    intro heq
    have hparent : top.previousId.num = (top.id ctx.env).num :=
      congrArg BlockId.num (heq.trans hid.symm)
    rw [ForkItem.num_id, ForkItem.num_eq] at hparent
    omega
  have hlow : ¬ ({ node with forkDb := forkDb } : Node ctx.env).headBlockNum < top.num :=
    Nat.not_lt.2 hnum.le
  simp only [pushBlock, hpush, hnew]
  rw [if_pos hprevious, if_neg hlow]

/-! ## Pops -/

theorem isOk_popBlock (h : node.popBlock = .ok node') : node.forkDb.popBlock.isOk = true := by
  rw [popBlock] at h
  cases hblock : node.headBlock with
  | none =>
    rw [hblock] at h
    cases h
  | some headBlock =>
    simp only [hblock, bind_eq_ok] at h
    obtain ⟨forkDb, hpop, _⟩ := h
    rw [hpop]
    rfl

/-- A pop with a session to undo keeps a node in step. -/
theorem InStep.pop (hgenesis : initGenesis ctx.genesis = .ok s₀)
    (hparent : SeparatesParents ctx.env blocks) (h : InStep ctx blocks s₀ node chain)
    (hsessions : node.sessions ≠ []) (hpop : node.popBlock = .ok node') :
    ∃ chain', InStep ctx blocks s₀ node' chain' := by
  obtain ⟨_, top, _, _, hhead, _, _⟩ := popBlock_eq_ok hpop
  obtain ⟨chain', hsettled, prev, hprev, hlock, hforkDb, hcases⟩ :=
    h.toSettled.pop hgenesis hhead hpop
  obtain ⟨t, b, sessions, rfl, _, hstate⟩ := hcases.resolve_left fun hnone ↦ hsessions hnone.1
  have hprevOf : top.prev = some prev := (ForkDatabase.lock_eq_some.1 hlock).1
  have hprevId : prev.id ctx.env = top.previousId := (h.linked.head top hhead).id_prev hprevOf
  have happlied := applyBlock_heading h.main.linked.1
  have htopId : top.id ctx.env = ctx.env.blockId b :=
    (h.num_eq hgenesis hhead).1.trans (congrArg Heading.headBlockId happlied.2)
  have hheadId : prev.id ctx.env = t.dgp.headBlockId := by
    rw [hprevId, happlied.1]
    exact hparent top.data (h.linked.head top hhead).made b (h.made (t, b) List.mem_cons_self)
      htopId
  have hknown : node.forkDb.isKnownBlock t.dgp.headBlockId = true :=
    ForkDatabase.isKnownBlock_iff.2 ⟨prev, hprev, hheadId⟩
  have hrecent : ∀ other, (node.forkDb.setHead prev).head = some other →
      ∀ item ∈ node.forkDb.items, node.forkDb.oldest other ≤ item.num := by
    intro other hother item hitem
    obtain rfl := Option.some.inj hother
    have hbelow := (h.linked.head top hhead).num_prev hprevOf
    have hitemOld := h.recent top hhead item hitem
    rw [ForkDatabase.oldest] at hitemOld ⊢
    omega
  refine ⟨chain', { hsettled with
    head := .inr ?_
    recent := ?_ }⟩
  · rw [HeadInStep, headBlockId, hstate, hforkDb]
    exact ⟨prev, rfl, hheadId, hknown⟩
  · rw [hforkDb]
    exact hrecent

/-! ## Runs -/

/-- What an orderly push does. -/
theorem InStep.pushBlock_cases (hgenesis : initGenesis ctx.genesis = .ok s₀)
    (h : InStep ctx blocks s₀ node chain) (hb : orderly ctx node (.push b) = true) :
    (∃ e, node.pushBlock ctx b = (node, .error e)) ∨
      (∃ forkDb top, node.forkDb.pushBlock b = .ok forkDb ∧ node.forkDb.head = some top ∧
        b.blockNum ≤ top.num ∧ node.pushBlock ctx b = ({ node with forkDb := forkDb }, .ok false)) ∨
      ∃ forkDb node', node.forkDb.pushBlock b = .ok forkDb ∧
        (∀ top, node.forkDb.head = some top → top.num < b.blockNum) ∧
        ({ node with forkDb := forkDb } : Node ctx.env).applyInSession ctx b = (node', .ok ()) ∧
        node.pushBlock ctx b = (node', .ok false) := by
  rw [orderly] at hb
  cases hpush : node.forkDb.pushBlock b with
  | error e => exact .inl ⟨e, pushBlock_of_error hpush⟩
  | ok forkDb =>
    right
    by_cases haside : node.forkDb.head.any (fun top ↦ decide (b.blockNum ≤ top.num)) = true
    · obtain ⟨top, hhead, hle⟩ := (Option.any_eq_true _ _).1 haside
      have hle := of_decide_eq_true hle
      exact .inl ⟨forkDb, top, rfl, hhead, hle, h.pushBlock_aside hgenesis hpush hhead hle⟩
    · simp only [hpush, haside, Bool.false_or, Bool.and_eq_true, decide_eq_true_eq] at hb
      obtain ⟨hprevious, hok⟩ := hb
      have habove : ∀ top, node.forkDb.head = some top → top.num < b.blockNum := by
        intro top hhead
        apply Nat.lt_of_not_le
        intro hle
        exact haside ((Option.any_eq_true _ _).2 ⟨top, hhead, decide_eq_true hle⟩)
      cases happly : ({ node with forkDb := forkDb } : Node ctx.env).applyInSession ctx b with
      | mk node' result =>
        rw [happly] at hok
        cases result with
        | error e => cases hok
        | ok _ =>
          exact .inr ⟨forkDb, node', rfl, habove, happly,
            pushBlock_extend hpush habove hprevious happly⟩

/-- An orderly call keeps a node in step. -/
theorem InStep.call (hskip : ctx.skip.validate = false)
    (hgenesis : initGenesis ctx.genesis = .ok s₀) (hparent : SeparatesParents ctx.env blocks)
    (h : InStep ctx blocks s₀ node chain) {c : Call} (hmade : c.Within blocks)
    (hc : orderly ctx node c = true) :
    ∃ chain', InStep ctx blocks s₀ (node.call ctx c) chain' := by
  cases c with
  | push b =>
    rw [Node.call]
    rcases h.pushBlock_cases hgenesis hc with ⟨e, hresult⟩ |
      ⟨forkDb, top, hpush, hhead, hle, hresult⟩ | ⟨forkDb, node', hpush, habove, happly, hresult⟩
    · rw [hresult]
      exact ⟨chain, h⟩
    · rw [hresult]
      exact ⟨chain, h.storeAside hmade hpush hhead hle⟩
    · rw [hresult]
      exact ⟨_, h.extend hskip hgenesis hparent hmade hpush habove happly⟩
  | pop =>
    rw [Node.call]
    cases hpop : node.popBlock with
    | error e => exact ⟨chain, h⟩
    | ok node' =>
      have hsessions : node.sessions ≠ [] := by
        intro hempty
        rw [orderly, hempty, isOk_popBlock hpop] at hc
        cases hc
      exact h.pop hgenesis hparent hsessions hpop

theorem Reaches.inStep (hskip : ctx.skip.validate = false)
    (hgenesis : initGenesis ctx.genesis = .ok s₀) (hparent : SeparatesParents ctx.env blocks)
    {start : Node ctx.env} (hstart : InStep ctx blocks s₀ start chain)
    (h : Reaches ctx blocks (orderly ctx) start node) :
    ∃ chain', InStep ctx blocks s₀ node chain' := by
  induction h with
  | refl => exact ⟨chain, hstart⟩
  | call _ c hmade hc ih =>
    obtain ⟨chain', hnode⟩ := ih
    exact hnode.call hskip hgenesis hparent hmade hc

/-- A block on a known parent that neither extends the head nor comes higher than it is stored, and
nothing else is changed. -/
theorem InStep.pushBlock_known (hgenesis : initGenesis ctx.genesis = .ok s₀)
    (h : InStep ctx blocks s₀ node chain) (hknown : node.forkDb.isKnownBlock b.previous = true)
    (hle : b.blockNum ≤ node.headBlockNum) :
    ∃ forkDb, node.pushBlock ctx b = ({ node with forkDb := forkDb }, .ok false) ∧
      forkDb.isKnownBlock (ctx.env.blockId b) = true := by
  obtain ⟨top, hhead⟩ : ∃ top, node.forkDb.head = some top := by
    rcases h.head with ⟨_, rfl⟩ | ⟨top, hhead, _⟩
    · have hnum : node.headBlockNum = 0 := (h.headed hgenesis).number
      rw [hnum] at hle
      exact absurd hle (Nat.not_succ_le_zero _)
    · exact ⟨top, hhead⟩
  obtain ⟨parent, hstored, hid⟩ := ForkDatabase.isKnownBlock_iff.1 hknown
  have hnum : parent.num + 1 = b.blockNum := by
    rw [← ForkItem.num_id ctx.env, hid]
    rfl
  have hrecent : node.forkDb.oldest top < b.blockNum := by
    have hparent := h.recent top hhead parent hstored
    omega
  have hle : b.blockNum ≤ top.num := hle.trans (h.num_eq hgenesis hhead).2.ge
  obtain ⟨forkDb, hpush⟩ := ForkDatabase.exists_pushBlock hhead hrecent hknown
  exact ⟨forkDb, h.pushBlock_aside hgenesis hpush hhead hle,
    ForkDatabase.isKnownBlock_pushBlock hpush⟩

theorem fork_database_in_step (hskip : ctx.skip.validate = false)
    (hgenesis : initGenesis ctx.genesis = .ok s₀) (hparent : SeparatesParents ctx.env blocks)
    {start : Node ctx.env} (hstart : Opens ctx s₀ start chain) (hmade : MadeOf blocks chain)
    (h : Reaches ctx blocks (orderly ctx) start node) :
    (node.headBlockNum ≠ 0 → node.HeadInStep) ∧
      ∀ b, node.forkDb.isKnownBlock b.previous = true → b.previous ≠ node.headBlockId →
        b.blockNum ≤ node.headBlockNum →
          ∃ forkDb, node.pushBlock ctx b = ({ node with forkDb := forkDb }, .ok false) ∧
            forkDb.isKnownBlock (ctx.env.blockId b) = true := by
  obtain ⟨chain', hnode⟩ := h.inStep hskip hgenesis hparent (hstart.inStep hskip hgenesis hmade)
  constructor
  · intro happlied
    rcases hnode.head with ⟨_, rfl⟩ | hinStep
    · exact absurd (hnode.headed hgenesis).number happlied
    · exact hinStep
  · intro b hknown _ hle
    exact hnode.pushBlock_known hgenesis hknown hle

/-! ## Two blocks -/

/-- Two blocks are applied and one is popped again. -/
theorem in_step_after_pop :
    ∃ s₀ node, initGenesis linkedNodes.genesis = .ok s₀ ∧
      Reaches linkedNodes Set.univ (orderly linkedNodes) (Node.opened s₀) node ∧
      node.headBlockNum = 1 ∧ node.HeadInStep := by
  have hok : okAnd (initGenesis linkedNodes.genesis) (fun s₀ ↦
      allMeet linkedNodes (orderly linkedNodes) (Node.opened s₀)
        [.push firstBlock, .push (secondBlock 7), .pop] &&
      decide ((afterCalls linkedNodes s₀
        [.push firstBlock, .push (secondBlock 7), .pop]).headBlockNum = 1)) = true := by
    decide +kernel
  obtain ⟨s₀, hgenesis, hs₀⟩ := exists_of_okAnd hok
  rw [Bool.and_eq_true] at hs₀
  have hone := of_decide_eq_true hs₀.2
  have hreaches := reaches_afterCalls hs₀.1
  have hinStep := (fork_database_in_step rfl hgenesis (linkedContext_separatesParents Set.univ)
    .genesis (List.forall_mem_nil _) hreaches).1
  exact ⟨s₀, _, hgenesis, hreaches, hone, hinStep (ne_of_eq_of_ne hone Nat.one_ne_zero)⟩

/-- After a block that its witness has not signed, the fork database stays at its item, which is
removed. -/
theorem out_of_step_after_refusal :
    ∃ s₀ node, initGenesis linkedNodes.genesis = .ok s₀ ∧
      Reaches linkedNodes Set.univ (fun _ _ ↦ true) (Node.opened s₀) node ∧
      node.headBlockNum ≠ 0 ∧ ¬ node.HeadInStep := by
  have hok : okAnd (initGenesis linkedNodes.genesis) (fun s₀ ↦
      let node := afterCalls linkedNodes s₀ [.push firstBlock, .push (secondBlock 8)]
      decide (node.headBlockNum ≠ 0 ∧ ¬ node.HeadInStep)) = true := by decide +kernel
  obtain ⟨s₀, hgenesis, hs₀⟩ := exists_of_okAnd hok
  exact ⟨s₀, _, hgenesis, reaches_anyCalls s₀ _, of_decide_eq_true hs₀⟩

end Node

end SophiaTX.Chain
