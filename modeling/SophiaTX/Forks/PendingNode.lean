import SophiaTX.Forks.Calls

/-!
# Pending transactions

Transactions that no block has yet are applied on top of the head block, in a session of their own.
A block is pushed without them; after it the transactions of popped blocks and the pending ones are
tried again, in this order.
-/

namespace SophiaTX.Chain

open SophiaTX.Protocol SophiaTX.Lib

/-- `_apply_transaction`. -/
def applyTransaction (ctx : Context) (s : Database) (trx : Transaction) : Exec Database :=
  runStages ctx (transactionStages trx) s

/-- `is_known_transaction`. -/
def Database.isKnownTransaction (s : Database) (id : ℕ) : Bool := (s.transactions.find? id).isSome

/-- What a node pushes transactions with. -/
structure PendingContext extends NodeContext where
  trxSize : Transaction → ℕ

namespace PendingContext

/-- The settings of a node in `push_transaction`. -/
def toProducing (ctx : PendingContext) : Context := { ctx.toContext with producing := true }

end PendingContext

namespace Node

variable {env : Env}

/-- `squash`, which merges the newest session with the one before. A session without one before is
dropped, and still counted. -/
def squash (node : Node env) : Node env :=
  match node.sessions with
  | [] => node
  | [_] => { node with sessions := [] }
  | _ :: sessions => { node with sessions := sessions, revision := node.revision - 1 }

/-! ## The blocks that a push pops -/

/-- The blocks that `popUntil` pops, in this order. -/
def poppedUntil (target : BlockId) (head : ForkItem) (node : Node env) : List SignedBlock :=
  if node.headBlockId = target then []
  else match node.popBlock with
    | .error _ => []
    | .ok node' => node.headBlock.toList ++ match head with
      | .unlinked _ _ => []
      | .linked _ _ prev => poppedUntil target prev node'

def poppedByRestore (node : Node env) (target : BlockId) (invalid old : List ForkItem) :
    List SignedBlock :=
  let forkDb := invalid.foldl (fun db item ↦ db.remove (item.id env)) node.forkDb
  match old with
  | [] => []
  | front :: _ => poppedUntil target front { node with forkDb := forkDb.setHead front }

def poppedBySwitch (ctx : NodeContext) (node : Node env) (newHead : ForkItem) :
    List SignedBlock :=
  match node.forkDb.fetchBranchFrom (newHead.id env) node.headBlockId with
  | .error _ => []
  | .ok (new, old) =>
    match old.getLast? with
    | none => []
    | some last =>
      let target := last.previousId
      let held := node.hold (newHead :: new ++ old)
      poppedUntil target newHead held ++
        match popUntil target newHead held with
        | (_, .error _) => []
        | (node, .ok ()) =>
          match node.applyBranch ctx new.reverse with
          | (node, some (invalid, _)) => node.poppedByRestore target invalid old
          | (_, none) => []

/-- The blocks that `_push_block` pops, in this order. -/
def poppedByPush (ctx : NodeContext) (node : Node env) (b : SignedBlock) : List SignedBlock :=
  match node.forkDb.pushBlock b with
  | .error _ => []
  | .ok forkDb =>
    match forkDb.head with
    | none => []
    | some newHead =>
      if newHead.previousId ≠ node.headBlockId ∧ node.headBlockNum < newHead.num then
        poppedBySwitch ctx { node with forkDb := forkDb } newHead
      else []

/-- What `pop_block` makes of the popped transactions, block after block. -/
def savePopped (popped : List SignedBlock) (poppedTx : List Transaction) : List Transaction :=
  popped.foldl (fun poppedTx b ↦ b.transactions ++ poppedTx) poppedTx

theorem savePopped_eq (popped : List SignedBlock) (poppedTx : List Transaction) :
    savePopped popped poppedTx =
      popped.reverse.flatMap SignedBlock.transactions ++ poppedTx := by
  unfold savePopped
  induction popped generalizing poppedTx with
  | nil => rfl
  | cons b popped ih =>
    rw [List.foldl_cons, ih, List.reverse_cons, List.flatMap_append, List.append_assoc,
      List.flatMap_singleton]

theorem savePopped_append (popped popped' : List SignedBlock) (poppedTx : List Transaction) :
    savePopped (popped ++ popped') poppedTx = savePopped popped' (savePopped popped poppedTx) :=
  List.foldl_append

section Popped

variable {ctx : NodeContext} {node node' : Node env} {b : SignedBlock}

/-! Only pops change the popped transactions. -/

theorem poppedTx_undo (node : Node env) : node.undo.poppedTx = node.poppedTx := by
  unfold undo
  split <;> rfl

theorem poppedTx_commitIrreversible {result : Exec Unit}
    (h : node.commitIrreversible = (node', result)) : node'.poppedTx = node.poppedTx := by
  rw [commitIrreversible] at h
  cases happend : (node.commit node.lastNonUndoableBlockNum).appendBlocks node.logHeadNum
    (node.lastNonUndoableBlockNum - node.logHeadNum) with
  | mk left appending =>
    obtain ⟨appended, happends⟩ := appendBlocks_eq happend
    obtain rfl := happends.left
    rw [happend] at h
    cases appending with
    | error e =>
      obtain ⟨rfl, _⟩ := Prod.mk.inj h
      rfl
    | ok _ =>
      obtain ⟨rfl, _⟩ := Prod.mk.inj h
      rfl

theorem poppedTx_applyBlock (ctx : NodeContext) (node : Node env) (b : SignedBlock) :
    (node.applyBlock ctx b).1.poppedTx = node.poppedTx := by
  rw [applyBlock]
  cases hbefore : runStages ctx (SignedBlock.stagesBeforeCommit b) node with
  | mk before beforeResult =>
    obtain ⟨s, rfl, _⟩ := runStages_eq hbefore
    cases beforeResult with
    | error e => rfl
    | ok _ =>
      dsimp only
      cases hcommit : ({ node with state := s } : Node env).commitIrreversible with
      | mk committed commitResult =>
        have hcommitted : committed.poppedTx = ({ node with state := s } : Node env).poppedTx :=
          poppedTx_commitIrreversible hcommit
        cases commitResult with
        | error e => exact hcommitted
        | ok _ =>
          dsimp only
          cases hafter : runStages ctx (SignedBlock.stagesAfterCommit b) committed with
          | mk after afterResult =>
            obtain ⟨s', rfl, _⟩ := runStages_eq hafter
            cases afterResult <;> exact hcommitted

theorem poppedTx_applyInSession (ctx : NodeContext) (node : Node env) (b : SignedBlock) :
    (node.applyInSession ctx b).1.poppedTx = node.poppedTx := by
  have happlied : (node.startUndoSession.applyBlock ctx b).1.poppedTx = node.poppedTx :=
    poppedTx_applyBlock ctx node.startUndoSession b
  rw [applyInSession]
  cases happly : node.startUndoSession.applyBlock ctx b with
  | mk left result =>
    rw [happly] at happlied
    cases result with
    | error e => exact (poppedTx_undo left).trans happlied
    | ok _ => exact happlied

theorem poppedTx_applyBranch (ctx : NodeContext) (items : List ForkItem) (node : Node env) :
    (node.applyBranch ctx items).1.poppedTx = node.poppedTx := by
  induction items generalizing node with
  | nil => rfl
  | cons item items ih =>
    have happlied := poppedTx_applyInSession ctx node item.data
    rw [applyBranch]
    cases happly : node.applyInSession ctx item.data with
    | mk left result =>
      rw [happly] at happlied
      cases result with
      | error e => exact happlied
      | ok _ => exact (ih left).trans happlied

theorem poppedTx_popBlock (h : node.popBlock = .ok node') : ∃ headBlock,
    node.headBlock = some headBlock ∧
      node'.poppedTx = savePopped [headBlock] node.poppedTx := by
  obtain ⟨headBlock, _, _, hblock, _, _, rfl⟩ := popBlock_eq_ok h
  exact ⟨headBlock, hblock, rfl⟩

theorem poppedTx_popUntil (target : BlockId) (head : ForkItem) (node : Node env) :
    (popUntil target head node).1.poppedTx =
      savePopped (poppedUntil target head node) node.poppedTx := by
  induction head generalizing node with
  | unlinked address data =>
    rw [popUntil, poppedUntil]
    split
    · rfl
    · cases hpop : node.popBlock with
      | error e => rfl
      | ok mid =>
        obtain ⟨headBlock, hblock, hsaved⟩ := poppedTx_popBlock hpop
        rw [hblock]
        exact hsaved
  | linked address data prev ih =>
    rw [popUntil, poppedUntil]
    split
    · rfl
    · cases hpop : node.popBlock with
      | error e => rfl
      | ok mid =>
        obtain ⟨headBlock, hblock, hsaved⟩ := poppedTx_popBlock hpop
        dsimp only
        rw [hblock, ih mid, hsaved, Option.toList_some, savePopped_append]

theorem poppedTx_restoreBranch (ctx : NodeContext) (node : Node env) (target : BlockId)
    (invalid old : List ForkItem) (e : ChainError) :
    (node.restoreBranch ctx target invalid old e).1.poppedTx =
      savePopped (node.poppedByRestore target invalid old) node.poppedTx := by
  cases old with
  | nil => rfl
  | cons front old =>
    rw [restoreBranch, poppedByRestore]
    generalize (invalid.foldl (fun db item ↦ db.remove (item.id env)) node.forkDb).setHead front =
      forkDb
    have hpopped := poppedTx_popUntil target front { node with forkDb }
    generalize popUntil target front { node with forkDb } = pops at hpopped ⊢
    obtain ⟨mid, result⟩ := pops
    cases result with
    | error e => exact hpopped
    | ok _ =>
      have happlied := poppedTx_applyBranch ctx (front :: old).reverse mid
      dsimp only
      generalize mid.applyBranch ctx (front :: old).reverse = applied at happlied ⊢
      obtain ⟨left, _ | failed⟩ := applied <;> exact happlied.trans hpopped

theorem poppedTx_switchForks (ctx : NodeContext) (node : Node env) (newHead : ForkItem) :
    (node.switchForks ctx newHead).1.poppedTx =
      savePopped (poppedBySwitch ctx node newHead) node.poppedTx := by
  rw [switchForks, poppedBySwitch]
  cases node.forkDb.fetchBranchFrom (newHead.id env) node.headBlockId with
  | error e => rfl
  | ok branches =>
    obtain ⟨new, old⟩ := branches
    dsimp only
    cases old.getLast? with
    | none => rfl
    | some last =>
      have hpopped := poppedTx_popUntil last.previousId newHead (node.hold (newHead :: new ++ old))
      have hheld : (node.hold (newHead :: new ++ old)).poppedTx = node.poppedTx := rfl
      dsimp only
      rw [savePopped_append]
      cases hpops : popUntil last.previousId newHead (node.hold (newHead :: new ++ old)) with
      | mk mid result =>
        rw [hpops, hheld] at hpopped
        cases result with
        | error e => exact hpopped
        | ok _ =>
          have happlied := poppedTx_applyBranch ctx new.reverse mid
          dsimp only
          cases happly : mid.applyBranch ctx new.reverse with
          | mk left failed =>
            rw [happly] at happlied
            cases failed with
            | none => exact happlied.trans hpopped
            | some failed =>
              obtain ⟨invalid, e⟩ := failed
              dsimp only
              rw [poppedTx_restoreBranch, happlied, hpopped]

/-- The popped transactions after a push are those of the blocks that it pops. -/
theorem poppedTx_pushBlock (ctx : NodeContext) (node : Node env) (b : SignedBlock) :
    (node.pushBlock ctx b).1.poppedTx = savePopped (node.poppedByPush ctx b) node.poppedTx := by
  rw [pushBlock, poppedByPush]
  cases node.forkDb.pushBlock b with
  | error e => rfl
  | ok forkDb =>
    dsimp only
    cases forkDb.head with
    | none => rfl
    | some newHead =>
      have hheadId : ({ node with forkDb := forkDb } : Node env).headBlockId =
          node.headBlockId := rfl
      have hheadNum : ({ node with forkDb := forkDb } : Node env).headBlockNum =
          node.headBlockNum := rfl
      dsimp only
      rw [hheadId, hheadNum]
      by_cases hprevious : newHead.previousId ≠ node.headBlockId
      · by_cases habove : node.headBlockNum < newHead.num
        · rw [if_pos hprevious, if_pos habove, if_pos ⟨hprevious, habove⟩]
          exact poppedTx_switchForks ctx { node with forkDb := forkDb } newHead
        · rw [if_pos hprevious, if_neg habove, if_neg fun hboth ↦ habove hboth.2]
          rfl
      · have happlied := poppedTx_applyInSession ctx { node with forkDb := forkDb } b
        rw [if_neg hprevious, if_neg fun hboth ↦ hprevious hboth.1, applyPushed]
        generalize ({ node with forkDb := forkDb } : Node env).applyInSession ctx b = applied
          at happlied ⊢
        obtain ⟨left, _ | _⟩ := applied <;> exact happlied

end Popped

end Node

/-- A node with its pending transactions. The newest session of the node is that of the pending
transactions, when there is one. -/
structure PendingNode (env : Env) where
  node : Node env
  pendingTxSession : Bool
  pendingTx : List Transaction

namespace PendingNode

variable {env : Env}

/-- A node without pending transactions. -/
def idle (node : Node env) : PendingNode env := ⟨node, false, []⟩

def clearPending (p : PendingNode env) : PendingNode env :=
  { p with
    node := if p.pendingTxSession then p.node.undo else p.node
    pendingTxSession := false
    pendingTx := [] }

/-- The session of the pending transactions is started with the first of them. -/
def openPending (p : PendingNode env) : PendingNode env :=
  if p.pendingTxSession then p
  else { p with node := p.node.startUndoSession, pendingTxSession := true }

/-- `_push_transaction`. -/
def tryTransaction (ctx : Context) (p : PendingNode env) (trx : Transaction) :
    PendingNode env × Exec Unit :=
  let p := p.openPending
  let temp := p.node.startUndoSession
  match applyTransaction ctx temp.state trx with
  | .error e => ({ p with node := temp.undo }, .error e)
  | .ok s =>
    ({ p with
        node := ({ temp with state := s } : Node env).squash
        pendingTx := p.pendingTx ++ [trx] }, .ok ())

/-- `push_transaction`. -/
def pushTransaction (ctx : PendingContext) (p : PendingNode env) (trx : Transaction) :
    PendingNode env × Exec Unit :=
  if ctx.trxSize trx ≤ ctx.genesis.maxTransactionSize then p.tryTransaction ctx.toProducing trx
  else (p, .error (.assertion
    "Transaction size is bigger than SOPHIATX_MAX_TRANSACTION_SIZE"))

/-- A loop of `pending_transactions_restorer`. -/
def restoreTransactions (ctx : Context) (p : PendingNode env) (trxs : List Transaction) :
    PendingNode env :=
  trxs.foldl (fun p trx ↦
    if p.node.state.isKnownTransaction (ctx.env.trxId trx) then p
    else (p.tryTransaction ctx trx).1) p

/-- `_popped_tx.clear()`. -/
def clearPopped (p : PendingNode env) : PendingNode env :=
  { p with node := p.node.withPopped [] }

/-- `push_block`. -/
def pushBlock (ctx : PendingContext) (p : PendingNode env) (b : SignedBlock) :
    PendingNode env × Exec Bool :=
  let pendingTx := p.pendingTx
  let p := p.clearPending
  let (node, result) := p.node.pushBlock ctx.toNodeContext b
  let p : PendingNode env := { p with node := node }
  let p := (restoreTransactions ctx.toContext p node.poppedTx).clearPopped
  (restoreTransactions ctx.toContext p pendingTx, result)

inductive Call where
  | pushBlock (b : SignedBlock)
  | pushTransaction (trx : Transaction)

/-- The node after a call, whether it has returned or thrown. -/
def call (ctx : PendingContext) (p : PendingNode env) : Call → PendingNode env
  | .pushBlock b => (p.pushBlock ctx b).1
  | .pushTransaction trx => (p.pushTransaction ctx trx).1

/-- What calls lead to. -/
inductive Reaches (ctx : PendingContext) (start : PendingNode ctx.env) : PendingNode ctx.env → Prop
  | refl : Reaches ctx start start
  | call {p : PendingNode ctx.env} (h : Reaches ctx start p) (c : Call) :
      Reaches ctx start (p.call ctx c)

/-- The node without its pending transactions. -/
def headNode (p : PendingNode env) : Node env := p.clearPending.node

/-! ## What is kept -/

/-- The transactions of a list that are kept on top of a state, in order, and the state after
them. -/
def keep (ctx : Context) : Database → List Transaction → List Transaction × Database
  | s, [] => ([], s)
  | s, trx :: trxs =>
    if s.isKnownTransaction (ctx.env.trxId trx) then keep ctx s trxs
    else match applyTransaction ctx s trx with
      | .error _ => keep ctx s trxs
      | .ok s' => (trx :: (keep ctx s' trxs).1, (keep ctx s' trxs).2)

/-- Pending transactions on top of a node: they are applied to its state, in order. -/
inductive Pends (ctx : Context) (base : Node env) : PendingNode env → Prop
  | idle : Pends ctx base ⟨base, false, []⟩
  | pending {s : Database} {trxs : List Transaction}
      (h : trxs.foldlM (applyTransaction ctx) base.state = .ok s) :
      Pends ctx base ⟨{ base.startUndoSession with state := s }, true, trxs⟩

variable {ctx : Context} {base : Node env} {p : PendingNode env} {trx : Transaction}
  {trxs : List Transaction} {s s' : Database}

theorem squash_startUndoSession {node : Node env} (h : node.sessions ≠ []) (s : Database) :
    ({ node.startUndoSession with state := s } : Node env).squash = { node with state := s } := by
  obtain ⟨t, sessions, hsessions⟩ := List.exists_cons_of_ne_nil h
  have hboth : ({ node.startUndoSession with state := s } : Node env).sessions =
      node.state :: t :: sessions := congrArg (node.state :: ·) hsessions
  rw [Node.squash, hboth]
  dsimp only
  rw [← hsessions]
  rfl

theorem tryTransaction_eq (ctx : Context) (h : p.openPending.node.sessions ≠ [])
    (trx : Transaction) :
    p.tryTransaction ctx trx = match applyTransaction ctx p.openPending.node.state trx with
      | .error e => (p.openPending, .error e)
      | .ok s => ({ p.openPending with
          node := { p.openPending.node with state := s }
          pendingTx := p.openPending.pendingTx ++ [trx] }, .ok ()) := by
  rw [tryTransaction]
  have hstate : p.openPending.node.startUndoSession.state = p.openPending.node.state := rfl
  cases happly : applyTransaction ctx p.openPending.node.state trx with
  | error e =>
    simp only [hstate, happly]
    rfl
  | ok s =>
    simp only [hstate, happly, squash_startUndoSession h]

namespace Pends

theorem applied (h : Pends ctx base p) :
    p.pendingTx.foldlM (applyTransaction ctx) base.state = .ok p.node.state := by
  cases h with
  | idle => rfl
  | pending h => exact h

theorem clearPending_eq (h : Pends ctx base p) : p.clearPending = ⟨base, false, []⟩ := by
  cases h <;> rfl

theorem clearPopped (h : Pends ctx base p) : Pends ctx (base.withPopped []) p.clearPopped := by
  cases h with
  | idle => exact .idle
  | pending h => exact .pending h

theorem openPending_eq (h : Pends ctx base p) : p.openPending =
    ⟨{ base.startUndoSession with state := p.node.state }, true, p.pendingTx⟩ := by
  cases h <;> rfl

/-- A transaction that is applied joins the others; one that throws changes nothing of them. -/
theorem tryTransaction (h : Pends ctx base p) (ctx' : Context)
    (hmode : ∀ s s', applyTransaction ctx' s trx = .ok s' → applyTransaction ctx s trx = .ok s') :
    Pends ctx base (p.tryTransaction ctx' trx).1 ∧
      match applyTransaction ctx' p.node.state trx with
      | .error e => (p.tryTransaction ctx' trx).2 = .error e ∧
          (p.tryTransaction ctx' trx).1.pendingTx = p.pendingTx ∧
          (p.tryTransaction ctx' trx).1.node.state = p.node.state
      | .ok s => (p.tryTransaction ctx' trx).2 = .ok () ∧
          (p.tryTransaction ctx' trx).1.pendingTx = p.pendingTx ++ [trx] ∧
          (p.tryTransaction ctx' trx).1.node.state = s := by
  have hopen : p.openPending.node.sessions ≠ [] := by
    rw [h.openPending_eq]
    exact List.cons_ne_nil _ _
  rw [tryTransaction_eq ctx' hopen, h.openPending_eq]
  have happlied := h.applied
  dsimp only
  cases happly : applyTransaction ctx' p.node.state trx with
  | error e => exact ⟨.pending happlied, rfl, rfl, rfl⟩
  | ok s =>
    refine ⟨.pending ?_, rfl, rfl, rfl⟩
    rw [List.foldlM_append, happlied]
    simp only [ok_bind, List.foldlM_cons, hmode _ _ happly]
    rfl

/-- The restorer keeps what can be applied, in order. -/
theorem restoreTransactions (h : Pends ctx base p) (trxs : List Transaction) :
    Pends ctx base (p.restoreTransactions ctx trxs) ∧
      (p.restoreTransactions ctx trxs).pendingTx =
        p.pendingTx ++ (keep ctx p.node.state trxs).1 ∧
      (p.restoreTransactions ctx trxs).node.state = (keep ctx p.node.state trxs).2 := by
  induction trxs generalizing p with
  | nil =>
    refine ⟨h, ?_, rfl⟩
    exact (List.append_nil _).symm
  | cons trx trxs ih =>
    have hstep : p.restoreTransactions ctx (trx :: trxs) =
        (if p.node.state.isKnownTransaction (ctx.env.trxId trx) then p
          else (p.tryTransaction ctx trx).1).restoreTransactions ctx trxs := rfl
    rw [hstep, keep]
    split
    · exact ih h
    · obtain ⟨hnext, hresult⟩ := h.tryTransaction ctx fun _ _ happly ↦ happly
      obtain ⟨hrest, hpending, hstate⟩ := ih hnext
      cases happly : applyTransaction ctx p.node.state trx with
      | error e =>
        rw [happly] at hresult
        rw [hresult.2.1, hresult.2.2] at hpending
        rw [hresult.2.2] at hstate
        exact ⟨hrest, hpending, hstate⟩
      | ok s =>
        rw [happly] at hresult
        rw [hresult.2.1, hresult.2.2, List.append_assoc] at hpending
        rw [hresult.2.2] at hstate
        exact ⟨hrest, hpending, hstate⟩

end Pends

/-- Two lists are kept one after the other. -/
theorem keep_append (ctx : Context) (s : Database) (trxs rest : List Transaction) :
    keep ctx s (trxs ++ rest) =
      ((keep ctx s trxs).1 ++ (keep ctx (keep ctx s trxs).2 rest).1,
        (keep ctx (keep ctx s trxs).2 rest).2) := by
  induction trxs generalizing s with
  | nil => rfl
  | cons trx trxs ih =>
    rw [List.cons_append, keep, keep]
    split
    · exact ih s
    · cases applyTransaction ctx s trx with
      | error e => exact ih s
      | ok s' =>
        dsimp only
        rw [ih s']
        rfl

/-! ## Producing -/

/-- What is checked for one's own transactions only does not change what a transaction does. -/
theorem Database.evaluate_of_producing {fee : Asset} {op : Operation}
    (h : s.evaluate { ctx with producing := true } fee op = .ok s') :
    s.evaluate ctx fee op = .ok s' := by
  cases op with
  | witnessUpdate owner url blockSigningKey props =>
    simp only [Database.evaluate, Database.witnessUpdateEvaluator] at h ⊢
    split at h
    · rename_i hprivate
      rw [if_pos hprivate]
      exact h
    · rename_i hpublic
      simp only [bind_eq_ok, fcAssert_eq_ok] at h
      obtain ⟨a, ha, _, hvesting, _, hsize, h⟩ := h
      rw [if_neg hpublic]
      simp only [bind_eq_ok, fcAssert_eq_ok]
      exact ⟨a, ha, (), hvesting, (), fun _ ↦ hsize trivial, h⟩
  | _ => exact h

theorem applyTransaction_of_producing
    (h : applyTransaction { ctx with producing := true } s trx = .ok s') :
    applyTransaction ctx s trx = .ok s' := by
  have hstage : ∀ stage ∈ transactionStages trx, ∀ s s',
      Stage.run { ctx with producing := true } s stage = .ok s' →
        Stage.run ctx s stage = .ok s' := by
    intro stage hstage s s' hrun
    simp only [transactionStages, List.mem_append, List.mem_cons, List.mem_map,
      List.not_mem_nil, or_false] at hstage
    rcases hstage with (rfl | ⟨op, _, rfl⟩) | rfl
    · exact hrun
    · simp only [Stage.run, Database.applyOperation, bind_eq_ok] at hrun ⊢
      obtain ⟨paid, hpaid, hrun⟩ := hrun
      exact ⟨paid, hpaid, Database.evaluate_of_producing hrun⟩
    · exact hrun
  rw [applyTransaction, runStages] at h ⊢
  generalize transactionStages trx = stages at h hstage
  induction stages generalizing s with
  | nil => exact h
  | cons stage stages ih =>
    simp only [List.foldlM_cons, bind_eq_ok] at h ⊢
    obtain ⟨mid, hmid, hrest⟩ := h
    exact ⟨mid, hstage stage List.mem_cons_self s mid hmid,
      ih hrest fun other hother ↦ hstage other (List.mem_cons_of_mem _ hother)⟩

/-! ## Calls -/

variable {ctx : PendingContext} {base node : Node ctx.env} {p : PendingNode ctx.env}

theorem Pends.headNode_eq {ctx : Context} (h : Pends ctx base p) : p.headNode = base := by
  rw [headNode, h.clearPending_eq]

/-- After a block, the transactions that were popped come before those that were pending. -/
theorem Pends.pushBlock (h : Pends ctx.toContext base p) (b : SignedBlock) :
    Pends ctx.toContext ((base.pushBlock ctx.toNodeContext b).1.withPopped [])
        (p.pushBlock ctx b).1 ∧
      (p.pushBlock ctx b).1.pendingTx = (keep ctx.toContext
        (base.pushBlock ctx.toNodeContext b).1.state
          ((base.pushBlock ctx.toNodeContext b).1.poppedTx ++ p.pendingTx)).1 := by
  rw [PendingNode.pushBlock, h.clearPending_eq]
  generalize base.pushBlock ctx.toNodeContext b = pushed
  obtain ⟨node, result⟩ := pushed
  dsimp only
  have hidle : Pends ctx.toContext node ⟨node, false, []⟩ := .idle
  obtain ⟨hfirst, hpending, hstate⟩ := hidle.restoreTransactions node.poppedTx
  obtain ⟨hsecond, hpending', _⟩ := hfirst.clearPopped.restoreTransactions p.pendingTx
  refine ⟨hsecond, ?_⟩
  have hstate' : ((PendingNode.restoreTransactions ctx.toContext ⟨node, false, []⟩
      node.poppedTx).clearPopped).node.state = (keep ctx.toContext node.state node.poppedTx).2 :=
    hstate
  have hpendings : ((PendingNode.restoreTransactions ctx.toContext ⟨node, false, []⟩
      node.poppedTx).clearPopped).pendingTx =
        [] ++ (keep ctx.toContext node.state node.poppedTx).1 := hpending
  rw [hpending', keep_append, hstate', hpendings]
  rfl

theorem Pends.pushTransaction (h : Pends ctx.toContext base p) (trx : Transaction) :
    Pends ctx.toContext base (p.pushTransaction ctx trx).1 ∧
      ∀ e, (p.pushTransaction ctx trx).2 = .error e →
        (p.pushTransaction ctx trx).1.node.state = p.node.state ∧
          (p.pushTransaction ctx trx).1.pendingTx = p.pendingTx := by
  rw [PendingNode.pushTransaction]
  split
  · obtain ⟨hnext, hresult⟩ := h.tryTransaction ctx.toProducing
      fun _ _ ↦ applyTransaction_of_producing
    refine ⟨hnext, fun e he ↦ ?_⟩
    cases happly : applyTransaction ctx.toProducing p.node.state trx with
    | error e' =>
      rw [happly] at hresult
      exact ⟨hresult.2.2, hresult.2.1⟩
    | ok s =>
      rw [happly] at hresult
      rw [hresult.1] at he
      cases he
  · exact ⟨h, fun _ _ ↦ ⟨rfl, rfl⟩⟩

theorem Reaches.foldl {start : PendingNode ctx.env} (h : Reaches ctx start p) (cs : List Call) :
    Reaches ctx start (cs.foldl (PendingNode.call ctx) p) := by
  induction cs generalizing p with
  | nil => exact h
  | cons c cs ih => exact ih (h.call c)

theorem Reaches.pends (h : Reaches ctx (idle node) p) : Pends ctx.toContext p.headNode p := by
  have hpends : ∃ base, Pends ctx.toContext base p := by
    induction h with
    | refl => exact ⟨node, .idle⟩
    | call _ c ih =>
      obtain ⟨base, hbase⟩ := ih
      cases c with
      | pushBlock b => exact ⟨_, (hbase.pushBlock b).1⟩
      | pushTransaction trx => exact ⟨base, (hbase.pushTransaction trx).1⟩
  obtain ⟨base, hbase⟩ := hpends
  exact hbase.headNode_eq.symm ▸ hbase

/-- Between two calls no transaction is left to be tried again. -/
theorem Reaches.poppedTx (hnone : node.poppedTx = []) (h : Reaches ctx (idle node) p) :
    p.headNode.poppedTx = [] := by
  induction h with
  | refl => exact hnone
  | call h c ih =>
    cases c with
    | pushBlock b => exact congrArg Node.poppedTx (h.pends.pushBlock b).1.headNode_eq
    | pushTransaction trx =>
      exact (congrArg Node.poppedTx (h.pends.pushTransaction trx).1.headNode_eq).trans ih

/-- The pending transactions of a node are applied to the state of its head block. A block leaves
those that can still be applied on top of it, after those of the blocks it has popped. -/
theorem pending_set_kept (hnone : node.poppedTx = []) (h : Reaches ctx (idle node) p) :
    p.pendingTx.foldlM (applyTransaction ctx.toContext) p.headNode.state = .ok p.node.state ∧
      (∀ b, (p.pushBlock ctx b).1.headNode =
          (p.headNode.pushBlock ctx.toNodeContext b).1.withPopped [] ∧
        (p.headNode.pushBlock ctx.toNodeContext b).1.poppedTx =
          (p.headNode.poppedByPush ctx.toNodeContext b).reverse.flatMap SignedBlock.transactions ∧
        (p.pushBlock ctx b).1.pendingTx = (keep ctx.toContext (p.pushBlock ctx b).1.headNode.state
          ((p.headNode.poppedByPush ctx.toNodeContext b).reverse.flatMap
            SignedBlock.transactions ++ p.pendingTx)).1) ∧
      ∀ trx e, (p.pushTransaction ctx trx).2 = .error e →
        (p.pushTransaction ctx trx).1.node.state = p.node.state ∧
          (p.pushTransaction ctx trx).1.pendingTx = p.pendingTx := by
  have hpends := h.pends
  have hpopped := h.poppedTx hnone
  refine ⟨hpends.applied, fun b ↦ ?_, fun trx e he ↦ (hpends.pushTransaction trx).2 e he⟩
  obtain ⟨hnext, hpending⟩ := hpends.pushBlock b
  have hhead := hnext.headNode_eq
  have hsaved := Node.poppedTx_pushBlock ctx.toNodeContext p.headNode b
  rw [Node.savePopped_eq, hpopped, List.append_nil] at hsaved
  refine ⟨hhead, hsaved, ?_⟩
  rw [hhead, ← hsaved]
  exact hpending

/-! ## A transfer -/

/-- A development network of one node, whose transactions are all as long as each other. -/
def linkedPool : PendingContext := { Node.linkedNodes with trxSize := fun _ ↦ 100 }

def smallTransfer : Transaction :=
  devTransaction 1531512900 8 (.transfer 1000 initMinerName ⟨1, sophiatxSymbol⟩ [])

def largerTransfer : Transaction :=
  devTransaction 1531512903 8 (.transfer 1000 initMinerName ⟨2, sophiatxSymbol⟩ [])

/-- A second block with a transfer, and two blocks on the first one that are switched to. -/
def transferBlock : SignedBlock :=
  devBlock (linkedPool.env.blockId Node.firstBlock) 1531512806 [smallTransfer]

def emptyBlock : SignedBlock :=
  devBlock (linkedPool.env.blockId Node.firstBlock) 1531512809 []

def switchingBlock : SignedBlock := devBlock (linkedPool.env.blockId emptyBlock) 1531512812 []

/-- A transfer of a popped block comes before the one that was pending. -/
theorem pending_set_kept_over_switch :
    ∃ s₀, ∃ p : PendingNode linkedPool.env, initGenesis linkedPool.genesis = .ok s₀ ∧
      p.pendingTx = [largerTransfer] ∧
      p.headNode.poppedByPush linkedPool.toNodeContext switchingBlock = [transferBlock] ∧
      p.pendingTx.foldlM (applyTransaction linkedPool.toContext) p.headNode.state =
        .ok p.node.state ∧
      (p.pushBlock linkedPool switchingBlock).1.pendingTx = [smallTransfer, largerTransfer] ∧
      (p.pushBlock linkedPool switchingBlock).1.pendingTx = (keep linkedPool.toContext
        (p.pushBlock linkedPool switchingBlock).1.headNode.state
          ([transferBlock].reverse.flatMap SignedBlock.transactions ++ [largerTransfer])).1 := by
  have hok : okAnd (initGenesis linkedPool.genesis) (fun s₀ ↦
      let start : PendingNode linkedPool.env := idle (Node.opened s₀)
      let p := [Call.pushBlock Node.firstBlock, .pushBlock transferBlock, .pushBlock emptyBlock,
        .pushTransaction largerTransfer].foldl (call linkedPool) start
      decide (p.pendingTx = [largerTransfer] ∧
        p.headNode.poppedByPush linkedPool.toNodeContext switchingBlock = [transferBlock] ∧
        (p.pushBlock linkedPool switchingBlock).1.pendingTx = [smallTransfer, largerTransfer])) =
          true := by decide +kernel
  obtain ⟨s₀, hgenesis, hs₀⟩ := exists_of_okAnd hok
  obtain ⟨hpending, hpopped, hkept⟩ := of_decide_eq_true hs₀
  have hstart : Reaches linkedPool (idle (Node.opened s₀)) (idle (Node.opened s₀)) := .refl
  obtain ⟨happlied, hblocks, _⟩ := pending_set_kept rfl (hstart.foldl
    [.pushBlock Node.firstBlock, .pushBlock transferBlock, .pushBlock emptyBlock,
      .pushTransaction largerTransfer])
  obtain ⟨_, _, hpushed⟩ := hblocks switchingBlock
  rw [hpopped, hpending] at hpushed
  exact ⟨s₀, _, hgenesis, hpending, hpopped, happlied, hkept, hpushed⟩

end PendingNode

end SophiaTX.Chain
