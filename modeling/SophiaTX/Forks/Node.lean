import SophiaTX.Chain.ApplyBlock
import SophiaTX.Forks.ForkDatabase

/-!
# A node

A node keeps its main chain in three places: the consensus state with its undo sessions, the fork
database and the block log. Pushing a block changes them one after the other, and a step that
throws leaves them as they are at that moment.
-/

namespace SophiaTX.Chain

open SophiaTX.Protocol SophiaTX.Lib

structure Node (env : Env) where
  state : Database
  /-- The states that `undo` goes back to, the newest first. -/
  sessions : List Database
  revision : ℕ
  forkDb : ForkDatabase env
  /-- The blocks in the files of the block log. -/
  blockLog : List SignedBlock
  /-- Transactions of popped blocks that are to be tried again. -/
  poppedTx : List Transaction := []

/-- What a node applies blocks with, and what a stage that throws leaves of the state. The flags are
those of a whole run: the network plugin passes the same ones with every block. -/
structure NodeContext extends Context where
  leftBy : Database → Stage → Database

/-- A call on a node leaves a node, whether it returns or throws. -/
abbrev Outcome (env : Env) (α : Type) := Node env × Exec α

namespace Node

variable {env : Env}

def headBlockNum (node : Node env) : ℕ := node.state.dgp.headBlockNumber

def headBlockId (node : Node env) : BlockId := node.state.dgp.headBlockId

def lastNonUndoableBlockNum (node : Node env) : ℕ := node.state.dgp.lastIrreversibleBlockNum

/-! ## Looking up blocks -/

/-- `block_log::read_block_by_num`. -/
def readBlockByNum (node : Node env) (blockNum : ℕ) : Option SignedBlock :=
  if blockNum = 0 then none else node.blockLog[blockNum - 1]?

def findBlockIdForNum (node : Node env) (blockNum : ℕ) : BlockId :=
  if blockNum = 0 then BlockId.null
  else if (node.state.blockSummaries (blockNum % 65536)).num = blockNum then
    node.state.blockSummaries (blockNum % 65536)
  else match node.readBlockByNum blockNum with
    | some b => env.blockId b
    | none => match node.forkDb.fetchBlockOnMainBranchByNumber blockNum with
      | some item => item.id env
      | none => BlockId.null

def getBlockIdForNum (node : Node env) (blockNum : ℕ) : Exec BlockId := do
  let bid := node.findBlockIdForNum blockNum
  fcAssert (bid ≠ BlockId.null) "bid != block_id_type()"
  pure bid

def fetchBlockById (node : Node env) (id : BlockId) : Option SignedBlock :=
  match node.forkDb.fetchBlock id with
  | some item => some item.data
  | none => (node.readBlockByNum id.num).filter fun b ↦ decide (env.blockId b = id)

def isKnownBlock (node : Node env) (id : BlockId) : Bool := (node.fetchBlockById id).isSome

def headBlock (node : Node env) : Option SignedBlock := node.fetchBlockById node.headBlockId

def fetchBlockByNumber (node : Node env) (blockNum : ℕ) : Option SignedBlock :=
  match node.forkDb.fetchBlockByNumber blockNum with
  | [item] => some item.data
  | _ => node.readBlockByNum blockNum

/-- `get_block_ids_on_fork`: the blocks of the fork from its head down, and the block that it has
in common with the main chain. -/
def getBlockIdsOnFork (node : Node env) (headOfFork : BlockId) : Exec (List BlockId) := do
  let branches ← node.forkDb.fetchBranchFrom node.headBlockId headOfFork
  match branches.1.getLast? with
  | none => .error .undefinedBehaviour
  | some last => pure (branches.2.map (ForkItem.id env) ++ [last.previousId])

/-! ## Sessions -/

def startUndoSession (node : Node env) : Node env :=
  { node with sessions := node.state :: node.sessions, revision := node.revision + 1 }

/-- `undo`, which does nothing when there is no session. -/
def undo (node : Node env) : Node env :=
  match node.sessions with
  | [] => node
  | state :: sessions =>
    { node with state := state, sessions := sessions, revision := node.revision - 1 }

/-- `commit`, which drops the sessions up to a revision. -/
def commit (node : Node env) (revision : ℕ) : Node env :=
  { node with sessions := node.sessions.take (node.revision - revision) }

/-! ## Applying a block -/

/-- `block_log::append`. -/
def appendToLog (blockLog : List SignedBlock) (b : SignedBlock) : Exec (List SignedBlock) := do
  fcAssert (blockLog.length = b.blockNum - 1)
    "Append to index file occuring at wrong position."
  pure (blockLog ++ [b])

/-- The loop of `update_last_irreversible_block` that appends `count` blocks to the block log. -/
def appendBlocks (node : Node env) : ℕ → ℕ → Outcome env Unit
  | _, 0 => (node, .ok ())
  | logHeadNum, count + 1 =>
    match node.forkDb.fetchBlockOnMainBranchByNumber (logHeadNum + 1) with
    | none => (node, .error (.assertion
        "Current fork in the fork database does not contain the last_irreversible_block"))
    | some item =>
      match appendToLog node.blockLog item.data with
      | .error e => (node, .error e)
      | .ok blockLog => appendBlocks { node with blockLog := blockLog } (logHeadNum + 1) count

/-- The number of the last block in the log. -/
def logHeadNum (node : Node env) : ℕ :=
  (node.blockLog.getLast?.map SignedBlock.blockNum).getD 0

/-- The part of `update_last_irreversible_block` beside the consensus state. -/
def commitIrreversible (node : Node env) : Outcome env Unit :=
  match (node.commit node.lastNonUndoableBlockNum).appendBlocks node.logHeadNum
    (node.lastNonUndoableBlockNum - node.logHeadNum) with
  | (node, .error e) => (node, .error e)
  | (node, .ok ()) =>
    let maxSize := node.headBlockNum - node.lastNonUndoableBlockNum + 1
    ({ node with forkDb := node.forkDb.setMaxSize maxSize }, .ok ())

/-- Runs stages one after the other on the state of a node. -/
def runStages (ctx : NodeContext) : List Stage → Node env → Outcome env Unit
  | [], node => (node, .ok ())
  | stage :: stages, node =>
    match stage.run ctx.toContext node.state with
    | .error e => ({ node with state := ctx.leftBy node.state stage }, .error e)
    | .ok state => runStages ctx stages { node with state := state }

/-- `apply_block`. -/
def applyBlock (ctx : NodeContext) (node : Node env) (b : SignedBlock) : Outcome env Unit :=
  match runStages ctx (SignedBlock.stagesBeforeCommit b) node with
  | (node, .error e) => (node, .error e)
  | (node, .ok ()) =>
    match node.commitIrreversible with
    | (node, .error e) => (node, .error e)
    | (node, .ok ()) =>
      match runStages ctx (SignedBlock.stagesAfterCommit b) node with
      | (node, .error e) => (node, .error e)
      | (node, .ok ()) => (node, node.state.checkInvariants ctx.toContext)

/-- Applies a block in a session of its own, which is undone when the block throws. -/
def applyInSession (ctx : NodeContext) (node : Node env) (b : SignedBlock) : Outcome env Unit :=
  match node.startUndoSession.applyBlock ctx b with
  | (node, .error e) => (node.undo, .error e)
  | (node, .ok ()) => (node, .ok ())

/-! ## Popping a block -/

def withPopped (node : Node env) (poppedTx : List Transaction) : Node env :=
  { node with poppedTx := poppedTx }

/-- `pop_block`, which saves the transactions of the block. -/
def popBlock (node : Node env) : Exec (Node env) :=
  match node.headBlock with
  | none => .error (.assertion "there are no blocks to pop")
  | some headBlock => do
    let forkDb ← node.forkDb.popBlock
    let popped : Node env := { node with forkDb := forkDb }
    pure (popped.undo.withPopped (headBlock.transactions ++ node.poppedTx))

/-- Pops blocks until `target` is the head. The head of the fork database, here `head`, goes to its
parent each time, so an item without one ends the loop. -/
def popUntil (target : BlockId) (head : ForkItem) (node : Node env) : Outcome env Unit :=
  if node.headBlockId = target then (node, .ok ())
  else match node.popBlock with
    | .error e => (node, .error e)
    | .ok node => match head with
      | .unlinked _ _ => (node, .ok ())
      | .linked _ _ prev => popUntil target prev node

/-! ## Pushing a block -/

/-- The running call holds these items and no others. -/
def hold (node : Node env) (items : List ForkItem) : Node env :=
  { node with forkDb := { node.forkDb with held := items } }

/-- Applies blocks in order, each in a session, until one throws; with the items that are left
then, from the one that threw on. -/
def applyBranch (ctx : NodeContext) :
    List ForkItem → Node env → Node env × Option (List ForkItem × ChainError)
  | [], node => (node, none)
  | item :: items, node =>
    match node.applyInSession ctx item.data with
    | (node, .error e) => (node, some (item :: items, e))
    | (node, .ok ()) => applyBranch ctx items node

/-- What follows when a block of the new branch throws: it and the blocks after it are removed,
and the blocks of the old branch, here from its head down, are applied again. -/
def restoreBranch (ctx : NodeContext) (node : Node env) (target : BlockId)
    (invalid old : List ForkItem) (e : ChainError) : Outcome env Bool :=
  let forkDb := invalid.foldl (fun db item ↦ db.remove (item.id env)) node.forkDb
  match old with
  | [] => (node, .error .undefinedBehaviour)
  | front :: _ =>
    match popUntil target front { node with forkDb := forkDb.setHead front } with
    | (node, .error e) => (node, .error e)
    | (node, .ok ()) =>
      match node.applyBranch ctx old.reverse with
      | (node, some (_, e)) => (node, .error e)
      | (node, none) => (node, .error e)

/-- The fork switch of `_push_block`. -/
def switchForks (ctx : NodeContext) (node : Node env) (newHead : ForkItem) : Outcome env Bool :=
  match node.forkDb.fetchBranchFrom (newHead.id env) node.headBlockId with
  | .error e => (node, .error e)
  | .ok (new, old) =>
    match old.getLast? with
    | none => (node, .error .undefinedBehaviour)
    | some last =>
      let target := last.previousId
      match popUntil target newHead (node.hold (newHead :: new ++ old)) with
      | (node, .error e) => (node, .error e)
      | (node, .ok ()) =>
        match node.applyBranch ctx new.reverse with
        | (node, some (invalid, e)) => node.restoreBranch ctx target invalid old e
        | (node, none) => (node, .ok true)

/-- Applies a block that was pushed to the head; it is removed again when it throws. -/
def applyPushed (ctx : NodeContext) (node : Node env) (b : SignedBlock) : Outcome env Bool :=
  match node.applyInSession ctx b with
  | (node, .error e) => ({ node with forkDb := node.forkDb.remove (env.blockId b) }, .error e)
  | (node, .ok ()) => (node, .ok false)

/-- `_push_block`, with its result: whether the node switched to another fork. -/
def pushBlock (ctx : NodeContext) (node : Node env) (b : SignedBlock) : Outcome env Bool :=
  match node.forkDb.pushBlock b with
  | .error e => (node, .error e)
  | .ok forkDb =>
    let node : Node env := { node with forkDb := forkDb }
    match forkDb.head with
    | none => (node, .error .undefinedBehaviour)
    | some newHead =>
      if newHead.previousId ≠ node.headBlockId then
        if node.headBlockNum < newHead.num then
          let (node, result) := node.switchForks ctx newHead
          (node.hold [], result)
        else (node, .ok false)
      else node.applyPushed ctx b

/-- A node that has just been opened on a state at genesis. -/
def opened (s : Database) : Node env where
  state := s
  sessions := []
  revision := 0
  forkDb := ForkDatabase.empty
  blockLog := []

/-- Pushes blocks one after the other, whatever becomes of each of them. -/
def pushBlocks (ctx : NodeContext) (node : Node env) (blocks : List SignedBlock) : Node env :=
  blocks.foldl (fun node b ↦ (node.pushBlock ctx b).1) node

end Node

end SophiaTX.Chain
