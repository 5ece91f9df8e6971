import SophiaTX.Chain.WitnessSchedule
import SophiaTX.Protocol.SignState

/-!
# Steps of block application

The functions `_apply_block` calls one after another, around and after the transactions of a
block.
-/

namespace SophiaTX.Chain

open SophiaTX.Protocol SophiaTX.Lib

namespace Database

/-! ## Slots and the block header -/

/-- The start of slot `slotNum`, for `slotNum > 0`. -/
def slotTime (g : GenesisState) (s : Database) (slotNum : ℕ) : Time :=
  if s.dgp.headBlockNumber = 0 then timeAdd s.dgp.time (slotNum * g.blockInterval)
  else timeAdd (s.dgp.time / g.blockInterval * g.blockInterval) (slotNum * g.blockInterval)

/-- `get_slot_at_time`. -/
def slotAtTime (g : GenesisState) (s : Database) (time : Time) : ℕ :=
  let firstSlotTime := s.slotTime g 1
  if time < firstSlotTime then 0 else (time - firstSlotTime) / g.blockInterval + 1

def scheduledWitness (s : Database) (slotNum : ℕ) : Exec AccountName :=
  if s.wso.numScheduledWitnesses = 0 then .error .divideByZero
  else
    match s.wso.currentShuffledWitnesses[(s.dgp.currentAslot + slotNum) %
        s.wso.numScheduledWitnesses]? with
    | some name => .ok name
    | none => .error .undefinedBehaviour

def validateBlockHeader (ctx : Context) (s : Database) (b : SignedBlock) : Exec Unit := do
  fcAssert (s.dgp.headBlockId = b.previous) "head_block_id() == next_block.previous"
  fcAssert (s.dgp.time < b.timestamp) "head_block_time() < next_block.timestamp"
  let w ← s.getWitness b.witness
  fcAssert (ctx.skip.witnessSignature = false →
    ctx.env.signee (decide (s.hasHardfork 1)) b = w.signingKey) "validate_signee"
  if ctx.skip.witnessScheduleCheck = true then pure ()
  else do
    let slotNum := s.slotAtTime ctx.genesis b.timestamp
    fcAssert (0 < slotNum) "slot_num > 0"
    let scheduled ← s.scheduledWitness slotNum
    fcAssert (b.witness = scheduled) "Witness produced block at wrong time"

/-! ## Hardforks -/

/-- The first loop of `recalculate_all_votes`. -/
def clearVotes (s : Database) : Database :=
  { s with witnesses := s.witnesses.mapRows fun _ w ↦ { w with votes := 0 } }

def recalculateAllVotes (s : Database) : Exec Database :=
  (s.accounts.keys.insertionSort (· ≤ ·)).foldlM (fun s name ↦ do
    let a ← s.getAccount name
    let total ← safeAdd a.balance a.vestingShares
    s.adjustProxiedWitnessVotes name total) s.clearVotes

def applyHardfork (g : GenesisState) (s : Database) (hardfork : ℕ) : Exec Database := do
  let s ← (if hardfork = 1 then s.recalculateAllVotes else pure s)
  fcAssert (hardfork = s.hardforks.lastHardfork + 1) "Hardfork being applied out of order"
  fcAssert (s.hardforks.processedHardforks.length = hardfork) "Hardfork being applied out of order"
  pure { s with hardforks := { s.hardforks with
    processedHardforks := s.hardforks.processedHardforks ++ [hardforkTimes g hardfork]
    lastHardfork := hardfork
    currentHardforkVersion := hardforkVersions hardfork } }

/-- The loop of `process_hardforks`. The last hardfork moves on in every round, up to the number
of known ones, where a further round throws. -/
def processHardforksLoop (g : GenesisState) : ℕ → Database → Exec Database
  | 0, s => pure s
  | rounds + 1, s =>
    if hardforkVersions s.hardforks.lastHardfork < s.hardforks.nextHardfork ∧
        s.hardforks.nextHardforkTime ≤ s.dgp.time then
      if s.hardforks.lastHardfork < numHardforks then do
        let s ← s.applyHardfork g (s.hardforks.lastHardfork + 1)
        processHardforksLoop g rounds s
      else .error .unknownHardfork
    else pure s

def processHardforks (g : GenesisState) (s : Database) : Exec Database :=
  processHardforksLoop g (numHardforks + 1) s

/-- `set_hardfork` with `apply_now`. -/
def setHardfork (g : GenesisState) (s : Database) (hardfork : ℕ) : Exec Database :=
  ((List.range (numHardforks + 1)).filter fun i ↦
      decide (s.hardforks.lastHardfork < i ∧ i ≤ hardfork)).foldlM
    (fun s i ↦ { s with hardforks := { s.hardforks with
        nextHardfork := hardforkVersions i
        nextHardforkTime := s.dgp.time } }.applyHardfork g i) s

/-- Known hardforks whose time has come at a timestamp. -/
def genesisHardforks (g : GenesisState) (timestamp : Time) : ℕ :=
  ((List.range numHardforks).takeWhile fun n ↦
    decide (hardforkTimes g (n + 1) ≤ timestamp)).length

/-- The hardforks a chain starts with are applied by its first block. -/
def applyGenesisHardforks (g : GenesisState) (s : Database) (b : SignedBlock) : Exec Database :=
  let n := genesisHardforks g b.timestamp
  if b.blockNum = 1 ∧ 0 < n then do
    let s ← s.setHardfork g n
    fcAssert (s.hardforks.currentHardforkVersion = hardforkVersions n)
      "Unexpected genesis hardfork state"
    pure { s with witnesses := s.witnesses.mapRows fun _ w ↦ { w with
      runningVersion := hardforkVersions n
      hardforkVersionVote := hardforkVersions n
      hardforkTimeVote := hardforkTimes g n } }
  else pure s

/-! ## Opening a block and its transactions -/

/-- `process_header_visitor` for one extension. -/
def processHeaderExtension (witness : AccountName) (s : Database) :
    BlockHeaderExtension → Exec Database
  | .void => pure s
  | .version v => do
    let _ ← s.getWitness witness
    pure (s.modifyWitness witness fun w ↦ { w with runningVersion := v })
  | .hardforkVersionVote hfVersion hfTime => do
    let _ ← s.getWitness witness
    pure (s.modifyWitness witness fun w ↦
      { w with hardforkVersionVote := hardforkVersion hfVersion, hardforkTimeVote := hfTime })

/-- Blocks whose Merkle root is known to be wrong, with the root of their transactions. -/
def sharedDbMerkle : List (ℕ × ℕ) :=
  [(3705111, 0x0a8f0fd5450c3706ec8b8cbad795cd0b3679bf35),
   (3705120, 0x2027edb72b671f7011c8cc4c7a8b59c39b305093),
   (3713940, 0xbf8a1d516927c506ebdbb7b38bef2e992435435f),
   (3714132, 0xe8b77773d268b72c8d650337b8cce360bbe64779),
   (3714567, 0x45af59a8c2d7d4a606151ef5dae03d2dfe13fbdd),
   (3714588, 0xe64275443bdc82f104ac936486d367af8f6d1584),
   (4138790, 0xf65a3a788a2ef52406d8ba5705d7288be228403f),
   (5435426, 0x0b32538b2d22bd3146d54b6e3cb5ae8b9780e8a5)]

/-- `_apply_block` up to its transactions. -/
def openBlock (ctx : Context) (s : Database) (b : SignedBlock) : Exec Database := do
  let s ← s.applyGenesisHardforks ctx.genesis b
  let root := ctx.env.merkleRoot b.transactions
  fcAssert (ctx.skip.merkleCheck = false →
    b.transactionMerkleRoot = root ∨ (b.blockNum, root) ∈ sharedDbMerkle) "Merkle check failed"
  s.validateBlockHeader ctx b
  fcAssert (ctx.env.blockPackSize b ≤ s.dgp.maximumBlockSize) "Block Size is too Big"
  let s := { s with dgp := { s.dgp with currentWitness := b.witness } }
  let s ← b.extensions.foldlM (processHeaderExtension b.witness) s
  let w ← s.getWitness b.witness
  fcAssert (s.hardforks.currentHardforkVersion ≤ w.runningVersion)
    "Block produced by witness that is not running current hardfork"
  pure s

/-- The signatures of a transaction against the authorities in force. -/
def checkTransactionAuthority (ctx : Context) (s : Database) (trx : Transaction) : Exec Unit :=
  let verified : Exec Unit := do
    let keys ← ctx.env.signatureKeys (decide (s.hasHardfork 1)) trx
    verifyAuthority trx.operations keys
      (fun name ↦ do pure (← s.getAuthority name).active)
      (fun name ↦ do pure (← s.getAuthority name).owner)
  if ctx.skip.transactionSignatures = true ∨ ctx.skip.authorityCheck = true then pure ()
  else match verified with
  | .error (.missingActiveAuth name) =>
    if s.dgp.headBlockNumber + 1 ∈ sharedDbMerkle.map Prod.fst then .ok ()
    else .error (.missingActiveAuth name)
  | result => result

/-- Word of a block id that a transaction refers to. -/
def refBlockPrefix (id : BlockId) : ℕ := id.hash % 4294967296

/-- Reference block and expiration of a transaction; block 1 has nothing to compare with. -/
def checkTransactionTime (ctx : Context) (s : Database) (trx : Transaction) : Exec Unit :=
  if s.dgp.headBlockNumber = 0 then pure ()
  else do
    throwIf (ctx.skip.taposCheck = false ∧ trx.refBlockPrefix ≠
      refBlockPrefix (s.blockSummaries (trx.refBlockNum % 65536))) .tapos
    throwIf (timeAdd s.dgp.time maxTimeUntilExpiration < trx.expiration) .expiration
    throwIf (trx.expiration ≤ s.dgp.time) .expiration

/-- `_apply_transaction` up to its operations. -/
def openTransaction (ctx : Context) (s : Database) (trx : Transaction) : Exec Database := do
  (if ctx.skip.validate = true then pure () else trx.validate ctx.env ctx.genesis)
  let trxId := ctx.env.trxId trx
  fcAssert (ctx.skip.transactionDupeCheck = true ∨ (s.transactions.find? trxId).isNone = true)
    "Duplicate transaction check failed"
  s.checkTransactionAuthority ctx trx
  s.checkTransactionTime ctx trx
  if ctx.skip.transactionDupeCheck = false then do
    let transactions ← createRow s.transactions trxId trx.expiration
    pure { s with transactions := transactions }
  else pure s

/-- The bandwidth object of an account after more fee-free operations. -/
def nextBandwidth (g : GenesisState) (headBlockNumber bandwidth opsCount : ℕ) :
    Option AccountBandwidth → AccountBandwidth
  | none => ⟨bandwidth, opsCount, headBlockNumber⟩
  | some abo =>
    if g.limitBandwidthBlocks < uint32Sub headBlockNumber abo.lastBlockNumReset then
      ⟨bandwidth, opsCount, headBlockNumber⟩
    else
      ⟨abo.actFeeFreeBandwidth + bandwidth, abo.actFeeFreeOpsCount + opsCount,
        abo.lastBlockNumReset⟩

/-- `update_accounts_bandwidth` for one account. -/
def updateAccountBandwidth (g : GenesisState) (bandwidth opsCount : ℕ) (s : Database)
    (account : AccountName) : Exec Database := do
  let row := nextBandwidth g s.dgp.headBlockNumber bandwidth opsCount (s.bandwidths.find? account)
  let bandwidths ← (if (s.bandwidths.find? account).isNone then createRow s.bandwidths account row
    else pure (s.bandwidths.modify account fun _ ↦ row))
  throwIf (g.maxAllowedBandwidth < row.actFeeFreeBandwidth) .exceededBandwidth
  throwIf (g.maxAllowedOps < row.actFeeFreeOpsCount) .exceededBandwidth
  pure { s with bandwidths := bandwidths }

/-- The end of `process_operations`: accounting of the operations that paid no fee. -/
def closeTransaction (ctx : Context) (s : Database) (trx : Transaction) : Exec Database :=
  let feeFree := trx.operations.filter fun op ↦ decide (op.fee.amount = 0)
  if s.hasHardfork 2 ∧ feeFree ≠ [] then
    let required := flatSet (trx.operations.flatMap fun op ↦
      op.op.requiredActiveAuthorities ++ op.op.requiredOwnerAuthorities)
    required.foldlM (updateAccountBandwidth ctx.genesis
      (feeFree.map ctx.env.operationPackSize).sum feeFree.length) s
  else pure s

/-! ## After the transactions -/

/-- The witness scheduled for a missed slot; it loses its key after a day without a block. -/
def missSlot (g : GenesisState) (producer : AccountName) (s : Database) (slot : ℕ) :
    Exec Database := do
  let name ← s.scheduledWitness slot
  let _ ← s.getWitness name
  if name ≠ producer then
    pure (s.modifyWitness name fun w ↦ { w with
      totalMissed := w.totalMissed + 1
      signingKey := if w.lastConfirmedBlockNum + g.blocksPerDay < s.dgp.headBlockNumber then nullKey
        else w.signingKey })
  else pure s

/-- One round of the participation window: a bit falls out, the first round puts a one in. -/
def shiftSlots (dgp : DynamicGlobalProperties) (round : ℕ) : DynamicGlobalProperties :=
  let dropped := dgp.recentSlotsFilled / 2 ^ 127 % 2
  let filled := if round = 0 then 1 else 0
  { dgp with
    participationCount := (dgp.participationCount + 256 - dropped + filled) % 256
    recentSlotsFilled := (dgp.recentSlotsFilled * 2 + filled) % uint128Size }

/-- Vesting shares a witness must hold at a block of a public net. -/
def witnessRequiredVestingAt (g : GenesisState) (s : Database) (blockNum : ℕ) : ShareType :=
  let days := if s.hasHardfork 1 then g.witnessVestingIncreaseDays else witnessVestingIncreaseDays
  if uint32 (days * g.blocksPerDay) ≤ blockNum then g.finalWitnessReqVestingBalance
  else g.initialWitnessReqVestingBalance

def updateGlobalDynamicData (ctx : Context) (s : Database) (b : SignedBlock) : Exec Database := do
  let g := ctx.genesis
  let slot := s.slotAtTime g b.timestamp
  throwIf (s.dgp.time ≠ 0 ∧ slot = 0) .undefinedBehaviour
  let missedBlocks := if s.dgp.time ≠ 0 then slot - 1 else 0
  let s ← ((List.range missedBlocks).map (· + 1)).foldlM (missSlot g b.witness) s
  let dgp := (List.range (missedBlocks + 1)).foldl shiftSlots s.dgp
  let s := { s with dgp := { dgp with
    headBlockNumber := b.blockNum
    headBlockId := ctx.env.blockId b
    time := b.timestamp
    currentAslot := dgp.currentAslot + missedBlocks + 1
    witnessRequiredVesting := if dgp.privateNet then dgp.witnessRequiredVesting
      else s.witnessRequiredVestingAt g b.blockNum } }
  throwIf (ctx.skip.undoHistoryCheck = false ∧
    maxUndoHistory ≤ s.dgp.headBlockNumber - s.dgp.lastIrreversibleBlockNum) .undoDatabase
  pure s

def updateSigningWitness (g : GenesisState) (s : Database) (b : SignedBlock) : Exec Database := do
  let _ ← s.getWitness b.witness
  let newBlockAslot := s.dgp.currentAslot + s.slotAtTime g b.timestamp
  pure (s.modifyWitness b.witness fun w ↦ { w with
    lastAslot := newBlockAslot
    lastConfirmedBlockNum := b.blockNum })

/-- Position of the witness that decides irreversibility among `count` scheduled ones. -/
def irreversibilityOffset (count : ℕ) : ℕ :=
  (hundredPercent - irreversibleThreshold) * count / hundredPercent

/-- The new last irreversible block number. Before witness voting starts it stays a full
schedule behind the head; afterwards it is an order statistic of the blocks the scheduled
witnesses last confirmed. -/
def newLastIrreversibleBlockNum (g : GenesisState) (s : Database) : Exec ℕ :=
  if s.dgp.headBlockNumber < g.startMinerVotingBlock then
    pure (if g.maxWitnesses < s.dgp.headBlockNumber then s.dgp.headBlockNumber - g.maxWitnesses
      else s.dgp.lastIrreversibleBlockNum)
  else do
    let confirmed := (← s.scheduledWitnesses).map fun entry ↦ entry.2.lastConfirmedBlockNum
    match (confirmed.insertionSort (· ≤ ·))[irreversibilityOffset confirmed.length]? with
    | some num => pure (max num s.dgp.lastIrreversibleBlockNum)
    | none => .error .undefinedBehaviour

/-- `update_last_irreversible_block` on the consensus state. -/
def updateLastIrreversibleBlock (g : GenesisState) (s : Database) : Exec Database := do
  let num ← s.newLastIrreversibleBlockNum g
  pure { s with dgp := { s.dgp with lastIrreversibleBlockNum := num } }

def createBlockSummary (env : Env) (s : Database) (b : SignedBlock) : Database :=
  { s with blockSummaries :=
      Function.update s.blockSummaries (b.blockNum % 65536) (env.blockId b) }

def clearExpiredTransactions (s : Database) : Database :=
  { s with transactions := s.transactions.filterRows fun _ expiration ↦
      decide (s.dgp.time ≤ expiration) }

end Database

end SophiaTX.Chain
