import SophiaTX.Forks.PendingNode

/-!
# Generating blocks

`_generate_block` checks whose turn it is, takes those of the pending transactions that can be
applied on top of the head one after another, signs the block and pushes it. What it checks of the
witness at first, it checks with the pending transactions in force.
-/

namespace SophiaTX.Chain

open SophiaTX.Protocol SophiaTX.Lib

/-- What a node generates blocks with. The names of private keys are numbers. -/
structure ProducingContext extends PendingContext where
  publicKey : ℕ → PublicKey
  /-- The signature of a header, under the canonical-signature rule. -/
  sign : Bool → ℕ → SignedBlockHeader → ℕ
  /-- The size of `signed_block_header()`. -/
  emptyHeaderSize : ℕ
  skipBlockSizeCheck : Bool

/-- The transactions taken so far, the state after them and the size of the block. -/
structure Packing where
  state : Database
  totalBlockSize : ℕ
  transactions : List Transaction

/-- One round of the loop over the pending transactions. A transaction that would make the block
too big is postponed, and one that throws is left out. -/
def Packing.round (ctx : ProducingContext) (maximumBlockSize : ℕ) (when : Time) (p : Packing)
    (trx : Transaction) : Packing :=
  if trx.expiration < when then p
  else if maximumBlockSize ≤ p.totalBlockSize + ctx.trxSize trx then p
  else match applyTransaction ctx.toContext p.state trx with
    | .error _ => p
    | .ok s => ⟨s, p.totalBlockSize + ctx.trxSize trx, p.transactions ++ [trx]⟩

/-- What a witness has to report in the header: the version of the node where it has reported
another one, and a vote that agrees with the hardforks that the node knows. -/
def versionExtensions (g : GenesisState) (w : Witness) (h : HardforkProperty) :
    List BlockHeaderExtension :=
  let voteFor (hardfork : ℕ) : BlockHeaderExtension :=
    .hardforkVersionVote (hardforkVersions hardfork) (hardforkTimes g hardfork)
  (if w.runningVersion ≠ blockchainVersion then [.version blockchainVersion] else []) ++
    if h.currentHardforkVersion < blockchainVersion ∧
        (w.hardforkVersionVote ≠ hardforkVersions (h.lastHardfork + 1) ∨
          w.hardforkTimeVote ≠ hardforkTimes g (h.lastHardfork + 1)) then
      [voteFor (h.lastHardfork + 1)]
    else if h.currentHardforkVersion = blockchainVersion ∧
        blockchainVersion < w.hardforkVersionVote then
      [voteFor h.lastHardfork]
    else []

namespace PendingNode

variable {ctx : ProducingContext}

/-- The first checks of `_generate_block`, with the pending transactions in force. -/
def checkTurn (p : PendingNode ctx.env) (when : Time) (witnessOwner : AccountName) (key : ℕ) :
    Exec Unit := do
  let s := p.node.state
  let slotNum := s.slotAtTime ctx.genesis when
  fcAssert (0 < slotNum) "slot_num > 0"
  let scheduled ← s.scheduledWitness slotNum
  fcAssert (scheduled = witnessOwner) "scheduled_witness == witness_owner"
  let w ← s.getWitness witnessOwner
  fcAssert (ctx.skip.witnessSignature = false → w.signingKey = ctx.publicKey key)
    "The witness signing key ${ws} is different to the block generation key ${bs}"

/-- The transactions that go into the block. -/
def pack (p : PendingNode ctx.env) (when : Time) : Packing :=
  p.pendingTx.foldl (Packing.round ctx p.node.state.dgp.maximumBlockSize when)
    ⟨p.headNode.state, ctx.emptyHeaderSize + 4, []⟩

/-- The rest of `_generate_block`, up to the push. -/
def buildBlock (p : PendingNode ctx.env) (when : Time) (witnessOwner : AccountName) (key : ℕ) :
    Exec SignedBlock := do
  let s := p.headNode.state
  let transactions := (p.pack when).transactions
  let w ← s.getWitness witnessOwner
  let header : SignedBlockHeader := {
    previous := s.dgp.headBlockId
    timestamp := when
    witness := witnessOwner
    transactionMerkleRoot := ctx.env.merkleRoot transactions
    extensions := versionExtensions ctx.genesis w s.hardforks
    witnessSignature := 0 }
  let signed : SignedBlockHeader := { header with
    witnessSignature := if ctx.skip.witnessSignature then 0
      else ctx.sign (decide (s.hasHardfork 1)) key header }
  let b : SignedBlock := { signed with transactions := transactions }
  fcAssert (ctx.skipBlockSizeCheck = false → ctx.env.blockPackSize b ≤ ctx.genesis.maximumBlockSize)
    "fc::raw::pack_size(pending_block) <= SOPHIATX_MAX_BLOCK_SIZE"
  pure b

/-- The node without the session of its pending transactions, which it still lists. -/
def dropSession (p : PendingNode ctx.env) : PendingNode ctx.env :=
  { p with node := p.headNode, pendingTxSession := false }

/-- `generate_block`. -/
def generateBlock (p : PendingNode ctx.env) (when : Time) (witnessOwner : AccountName)
    (key : ℕ) : PendingNode ctx.env × Exec SignedBlock :=
  match p.checkTurn when witnessOwner key with
  | .error e => (p, .error e)
  | .ok () =>
    match p.buildBlock when witnessOwner key with
    | .error e => (p.dropSession, .error e)
    | .ok b =>
      let (p, result) := p.dropSession.pushBlock ctx.toPendingContext b
      (p, result.map fun _ ↦ b)

end PendingNode

end SophiaTX.Chain
