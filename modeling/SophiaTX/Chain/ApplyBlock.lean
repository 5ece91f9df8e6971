import SophiaTX.Chain.Payouts

/-!
# Genesis and block application

A block is applied as a fixed list of stages: its opening, its transactions operation by
operation, and the steps after them. A run of the chain goes through the stages of its blocks
one by one.
-/

namespace SophiaTX.Chain

open SophiaTX.Protocol SophiaTX.Lib

/-! ## Genesis -/

/-- An account that `init_genesis` credits. -/
def genesisAccount (id : ℕ) (key : PublicKey) (balance : ShareType)
    (recoveryAccount resetAccount : AccountName) : Exec Account := do
  let holdings ← safeMul balance 2
  pure { Account.fresh id with
    memoKey := key
    balance := balance
    holdingsConsideredForInterests := holdings
    recoveryAccount := recoveryAccount
    resetAccount := resetAccount }

/-- The accounts and authorities of a chain while genesis creates them. -/
structure GenesisAccounts where
  accounts : Table AccountName Account
  authorities : Table AccountName AccountAuthority
  totalInitialBalance : ShareType

def GenesisAccounts.create (s : GenesisAccounts) (name : AccountName) (a : Account)
    (owner active : Authority) : Exec GenesisAccounts := do
  let totalInitialBalance ← safeAdd s.totalInitialBalance a.balance
  let accounts ← createRow s.accounts name a
  let authorities ← createRow s.authorities name ⟨owner, active, 0⟩
  pure ⟨accounts, authorities, totalInitialBalance⟩

/-- One of the `initial_accounts`; without a key of its own it is owned by the init miner. -/
def GenesisAccounts.createInitial (s : GenesisAccounts) (acc : InitialAccount) :
    Exec GenesisAccounts := do
  let a ← genesisAccount s.accounts.size acc.key acc.balance initMinerName initMinerName
  let active : Authority := ⟨1, [], [(acc.key, 1)]⟩
  let owner : Authority := if acc.key = nullKey then ⟨1, [(initMinerName, 1)], []⟩ else active
  s.create acc.name a owner active

def genesisAccounts (g : GenesisState) : Exec GenesisAccounts := do
  let nobody : Authority := ⟨1, [], []⟩
  let anybody : Authority := ⟨0, [], []⟩
  let s : GenesisAccounts := ⟨Table.empty, Table.empty, 0⟩
  let s ← s.create minerAccount (Account.fresh 0) nobody nobody
  let s ← s.create nullAccount (Account.fresh 1) nobody nobody
  let s ← s.create tempAccount (Account.fresh 2) anybody anybody
  let initMiner ← genesisAccount 3 g.initialPublicKey g.initialBalance 0 nullAccount
  let key : Authority := ⟨1, [], [(g.initialPublicKey, 1)]⟩
  let s ← s.create initMinerName initMiner key key
  g.initialAccounts.foldlM GenesisAccounts.createInitial s

/-- The witness every chain starts with. -/
def genesisWitness (g : GenesisState) : Witness :=
  let w := Witness.fresh g 0
  { w with
    signingKey := g.initialPublicMiningKey
    schedule := .top19
    props := if g.isPrivateNet then { w.props with accountCreationFee := ⟨0, g.symbol⟩ }
      else w.props }

def genesisFeedHistories : Table AssetSymbol FeedHistory where
  entries := [sbd1Symbol, sbd2Symbol, sbd3Symbol, sbd4Symbol, sbd5Symbol].map fun symbol ↦
    (symbol, ⟨Price.default, []⟩)
  nodup := by decide

def genesisWitnesses (g : GenesisState) : Table AccountName Witness where
  entries := [(initMinerName, genesisWitness g)]
  nodup := List.nodup_singleton _

/-- `init_genesis`. -/
def initGenesis (g : GenesisState) : Exec Database := do
  throwIf (g.blockInterval = 0) .divideByZero
  let initial ← genesisAccounts g
  let economics ← EconomicModel.initEconomics g initial.totalInitialBalance g.totalSupply
  pure {
    dgp := {
      headBlockNumber := 0
      headBlockId := BlockId.null
      time := g.genesisTime
      currentWitness := initMinerName
      currentSupply := initial.totalInitialBalance
      totalVestingShares := 0
      witnessRequiredVesting := if g.isPrivateNet then 0 else g.initialWitnessReqVestingBalance
      maximumBlockSize := g.maximumBlockSize
      currentAslot := 0
      recentSlotsFilled := uint128Max
      participationCount := 128
      lastIrreversibleBlockNum := 0
      privateNet := g.isPrivateNet }
    economics := economics
    accounts := initial.accounts
    authorities := initial.authorities
    witnesses := genesisWitnesses g
    transactions := Table.empty
    blockSummaries := fun _ ↦ BlockId.null
    wso := {
      currentVirtualTime := 0
      nextShuffleBlockNum := 1
      currentShuffledWitnesses := [initMinerName]
      numScheduledWitnesses := 1
      top19Weight := 21
      timeshareWeight := 63
      witnessPayNormalizationFactor := 25
      medianProps := ⟨⟨g.minAccCreationFee, g.symbol⟩, g.maximumBlockSize, []⟩
      majorityVersion := 0
      maxVotedWitnesses := g.maxVotedWitnesses % 256
      hardforkRequiredWitnesses := g.hardforkReqWitnesses % 256 }
    witnessVotes := Table.empty
    feedHistories := genesisFeedHistories
    hardforks := {
      processedHardforks := [g.genesisTime]
      lastHardfork := 0
      currentHardforkVersion := hardforkVersions 0
      nextHardfork := 0
      nextHardforkTime := 0 }
    ownerHistories := []
    recoveryRequests := Table.empty
    changeRecoveryRequests := Table.empty
    escrows := Table.empty
    applications := Table.empty
    nextApplicationId := 0
    applicationBuyings := Table.empty
    customContents := []
    sponsors := Table.empty
    bandwidths := Table.empty }

/-! ## Stages -/

inductive Stage where
  | openBlock (b : SignedBlock)
  | openTransaction (trx : Transaction)
  | operation (trx : Transaction) (op : FeeOperation)
  | closeTransaction (trx : Transaction)
  | updateGlobalDynamicData (b : SignedBlock)
  | updateSigningWitness (b : SignedBlock)
  | updateLastIrreversibleBlock
  | createBlockSummary (b : SignedBlock)
  | clearExpiredTransactions
  | updateWitnessSchedule
  | processInterests
  | updateMedianFeeds
  | clearNullAccountBalance
  | processFunds (b : SignedBlock)
  | processVestingWithdrawals
  | accountRecoveryProcessing
  | expireEscrowRatification
  | processHardforks
  | recordBlock (b : SignedBlock)

/-- Steps that `_apply_block` runs in public nets only. -/
def onPublicNet (s : Database) (step : Database → Exec Database) : Exec Database :=
  if s.dgp.privateNet then pure s else step s

def Stage.run (ctx : Context) (s : Database) : Stage → Exec Database
  | openBlock b => s.openBlock ctx b
  | openTransaction trx => s.openTransaction ctx trx
  | operation _ op => s.applyOperation ctx op
  | closeTransaction trx => s.closeTransaction ctx trx
  | updateGlobalDynamicData b => s.updateGlobalDynamicData ctx b
  | updateSigningWitness b => s.updateSigningWitness ctx.genesis b
  | updateLastIrreversibleBlock => s.updateLastIrreversibleBlock ctx.genesis
  | createBlockSummary b => pure (s.createBlockSummary ctx.env b)
  | clearExpiredTransactions => pure s.clearExpiredTransactions
  | updateWitnessSchedule => s.updateWitnessSchedule ctx.genesis
  | processInterests => onPublicNet s (Database.processInterests ctx.genesis)
  | updateMedianFeeds => onPublicNet s (Database.updateMedianFeeds ctx.genesis)
  | clearNullAccountBalance => onPublicNet s (Database.clearNullAccountBalance ctx.genesis)
  | processFunds b => onPublicNet s fun s ↦ s.processFunds ctx.genesis b.blockNum
  | processVestingWithdrawals => onPublicNet s Database.processVestingWithdrawals
  | accountRecoveryProcessing => s.accountRecoveryProcessing
  | expireEscrowRatification => s.expireEscrowRatification ctx.genesis
  | processHardforks => s.processHardforks ctx.genesis
  | recordBlock b => onPublicNet s fun s ↦ s.recordBlock b.blockNum

/-- The stages of one transaction. -/
def transactionStages (trx : Transaction) : List Stage :=
  .openTransaction trx :: trx.operations.map (.operation trx) ++ [.closeTransaction trx]

/-- Stages up to the one that moves the last irreversible block. -/
def SignedBlock.stagesBeforeCommit (b : SignedBlock) : List Stage :=
  .openBlock b :: b.transactions.flatMap transactionStages ++
    [.updateGlobalDynamicData b, .updateSigningWitness b, .updateLastIrreversibleBlock]

/-- Stages after the last irreversible block has moved. -/
def SignedBlock.stagesAfterCommit (b : SignedBlock) : List Stage :=
  [.createBlockSummary b, .clearExpiredTransactions, .updateWitnessSchedule, .processInterests,
    .updateMedianFeeds, .clearNullAccountBalance, .processFunds b, .processVestingWithdrawals,
    .accountRecoveryProcessing, .expireEscrowRatification, .processHardforks, .recordBlock b]

/-- The stages of `_apply_block`, in order. -/
def SignedBlock.stages (b : SignedBlock) : List Stage :=
  SignedBlock.stagesBeforeCommit b ++ SignedBlock.stagesAfterCommit b

def runStages (ctx : Context) (stages : List Stage) (s : Database) : Exec Database :=
  stages.foldlM (Stage.run ctx) s

/-- The check at the end of `apply_block`. -/
def Database.checkInvariants (ctx : Context) (s : Database) : Exec Unit :=
  if ctx.producing = false ∧ ctx.skip.validateInvariants = true then pure ()
  else s.validateInvariants ctx.genesis

/-- `apply_block` on the consensus state. -/
def applyBlock (ctx : Context) (s : Database) (b : SignedBlock) : Exec Database := do
  let s ← runStages ctx (SignedBlock.stages b) s
  s.checkInvariants ctx
  pure s

def applyBlocks (ctx : Context) (s : Database) (blocks : List SignedBlock) : Exec Database :=
  blocks.foldlM (applyBlock ctx) s

/-! ## Runs of the chain -/

/-- Runs of the chain from a state, block after block and stage after stage, in which every stage
meets a condition on the state it starts in. Inside a block the stages still to come are kept. -/
inductive RunsFrom (ctx : Context) (C : Database → Stage → Prop) (s₀ : Database) :
    Option (List Stage) → Database → Prop
  | refl : RunsFrom ctx C s₀ none s₀
  | start {s : Database} (b : SignedBlock) (h : RunsFrom ctx C s₀ none s) :
      RunsFrom ctx C s₀ (some (SignedBlock.stages b)) s
  | stage {s s' : Database} {stage : Stage} {rest : List Stage}
      (h : RunsFrom ctx C s₀ (some (stage :: rest)) s) (hC : C s stage)
      (hrun : stage.run ctx s = .ok s') : RunsFrom ctx C s₀ (some rest) s'
  | finish {s : Database} (h : RunsFrom ctx C s₀ (some []) s)
      (hcheck : s.checkInvariants ctx = .ok ()) : RunsFrom ctx C s₀ none s

/-- States that a run from genesis leads to, at the end of a block or between two stages of one. -/
def Reachable (ctx : Context) (s : Database) : Prop :=
  ∃ s₀ pending, initGenesis ctx.genesis = .ok s₀ ∧
    RunsFrom ctx (fun _ _ ↦ True) s₀ pending s

end SophiaTX.Chain
