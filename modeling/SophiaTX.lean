import SophiaTX.Chain.ApplyBlock
import SophiaTX.Chain.AuthoritySteps
import SophiaTX.Chain.Balances
import SophiaTX.Chain.BlockSteps
import SophiaTX.Chain.Chronicle
import SophiaTX.Chain.Commerce
import SophiaTX.Chain.Conservation
import SophiaTX.Chain.Council
import SophiaTX.Chain.Economics
import SophiaTX.Chain.Evaluators
import SophiaTX.Chain.Frames
import SophiaTX.Chain.Genesis
import SophiaTX.Chain.Heights
import SophiaTX.Chain.Listings
import SophiaTX.Chain.MainChain
import SophiaTX.Chain.Moves
import SophiaTX.Chain.Objects
import SophiaTX.Chain.OperationMoves
import SophiaTX.Chain.Payouts
import SophiaTX.Chain.Position
import SophiaTX.Chain.Quiet
import SophiaTX.Chain.Registry
import SophiaTX.Chain.RegistrySteps
import SophiaTX.Chain.Replay
import SophiaTX.Chain.Runs
import SophiaTX.Chain.Specs
import SophiaTX.Chain.StageMoves
import SophiaTX.Chain.Tallies
import SophiaTX.Chain.Tapos
import SophiaTX.Chain.Votes
import SophiaTX.Chain.WitnessSchedule
import SophiaTX.Chainbase.GenericIndex
import SophiaTX.Chainbase.Ids
import SophiaTX.Chainbase.Snapshots
import SophiaTX.Chainbase.Squash
import SophiaTX.Chainbase.Undo
import SophiaTX.Escrow.Contract
import SophiaTX.Escrow.Refinement
import SophiaTX.Fees.Bandwidth
import SophiaTX.Fees.CustomFee
import SophiaTX.Forks.Branches
import SophiaTX.Forks.ByNumber
import SophiaTX.Forks.Calls
import SophiaTX.Forks.Changes
import SophiaTX.Forks.ForkDatabase
import SophiaTX.Forks.InStep
import SophiaTX.Forks.Irreversibility
import SophiaTX.Forks.Lineage
import SophiaTX.Forks.Lookups
import SophiaTX.Forks.Node
import SophiaTX.Forks.PendingNode
import SophiaTX.Forks.Pushes
import SophiaTX.Forks.Restart
import SophiaTX.Forks.Soundness
import SophiaTX.Forks.Switches
import SophiaTX.Governance.Bond
import SophiaTX.Governance.Hardforks
import SophiaTX.Governance.Participation
import SophiaTX.Governance.Quorum
import SophiaTX.Governance.Schedule
import SophiaTX.Governance.Slots
import SophiaTX.Governance.VirtualTime
import SophiaTX.Lib.Ancestry
import SophiaTX.Lib.BitStrings
import SophiaTX.Lib.Cursor
import SophiaTX.Lib.Effects
import SophiaTX.Lib.Forest
import SophiaTX.Lib.Journal
import SophiaTX.Lib.Loop
import SophiaTX.Lib.MultiIndex
import SophiaTX.Lib.Numbering
import SophiaTX.Lib.Partial
import SophiaTX.Lib.Past
import SophiaTX.Lib.Quorum
import SophiaTX.Lib.Ring
import SophiaTX.Lib.Sextets
import SophiaTX.Lib.Strides
import SophiaTX.Lib.Sweep
import SophiaTX.Lib.Table
import SophiaTX.Lib.TwoWords
import SophiaTX.Lib.Window
import SophiaTX.Market.Applications
import SophiaTX.Market.MedianFeeds
import SophiaTX.Market.Rates
import SophiaTX.Market.Sponsors
import SophiaTX.Messages.Sequences
import SophiaTX.Ownership.Authorisation
import SophiaTX.Ownership.Control
import SophiaTX.Ownership.Custody
import SophiaTX.Ownership.Debits
import SophiaTX.Ownership.NullAccount
import SophiaTX.Ownership.OwnerControl
import SophiaTX.Plugins.AccountByKey
import SophiaTX.Plugins.AccountHistory
import SophiaTX.Plugins.BroadcastAnswers
import SophiaTX.Plugins.CustomTokens
import SophiaTX.Plugins.Documents
import SophiaTX.Plugins.GroupHistory
import SophiaTX.Plugins.HistoryRetention
import SophiaTX.Plugins.Messaging
import SophiaTX.Plugins.Synopsis
import SophiaTX.Plugins.TokenActions
import SophiaTX.Plugins.TokenErrors
import SophiaTX.Plugins.TokenSupply
import SophiaTX.Production.GeneratedBlocks
import SophiaTX.Production.ProducedBlocks
import SophiaTX.Protocol.AccountNames
import SophiaTX.Protocol.AssetSymbols
import SophiaTX.Protocol.Base64m
import SophiaTX.Protocol.Config
import SophiaTX.Protocol.FixedString
import SophiaTX.Protocol.MerkleRoot
import SophiaTX.Protocol.Operations
import SophiaTX.Protocol.Prices
import SophiaTX.Protocol.SignState
import SophiaTX.Protocol.Types
import SophiaTX.Protocol.Uint128
import SophiaTX.Protocol.Validation
import SophiaTX.Reindex.Checkpoints
import SophiaTX.Reindex.Equivalence
import SophiaTX.Reindex.Forgetting
import SophiaTX.Signing.Agreement
import SophiaTX.Signing.Derivations
import SophiaTX.Signing.Monotone
import SophiaTX.Signing.Selection
import SophiaTX.Signing.Traversal
import SophiaTX.Store.BlockLog
import SophiaTX.Supply.Holdings
import SophiaTX.Supply.Identity
import SophiaTX.Supply.Interest
import SophiaTX.Supply.InterestTurns
import SophiaTX.Supply.NonNegative
import SophiaTX.Supply.Pools
import SophiaTX.Supply.PromotionPool
import SophiaTX.Supply.TimeWeighted
import SophiaTX.Vesting.DueAccounts
import SophiaTX.Vesting.Withdrawals
import SophiaTX.Voting.Evaluators
import SophiaTX.Voting.Ledger
import SophiaTX.Voting.Migration
import SophiaTX.Voting.Propagation
import SophiaTX.Voting.Records
import SophiaTX.Voting.Recount
import SophiaTX.Voting.Tally
