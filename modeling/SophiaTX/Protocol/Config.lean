import SophiaTX.Protocol.Operations

/-!
# Genesis state and configuration

The genesis file fixes the parameters of a network. The remaining entries of the configuration
are computed from it, in the `uint32_t` arithmetic of the source, or are constants of the live
network build.
-/

namespace SophiaTX.Protocol

structure InitialAccount where
  name : AccountName
  key : PublicKey
  balance : ShareType
deriving DecidableEq

/-- The fields of `genesis_state_type` that the chain library reads. -/
structure GenesisState where
  initialPublicKey : PublicKey
  initialPublicMiningKey : PublicKey
  initialBalance : ShareType
  initialSupply : ShareType
  totalSupply : ShareType
  maxWitnesses : ℕ
  hardforkReqWitnesses : ℕ
  maxVotedWitnesses : ℕ
  maxRunnerWitnesses : ℕ
  maxAccountWitnessVotes : ℕ
  initialWitnessReqVestingBalance : ShareType
  finalWitnessReqVestingBalance : ShareType
  witnessVestingIncreaseDays : ℕ
  blockInterval : ℕ
  maxTransactionSize : ℕ
  maxBlockSize : ℕ
  promotionPoolPercentage : ℕ
  miningPoolPercentage : ℕ
  interestPoolPercentage : ℕ
  burnFeePercentage : ℕ
  coinbaseYears : ℕ
  minAccCreationFee : ℕ
  baseFee : ℕ
  baseFeeUsd : ℕ
  baseFeeEur : ℕ
  baseFeeChf : ℕ
  baseFeeCny : ℕ
  baseFeeGbp : ℕ
  symbol : AssetSymbol
  limitBandwidthBlocks : ℕ
  maxAllowedBandwidth : ℕ
  maxAllowedOps : ℕ
  genesisTime : Time
  isPrivateNet : Bool
  initialAccounts : List InitialAccount
deriving DecidableEq

namespace GenesisState

variable (g : GenesisState)

def blocksPerDay : ℕ := 86400 / g.blockInterval

def blocksPerHour : ℕ := 3600 / g.blockInterval

def startMinerVotingBlock : ℕ := uint32 (86400 / g.blockInterval * 7)

def interestDelay : ℕ := 86400 / g.blockInterval

def interestFeesTime : ℕ := 86400 / g.blockInterval

def coinbaseBlocks : ℕ := uint32 (31536000 / g.blockInterval * g.coinbaseYears)

/-- `SOPHIATX_MIN_FEEDS` of the live network. -/
def minFeeds : ℕ := g.maxWitnesses / 10

def minBlockSizeLimit : ℕ := uint32 (g.maxTransactionSize * 16)

/-- `SOPHIATX_MAX_BLOCK_SIZE`. -/
def maximumBlockSize : ℕ := uint32 (g.maxTransactionSize * g.blockInterval * g.maxBlockSize)

/-- The base fee in a symbol; every symbol without a fee of its own gets the chain's. -/
def baseFeeIn (inSymbol : AssetSymbol) : Asset :=
  if inSymbol = sbd1Symbol then ⟨g.baseFeeUsd, sbd1Symbol⟩
  else if inSymbol = sbd2Symbol then ⟨g.baseFeeEur, sbd2Symbol⟩
  else if inSymbol = sbd3Symbol then ⟨g.baseFeeChf, sbd3Symbol⟩
  else if inSymbol = sbd4Symbol then ⟨g.baseFeeCny, sbd4Symbol⟩
  else if inSymbol = sbd5Symbol then ⟨g.baseFeeGbp, sbd5Symbol⟩
  else ⟨g.baseFee, g.symbol⟩

end GenesisState

/-! ## Constants -/

def maxMemoSize : ℕ := 2048

def maxNameSeedSize : ℕ := 32

def maxPermlinkLength : ℕ := 256

def maxWitnessUrlLength : ℕ := 2048

def sizeCoveredInBaseFee : ℕ := 4096

def sizeIncreasePerFee : ℕ := 4096

/-- `SOPHIATX_100_PERCENT`. -/
def hundredPercent : ℕ := 10000

def irreversibleThreshold : ℕ := 7500

def interestBlocks : ℕ := 2400

def maxProxyRecursionDepth : ℕ := 4

def vestingWithdrawIntervals : ℕ := 27

def vestingWithdrawIntervalSeconds : ℕ := 86400

def maxTimeUntilExpiration : ℕ := 3600

def maxSigCheckDepth : ℕ := 2

def maxUndoHistory : ℕ := 10000

def witnessVestingIncreaseDays : ℕ := 96

def feedHistoryWindow : ℕ := 84

def maxFeedAgeSeconds : ℕ := 604800

def ownerAuthRecoveryPeriod : ℕ := 2592000

def accountRecoveryRequestExpirationPeriod : ℕ := 86400

def ownerUpdateLimit : ℕ := 3600

/-- `SOPHIATX_VIRTUAL_SCHEDULE_LAP_LENGTH2`. -/
def virtualScheduleLapLength2 : ℕ := uint128Max

def blockchainVersion : Version := version 1 2 0

/-! ## Hardforks -/

def numHardforks : ℕ := 2

/-- `_hardfork_versions`. -/
def hardforkVersions : ℕ → Version
  | 0 => version 1 0 0
  | 1 => version 1 1 0
  | 2 => version 1 2 0
  | _ => 0

/-- `_hardfork_times`; the first one is the genesis time. -/
def hardforkTimes (g : GenesisState) : ℕ → Time
  | 0 => g.genesisTime
  | 1 => 1543838400
  | 2 => 1551182400
  | _ => 0

end SophiaTX.Protocol
