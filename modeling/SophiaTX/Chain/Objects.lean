import SophiaTX.Lib.Table
import SophiaTX.Protocol.Config
import SophiaTX.Protocol.FixedString

/-!
# Database objects

The objects of the chain library and the state made of them. An index is a keyed table whose
rows stand in the order of their object ids. Balances and vesting shares are stored as amounts:
their symbols are fixed when an account is created and never change.
-/

namespace SophiaTX.Chain

open SophiaTX.Lib SophiaTX.Protocol

/-- The part of `account_object` that carries money and voting power. -/
structure AccountHoldings where
  id : ℕ
  proxy : AccountName
  holdingsConsideredForInterests : ShareType
  balance : ShareType
  vestingShares : ShareType
  vestingWithdrawRate : ShareType
  nextVestingWithdrawal : Time
  withdrawn : ShareType
  toWithdraw : ShareType
  proxiedVsfVotes : Fin maxProxyRecursionDepth → ShareType

/-- `account_object`; its name is the key of the account table. -/
structure Account extends AccountHoldings where
  memoKey : PublicKey
  jsonMetadata : Bytes
  lastAccountUpdate : Time
  created : Time
  mined : Bool
  recoveryAccount : AccountName
  resetAccount : AccountName
  lastAccountRecovery : Time
  witnessesVotedFor : ℕ

/-- A new `account_object` before its constructor argument has run. -/
def Account.fresh (id : ℕ) : Account where
  id := id
  proxy := proxyToSelfAccount
  holdingsConsideredForInterests := 0
  balance := 0
  vestingShares := 0
  vestingWithdrawRate := 0
  nextVestingWithdrawal := maximumTime
  withdrawn := 0
  toWithdraw := 0
  proxiedVsfVotes := fun _ ↦ 0
  memoKey := nullKey
  jsonMetadata := []
  lastAccountUpdate := 0
  created := 0
  mined := true
  recoveryAccount := 0
  resetAccount := nullAccount
  lastAccountRecovery := 0
  witnessesVotedFor := 0

/-- `account_object::total_balance`, where it does not overflow. -/
def AccountHoldings.total (a : AccountHoldings) : ShareType := a.balance + a.vestingShares

structure AccountAuthority where
  owner : Authority
  active : Authority
  lastOwnerUpdate : Time

structure OwnerAuthorityHistory where
  account : AccountName
  previousOwnerAuthority : Authority
  lastValidTime : Time

structure AccountRecoveryRequest where
  newOwnerAuthority : Authority
  expires : Time

structure ChangeRecoveryAccountRequest where
  recoveryAccount : AccountName
  effectiveOn : Time

inductive WitnessScheduleType where
  | top19
  | timeshare
  | none
deriving DecidableEq

structure SubmittedExchangeRate where
  rate : Price
  lastChange : Time
deriving DecidableEq

/-- `witness_object`; its owner is the key of the witness table. -/
structure Witness where
  id : ℕ
  created : Time
  url : Bytes
  totalMissed : ℕ
  lastAslot : ℕ
  lastConfirmedBlockNum : ℕ
  signingKey : PublicKey
  props : ChainProperties
  submittedExchangeRates : List (AssetSymbol × SubmittedExchangeRate)
  votes : ShareType
  schedule : WitnessScheduleType
  virtualLastUpdate : ℕ
  virtualPosition : ℕ
  virtualScheduledTime : ℕ
  stopped : Bool
  runningVersion : Version
  hardforkVersionVote : Version
  hardforkTimeVote : Time

/-- A new `witness_object` before its constructor argument has run. -/
def Witness.fresh (g : GenesisState) (id : ℕ) : Witness where
  id := id
  created := 0
  url := []
  totalMissed := 0
  lastAslot := 0
  lastConfirmedBlockNum := 0
  signingKey := nullKey
  props := ⟨⟨g.minAccCreationFee, g.symbol⟩, uint32 (g.minBlockSizeLimit * 2), []⟩
  submittedExchangeRates := []
  votes := 0
  schedule := .none
  virtualLastUpdate := 0
  virtualPosition := 0
  virtualScheduledTime := uint128Max
  stopped := false
  runningVersion := 0
  hardforkVersionVote := 0
  hardforkTimeVote := 1531512800

structure WitnessSchedule where
  currentVirtualTime : ℕ
  nextShuffleBlockNum : ℕ
  currentShuffledWitnesses : List AccountName
  numScheduledWitnesses : ℕ
  top19Weight : ℕ
  timeshareWeight : ℕ
  witnessPayNormalizationFactor : ℕ
  medianProps : ChainProperties
  majorityVersion : Version
  maxVotedWitnesses : ℕ
  hardforkRequiredWitnesses : ℕ

/-- `escrow_object`; sender and escrow id are the key of the escrow table. -/
structure Escrow where
  toAccount : AccountName
  agent : AccountName
  ratificationDeadline : Time
  escrowExpiration : Time
  sophiatxBalance : Asset
  pendingFee : Asset
  toApproved : Bool
  agentApproved : Bool
  disputed : Bool

def Escrow.isApproved (e : Escrow) : Bool := e.toApproved && e.agentApproved

structure FeedHistory where
  currentMedianHistory : Price
  priceHistory : List Price

structure DynamicGlobalProperties where
  headBlockNumber : ℕ
  headBlockId : BlockId
  time : Time
  currentWitness : AccountName
  currentSupply : ShareType
  totalVestingShares : ShareType
  witnessRequiredVesting : ShareType
  maximumBlockSize : ℕ
  currentAslot : ℕ
  recentSlotsFilled : ℕ
  participationCount : ℕ
  lastIrreversibleBlockNum : ℕ
  privateNet : Bool

/-- `economic_model_object`. The supply history is indexed modulo the interest period. -/
structure EconomicModel where
  miningPoolFromCoinbase : ShareType
  miningPoolFromFees : ShareType
  interestPoolFromCoinbase : ShareType
  interestPoolFromFees : ShareType
  promotionPool : ShareType
  burnPool : ShareType
  initialPromotionPool : ShareType
  initSupply : ShareType
  totalSupply : ShareType
  historicSupply : ℕ → ShareType
  accumulatedSupply : ShareType
  coinbaseBlockReward : ShareType

structure HardforkProperty where
  processedHardforks : List Time
  lastHardfork : ℕ
  currentHardforkVersion : Version
  nextHardfork : Version
  nextHardforkTime : Time

/-- `application_name_type`, a fixed string of 24 bytes. Names with the same storage are one key. -/
structure ApplicationName where
  storage : Bytes
deriving DecidableEq

/-- The name that a string is converted to. -/
def ApplicationName.ofString (name : Bytes) : ApplicationName :=
  ⟨(FixedString.ofString .uint128Uint64 name).data⟩

structure Application where
  id : ℕ
  author : AccountName
  url : Bytes
  metadata : Bytes
  priceParam : ℕ

structure CustomContent where
  binary : Bool
  payload : Bytes
  appId : ℕ
  sender : AccountName
  recipient : AccountName
  allRecipients : List AccountName
  senderSequence : ℕ
  recipientSequence : ℕ
  appMessageSequence : ℕ
  received : Time

structure AccountBandwidth where
  actFeeFreeBandwidth : ℕ
  actFeeFreeOpsCount : ℕ
  lastBlockNumReset : ℕ

/-- The consensus state: all core indexes. -/
structure Database where
  dgp : DynamicGlobalProperties
  economics : EconomicModel
  accounts : Table AccountName Account
  authorities : Table AccountName AccountAuthority
  witnesses : Table AccountName Witness
  transactions : Table ℕ Time
  blockSummaries : ℕ → BlockId
  wso : WitnessSchedule
  /-- Pairs of voting account and witness. -/
  witnessVotes : Table (AccountName × AccountName) Unit
  feedHistories : Table AssetSymbol FeedHistory
  hardforks : HardforkProperty
  ownerHistories : List OwnerAuthorityHistory
  recoveryRequests : Table AccountName AccountRecoveryRequest
  changeRecoveryRequests : Table AccountName ChangeRecoveryAccountRequest
  /-- Sender and escrow id. -/
  escrows : Table (AccountName × ℕ) Escrow
  applications : Table ApplicationName Application
  nextApplicationId : ℕ
  /-- Buyer and application id. -/
  applicationBuyings : Table (AccountName × ℤ) Time
  customContents : List CustomContent
  /-- The sponsor of each sponsored account. -/
  sponsors : Table AccountName AccountName
  bandwidths : Table AccountName AccountBandwidth

/-- The `skip_flags` of a node that the chain library tests. -/
structure SkipFlags where
  witnessSignature : Bool := false
  transactionSignatures : Bool := false
  transactionDupeCheck : Bool := false
  taposCheck : Bool := false
  authorityCheck : Bool := false
  merkleCheck : Bool := false
  undoHistoryCheck : Bool := false
  witnessScheduleCheck : Bool := false
  validate : Bool := false
  validateInvariants : Bool := false

/-- What a node applies blocks with: the genesis file, the environment and its own settings. -/
structure Context where
  genesis : GenesisState
  env : Env
  skip : SkipFlags
  producing : Bool

namespace Database

/-! ## Lookups -/

def getAccount (s : Database) (name : AccountName) : Exec Account :=
  orUnknownKey (s.accounts.find? name)

def getAuthority (s : Database) (name : AccountName) : Exec AccountAuthority :=
  orUnknownKey (s.authorities.find? name)

def getWitness (s : Database) (name : AccountName) : Exec Witness :=
  orUnknownKey (s.witnesses.find? name)

def getEscrow (s : Database) (name : AccountName) (escrowId : ℕ) : Exec Escrow :=
  orUnknownKey (s.escrows.find? (name, escrowId))

/-- `find_account` by object id, with the name. -/
def findAccountById (s : Database) (id : ℕ) : Option (AccountName × Account) :=
  s.accounts.entries.find? fun entry ↦ decide (entry.2.id = id)

def hasHardfork (s : Database) (hardfork : ℕ) : Prop :=
  hardfork < s.hardforks.processedHardforks.length

instance (s : Database) (hardfork : ℕ) : Decidable (s.hasHardfork hardfork) := Nat.decLt _ _

/-! ## Updates of single objects -/

def modifyAccount (s : Database) (name : AccountName) (f : Account → Account) : Database :=
  { s with accounts := s.accounts.modify name f }

def modifyWitness (s : Database) (name : AccountName) (f : Witness → Witness) : Database :=
  { s with witnesses := s.witnesses.modify name f }

def modifyEscrow (s : Database) (key : AccountName × ℕ) (f : Escrow → Escrow) : Database :=
  { s with escrows := s.escrows.modify key f }

end Database

/-- `create` in a table: throws when a unique key is taken. -/
def createRow {κ α : Type} [DecidableEq κ] (t : Table κ α) (k : κ) (row : α) : Exec (Table κ α) :=
  match t.emplace? k row with
  | some t' => .ok t'
  | none => .error .uniquenessViolated

@[simp]
theorem createRow_eq_ok {κ α : Type} [DecidableEq κ] {t t' : Table κ α} {k : κ} {row : α} :
    createRow t k row = .ok t' ↔ t.emplace? k row = some t' := by
  unfold createRow
  split <;> simp_all

end SophiaTX.Chain
