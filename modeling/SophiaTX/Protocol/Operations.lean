import SophiaTX.Protocol.Types

/-!
# Operations and transactions

The operations of the protocol library with the data each one carries, and the functions the
chain asks every operation for: `validate`, the fee payer, the required fee and the required
authorities. The functions of the environment (hashing, UTF-8 and JSON checks, key recovery,
packed sizes) are parameters.
-/

namespace SophiaTX.Protocol

structure Authority where
  weightThreshold : ℕ
  accountAuths : List (AccountName × ℕ)
  keyAuths : List (PublicKey × ℕ)
deriving DecidableEq

/-- `authority::is_impossible`. -/
def Authority.isImpossible (a : Authority) : Prop :=
  (a.accountAuths.map Prod.snd).sum + (a.keyAuths.map Prod.snd).sum < a.weightThreshold

instance (a : Authority) : Decidable a.isImpossible := Nat.decLt _ _

structure ChainProperties where
  accountCreationFee : Asset
  maximumBlockSize : ℕ
  priceFeeds : List (AssetSymbol × Price)
deriving DecidableEq

/-- The entries of `witness_set_properties_operation::props`, unpacked. -/
structure WitnessProperties where
  key : Option PublicKey
  accountCreationFee : Option Asset
  maximumBlockSize : Option ℕ
  newSigningKey : Option PublicKey
  exchangeRates : Option (List Price)
  url : Option Bytes
deriving DecidableEq

/-- The operation variant. Virtual operations are pushed by the chain itself and never valid in
a transaction, so they are one case. -/
inductive Operation where
  | transfer (fromAccount toAccount : AccountName) (amount : Asset) (memo : Bytes)
  | transferToVesting (fromAccount toAccount : AccountName) (amount : Asset)
  | withdrawVesting (account : AccountName) (vestingShares : Asset)
  | feedPublish (publisher : AccountName) (exchangeRate : Price)
  | accountCreate (creator : AccountName) (nameSeed : Bytes) (owner active : Authority)
      (memoKey : PublicKey) (jsonMetadata : Bytes)
  | accountUpdate (account : AccountName) (owner active : Option Authority)
      (memoKey : PublicKey) (jsonMetadata : Bytes)
  | accountDelete (account : AccountName)
  | witnessUpdate (owner : AccountName) (url : Bytes) (blockSigningKey : PublicKey)
      (props : ChainProperties)
  | witnessStop (owner : AccountName)
  | accountWitnessVote (account witness : AccountName) (approve : Bool)
  | accountWitnessProxy (account proxy : AccountName)
  | witnessSetProperties (owner : AccountName) (props : WitnessProperties)
  | custom (sender : AccountName) (recipients : List AccountName) (appId : ℕ) (data : Bytes)
  | customJson (sender : AccountName) (recipients : List AccountName) (appId : ℕ) (json : Bytes)
  | customBinary (sender : AccountName) (recipients : List AccountName) (appId : ℕ) (data : Bytes)
  | requestAccountRecovery (recoveryAccount accountToRecover : AccountName)
      (newOwnerAuthority : Authority)
  | recoverAccount (accountToRecover : AccountName)
      (newOwnerAuthority recentOwnerAuthority : Authority)
  | changeRecoveryAccount (accountToRecover newRecoveryAccount : AccountName)
  | escrowTransfer (fromAccount toAccount agent : AccountName) (escrowId : ℕ)
      (sophiatxAmount escrowFee : Asset) (ratificationDeadline escrowExpiration : Time)
      (jsonMeta : Bytes)
  | escrowDispute (fromAccount toAccount agent who : AccountName) (escrowId : ℕ)
  | escrowRelease (fromAccount toAccount agent who receiver : AccountName) (escrowId : ℕ)
      (sophiatxAmount : Asset)
  | escrowApprove (fromAccount toAccount agent who : AccountName) (escrowId : ℕ) (approve : Bool)
  | resetAccount (resetter accountToReset : AccountName) (newOwnerAuthority : Authority)
  | setResetAccount (account currentResetter resetter : AccountName)
  | applicationCreate (author : AccountName) (name url metadata : Bytes) (priceParam : ℕ)
  | applicationUpdate (author : AccountName) (newAuthor : Option AccountName)
      (name url metadata : Bytes) (priceParam : Option ℕ)
  | applicationDelete (author : AccountName) (name : Bytes)
  | buyApplication (buyer : AccountName) (appId : ℤ)
  | cancelApplicationBuying (appOwner buyer : AccountName) (appId : ℤ)
  | transferFromPromotionPool (transferTo : AccountName) (amount : Asset)
  | sponsorFees (sponsor sponsored : AccountName) (isSponsoring : Bool)
  | adminWitnessUpdate (owner : AccountName) (url : Bytes) (blockSigningKey : PublicKey)
      (props : ChainProperties)
  | virtual
deriving DecidableEq

/-- An operation with the `fee` of its `base_operation`. -/
structure FeeOperation where
  op : Operation
  fee : Asset
deriving DecidableEq

structure Transaction where
  refBlockNum : ℕ
  refBlockPrefix : ℕ
  expiration : Time
  operations : List FeeOperation
  signatures : List ℕ
deriving DecidableEq

inductive BlockHeaderExtension where
  | void
  | version (v : Version)
  | hardforkVersionVote (hfVersion : Version) (hfTime : Time)
deriving DecidableEq

/-- A block id: a hash whose first word is replaced by the block number. -/
structure BlockId where
  num : ℕ
  hash : ℕ
deriving DecidableEq

/-- `block_id_type()`. -/
def BlockId.null : BlockId := ⟨0, 0⟩

structure SignedBlockHeader where
  previous : BlockId
  timestamp : Time
  witness : AccountName
  transactionMerkleRoot : ℕ
  extensions : List BlockHeaderExtension
  witnessSignature : ℕ
deriving DecidableEq

structure SignedBlock extends SignedBlockHeader where
  transactions : List Transaction
deriving DecidableEq

def SignedBlock.blockNum (b : SignedBlock) : ℕ := b.previous.num + 1

/-- Functions outside the chain library. -/
structure Env where
  /-- The hash part of `signed_block_header::id`. -/
  headerHash : SignedBlockHeader → ℕ
  trxId : Transaction → ℕ
  merkleRoot : List Transaction → ℕ
  blockPackSize : SignedBlock → ℕ
  operationPackSize : FeeOperation → ℕ
  /-- The key recovered from the witness signature, under the canonical-signature rule. -/
  signee : Bool → SignedBlock → PublicKey
  /-- The keys recovered from the signatures; a duplicate throws. -/
  signatureKeys : Bool → Transaction → Exec (List PublicKey)
  /-- `make_random_fixed_string` as an account name. -/
  makeRandomFixedString : Bytes → AccountName
  isValidAccountName : AccountName → Bool
  isUtf8 : Bytes → Bool
  jsonIsValid : Bytes → Bool

def Env.blockId (env : Env) (b : SignedBlock) : BlockId :=
  ⟨b.blockNum, env.headerHash b.toSignedBlockHeader⟩

end SophiaTX.Protocol
