import SophiaTX.Protocol.Config

/-!
# Stateless checks and requirements of operations

`validate`, the fee payer, the required fee and the required authorities of every operation.
-/

namespace SophiaTX.Protocol

/-- `validate_account_name`: the decoded name fits the 192 bits of an account name. -/
def validateAccountName (name : AccountName) : Exec Unit :=
  fcAssert (name < 2 ^ 192) "hash.size() <= sizeof(account_name_type::data)"

def Authority.validate (env : Env) (a : Authority) : Exec Unit :=
  a.accountAuths.forM fun item ↦
    fcAssert (env.isValidAccountName item.1 = true) "is_valid_account_name( item.first )"

def isSbdSymbol (symbol : AssetSymbol) : Prop :=
  symbol = sbd1Symbol ∨ symbol = sbd2Symbol ∨ symbol = sbd3Symbol ∨ symbol = sbd4Symbol ∨
    symbol = sbd5Symbol

instance (symbol : AssetSymbol) : Decidable (isSbdSymbol symbol) :=
  inferInstanceAs (Decidable (_ ∨ _ ∨ _ ∨ _ ∨ _))

/-- The check of a published exchange rate. -/
def validateExchangeRate (rate : Price) : Exec Unit := do
  if rate.base.symbol = sophiatxSymbol then
    fcAssert (isSbdSymbol rate.quote.symbol) "quote symbol"
  else do
    fcAssert (rate.quote.symbol = sophiatxSymbol) "rate.quote.symbol == SOPHIATX_SYMBOL"
    fcAssert (isSbdSymbol rate.base.symbol) "base symbol"
  fcAssert (0 < rate.quote.amount ∧ 0 < rate.base.amount)
    "rate.quote.amount > 0 && rate.base.amount > 0"

def ChainProperties.validate (g : GenesisState) (props : ChainProperties) : Exec Unit := do
  fcAssert ((g.minAccCreationFee : ℤ) ≤ props.accountCreationFee.amount)
    "account_creation_fee.amount >= SOPHIATX_MIN_ACCOUNT_CREATION_FEE"
  fcAssert (g.minBlockSizeLimit ≤ props.maximumBlockSize)
    "maximum_block_size >= SOPHIATX_MIN_BLOCK_SIZE_LIMIT"
  props.priceFeeds.forM fun feed ↦ do
    fcAssert (isSbdSymbol feed.1) "i.first"
    if feed.2.base.symbol = g.symbol then
      fcAssert (feed.2.quote.symbol = feed.1) "i.second.quote.symbol == i.first"
    else
      fcAssert (feed.2.base.symbol = feed.1 ∧ feed.2.quote.symbol = g.symbol)
        "i.second.base.symbol == i.first"
    fcAssert (0 < feed.2.quote.amount ∧ 0 < feed.2.base.amount)
      "i.second.quote.amount > 0 && i.second.base.amount > 0"

def validateJson (env : Env) (json : Bytes) : Exec Unit := do
  fcAssert (env.isUtf8 json = true) "JSON Metadata not formatted in UTF8"
  fcAssert (env.jsonIsValid json = true) "JSON Metadata not valid JSON"

def validateOptionalJson (env : Env) (json : Bytes) : Exec Unit :=
  if json.length > 0 then validateJson env json else pure ()

/-- A non-empty UTF-8 text of bounded length, as URLs and application names are. -/
def validateText (env : Env) (maxLength : ℕ) (tooLong isEmpty notUtf8 : String) (text : Bytes) :
    Exec Unit := do
  fcAssert (text.length ≤ maxLength) tooLong
  fcAssert (0 < text.length) isEmpty
  fcAssert (env.isUtf8 text = true) notUtf8

def validateUrl (env : Env) : Bytes → Exec Unit :=
  validateText env maxWitnessUrlLength "URL is too long" "URL size must be greater than 0"
    "URL is not valid UTF8"

def validateApplicationName (env : Env) : Bytes → Exec Unit :=
  validateText env maxPermlinkLength "Name is too long" "Name size must be greater than 0"
    "Name is not valid UTF8"

def validateMetadata (env : Env) (metadata : Bytes) : Exec Unit :=
  if metadata.length > 0 then
    fcAssert (env.isUtf8 metadata = true) "JSON Metadata not formatted in UTF8"
  else pure ()

def WitnessProperties.validate (env : Env) (g : GenesisState) (props : WitnessProperties) :
    Exec Unit := do
  fcAssert (props.key.isSome = true) "No signing key provided"
  match props.accountCreationFee with
  | some fee => do
    fcAssert (fee.symbol = sophiatxSymbol) "account_creation_fee must be in SOPHIATX"
    fcAssert ((g.minAccCreationFee : ℤ) ≤ fee.amount)
      "account_creation_fee smaller than minimum account creation fee"
  | none => pure ()
  match props.maximumBlockSize with
  | some size =>
    fcAssert (g.minBlockSizeLimit ≤ size) "maximum_block_size smaller than minimum max block size"
  | none => pure ()
  match props.exchangeRates with
  | some rates => rates.forM validateExchangeRate
  | none => pure ()
  match props.url with
  | some url => validateUrl env url
  | none => pure ()

def validateOwnerAuthority (env : Env) (a : Authority) : Exec Unit := do
  fcAssert (¬ a.isImpossible) "new owner authority cannot be impossible"
  fcAssert (a.weightThreshold ≠ 0) "new owner authority cannot be trivial"
  a.validate env

namespace Operation

/-- `validate` of every operation. -/
def validate (env : Env) (g : GenesisState) : Operation → Exec Unit
  | transfer fromAccount toAccount amount memo => do
    validateAccountName fromAccount
    validateAccountName toAccount
    fcAssert (amount.symbol ≠ vestsSymbol) "transferring of SophiaTX Power (STMP) is not allowed."
    fcAssert (0 < amount.amount) "Cannot transfer a negative amount (aka: stealing)"
    fcAssert (memo.length < maxMemoSize) "Memo is too large"
    fcAssert (env.isUtf8 memo = true) "Memo is not UTF8"
  | transferToVesting fromAccount toAccount amount => do
    validateAccountName fromAccount
    fcAssert (amount.symbol = sophiatxSymbol) "Amount must be SOPHIATX"
    (if toAccount ≠ 0 then validateAccountName toAccount else pure ())
    fcAssert (0 < amount.amount) "Must transfer a nonzero amount"
  | withdrawVesting account vestingShares => do
    validateAccountName account
    fcAssert (vestingShares.symbol = vestsSymbol) "Amount must be VESTS"
  | feedPublish publisher exchangeRate => do
    validateAccountName publisher
    validateExchangeRate exchangeRate
    exchangeRate.validate
  | accountCreate _ _ owner active _ jsonMetadata => do
    owner.validate env
    active.validate env
    validateOptionalJson env jsonMetadata
  | accountUpdate account _ _ _ jsonMetadata => do
    validateAccountName account
    validateOptionalJson env jsonMetadata
  | accountDelete account => validateAccountName account
  | witnessUpdate owner url _ props => do
    validateAccountName owner
    validateUrl env url
    props.validate g
  | witnessStop _ => pure ()
  | accountWitnessVote account witness _ => do
    validateAccountName account
    validateAccountName witness
  | accountWitnessProxy account proxy => do
    validateAccountName account
    (if proxy ≠ 0 then validateAccountName proxy else pure ())
    fcAssert (proxy ≠ account) "Cannot proxy to self"
  | witnessSetProperties owner props => do
    validateAccountName owner
    props.validate env g
  | custom sender recipients _ _ => do
    validateAccountName sender
    recipients.forM validateAccountName
  | customJson sender recipients _ json => do
    validateJson env json
    validateAccountName sender
    recipients.forM validateAccountName
  | customBinary sender recipients _ _ => do
    validateAccountName sender
    recipients.forM validateAccountName
  | requestAccountRecovery recoveryAccount accountToRecover newOwnerAuthority => do
    validateAccountName recoveryAccount
    validateAccountName accountToRecover
    newOwnerAuthority.validate env
  | recoverAccount accountToRecover newOwnerAuthority recentOwnerAuthority => do
    validateAccountName accountToRecover
    fcAssert (newOwnerAuthority ≠ recentOwnerAuthority)
      "Cannot set new owner authority to the recent owner authority"
    fcAssert (¬ newOwnerAuthority.isImpossible) "new owner authority cannot be impossible"
    fcAssert (¬ recentOwnerAuthority.isImpossible) "recent owner authority cannot be impossible"
    fcAssert (newOwnerAuthority.weightThreshold ≠ 0) "new owner authority cannot be trivial"
    newOwnerAuthority.validate env
    recentOwnerAuthority.validate env
  | changeRecoveryAccount accountToRecover newRecoveryAccount => do
    validateAccountName accountToRecover
    validateAccountName newRecoveryAccount
  | escrowTransfer fromAccount toAccount agent _ sophiatxAmount escrowFee ratificationDeadline
      escrowExpiration jsonMeta => do
    validateAccountName fromAccount
    validateAccountName toAccount
    validateAccountName agent
    fcAssert (0 ≤ escrowFee.amount) "fee cannot be negative"
    fcAssert (0 < sophiatxAmount.amount) "sophiatx amount cannot be negative"
    fcAssert (fromAccount ≠ agent ∧ toAccount ≠ agent) "agent must be a third party"
    fcAssert (escrowFee.symbol = sophiatxSymbol) "fee must be SOPHIATX"
    fcAssert (sophiatxAmount.symbol = sophiatxSymbol) "sophiatx amount must contain SOPHIATX"
    fcAssert (ratificationDeadline < escrowExpiration)
      "ratification deadline must be before escrow expiration"
    validateOptionalJson env jsonMeta
  | escrowDispute fromAccount toAccount agent who _ => do
    validateAccountName fromAccount
    validateAccountName toAccount
    validateAccountName agent
    validateAccountName who
    fcAssert (who = fromAccount ∨ who = toAccount) "who must be from or to"
  | escrowRelease fromAccount toAccount agent who receiver _ sophiatxAmount => do
    validateAccountName fromAccount
    validateAccountName toAccount
    validateAccountName agent
    validateAccountName who
    validateAccountName receiver
    fcAssert (who = fromAccount ∨ who = toAccount ∨ who = agent)
      "who must be from or to or agent"
    fcAssert (receiver = fromAccount ∨ receiver = toAccount) "receiver must be from or to"
    fcAssert (0 < sophiatxAmount.amount) "sophiatx amount must be positive"
    fcAssert (sophiatxAmount.symbol = sophiatxSymbol) "sophiatx amount must contain SOPHIATX"
  | escrowApprove fromAccount toAccount agent who _ _ => do
    validateAccountName fromAccount
    validateAccountName toAccount
    validateAccountName agent
    validateAccountName who
    fcAssert (who = toAccount ∨ who = agent) "to or agent must approve escrow"
  | resetAccount resetter accountToReset newOwnerAuthority => do
    validateAccountName resetter
    validateAccountName accountToReset
    validateOwnerAuthority env newOwnerAuthority
  | setResetAccount account currentResetter resetter => do
    validateAccountName account
    (if currentResetter ≠ 0 then validateAccountName currentResetter else pure ())
    validateAccountName resetter
    fcAssert (currentResetter ≠ resetter)
      "new reset account cannot be current reset account"
  | applicationCreate author name url metadata priceParam => do
    validateAccountName author
    validateApplicationName env name
    validateUrl env url
    validateMetadata env metadata
    fcAssert (priceParam < 2) "Undefined price param"
  | applicationUpdate author newAuthor name url metadata priceParam => do
    validateAccountName author
    match newAuthor with
    | some newAuthor => validateAccountName newAuthor
    | none => pure ()
    validateApplicationName env name
    validateUrl env url
    validateMetadata env metadata
    -- The source reads the optional without a test.
    match priceParam with
    | some priceParam => fcAssert (priceParam < 2) "Undefined price param"
    | none => .error .undefinedBehaviour
  | applicationDelete author name => do
    validateAccountName author
    validateApplicationName env name
  | buyApplication buyer _ => validateAccountName buyer
  | cancelApplicationBuying appOwner buyer _ => do
    validateAccountName appOwner
    validateAccountName buyer
  | transferFromPromotionPool transferTo amount => do
    validateAccountName transferTo
    fcAssert (0 < amount.amount) "amount.amount > 0"
  | sponsorFees sponsor sponsored _ => do
    (if sponsor ≠ 0 then validateAccountName sponsor else pure ())
    validateAccountName sponsored
  | adminWitnessUpdate _ _ _ _ => pure ()
  | virtual => .error (.assertion "This is a virtual operation")

/-- `get_fee_payer`. -/
def feePayer : Operation → AccountName
  | transfer fromAccount _ _ _ => fromAccount
  | transferToVesting fromAccount _ _ => fromAccount
  | withdrawVesting account _ => account
  | feedPublish publisher _ => publisher
  | accountCreate creator _ _ _ _ _ => creator
  | accountUpdate account _ _ _ _ => account
  | accountDelete account => account
  | witnessUpdate owner _ _ _ => owner
  | witnessStop owner => owner
  | accountWitnessVote account _ _ => account
  | accountWitnessProxy account _ => account
  | witnessSetProperties owner _ => owner
  | custom sender _ _ _ => sender
  | customJson sender _ _ _ => sender
  | customBinary sender _ _ _ => sender
  | requestAccountRecovery recoveryAccount _ _ => recoveryAccount
  | recoverAccount accountToRecover _ _ => accountToRecover
  | changeRecoveryAccount accountToRecover _ => accountToRecover
  | escrowTransfer fromAccount _ _ _ _ _ _ _ _ => fromAccount
  | escrowDispute _ _ _ who _ => who
  | escrowRelease _ _ _ who _ _ _ => who
  | escrowApprove _ _ _ who _ _ => who
  | resetAccount resetter _ _ => resetter
  | setResetAccount account _ _ => account
  | applicationCreate author _ _ _ _ => author
  | applicationUpdate author _ _ _ _ _ => author
  | applicationDelete author _ => author
  | buyApplication buyer _ => buyer
  | cancelApplicationBuying appOwner _ _ => appOwner
  | transferFromPromotionPool transferTo _ => transferTo
  | sponsorFees sponsor sponsored _ => if sponsor = 0 then sponsored else sponsor
  | adminWitnessUpdate owner _ _ _ => owner
  | virtual => initMinerName

/-- Only account creation pays its fee by itself. -/
def hasSpecialFee : Operation → Bool
  | accountCreate _ _ _ _ _ _ => true
  | _ => false

end Operation

/-- `get_custom_fee`, in `uint32_t` arithmetic. -/
def getCustomFee (g : GenesisState) (payloadSize : ℕ) (inSymbol : AssetSymbol) : Exec Asset := do
  let base := g.baseFeeIn inSymbol
  let sizeMulti := uint32 (payloadSize + uint32Sub (sizeIncreasePerFee - sizeCoveredInBaseFee) 1) /
    sizeIncreasePerFee
  pure ⟨← safeMul base.amount (uint32 (1 + sizeMulti) : ℕ), base.symbol⟩

namespace Operation

/-- `get_required_fee`. -/
def requiredFee (g : GenesisState) (inSymbol : AssetSymbol) : Operation → Exec Asset
  | custom _ _ _ data => getCustomFee g data.length inSymbol
  | customJson _ _ _ json => getCustomFee g json.length inSymbol
  | customBinary _ _ _ data => getCustomFee g data.length inSymbol
  | transfer _ _ _ _ | witnessStop _ | escrowTransfer _ _ _ _ _ _ _ _ _
  | escrowDispute _ _ _ _ _ | escrowRelease _ _ _ _ _ _ _ | escrowApprove _ _ _ _ _ _
  | applicationCreate _ _ _ _ _ | applicationUpdate _ _ _ _ _ _ | applicationDelete _ _
  | buyApplication _ _ | cancelApplicationBuying _ _ _ | virtual => pure (g.baseFeeIn inSymbol)
  | _ => pure ⟨0, inSymbol⟩

/-- `get_required_active_authorities`. -/
def requiredActiveAuthorities : Operation → List AccountName
  | transfer fromAccount _ amount _ => if amount.symbol ≠ vestsSymbol then [fromAccount] else []
  | accountUpdate account owner active _ _ =>
    if owner.isNone ∧ active.isNone then [account] else []
  | accountDelete _ | witnessSetProperties _ _ | recoverAccount _ _ _ | setResetAccount _ _ _
  | changeRecoveryAccount _ _ | virtual => []
  | adminWitnessUpdate _ _ _ _ | transferFromPromotionPool _ _ => [initMinerName]
  | op => [op.feePayer]

/-- `get_required_owner_authorities`. -/
def requiredOwnerAuthorities : Operation → List AccountName
  | transfer fromAccount _ amount _ => if amount.symbol = vestsSymbol then [fromAccount] else []
  | accountUpdate account owner active _ _ =>
    if owner.isSome ∨ active.isSome then [account] else []
  | accountDelete account => [account]
  | changeRecoveryAccount accountToRecover _ => [accountToRecover]
  | setResetAccount account currentResetAccount _ =>
    if currentResetAccount ≠ 0 then [account] else []
  | _ => []

/-- `get_required_authorities`. -/
def requiredOtherAuthorities : Operation → List Authority
  | witnessSetProperties _ props =>
    match props.key with
    | some key => [⟨1, [], [(key, 1)]⟩]
    | none => [⟨1, [(nullAccount, 1)], []⟩]
  | recoverAccount _ newOwnerAuthority recentOwnerAuthority =>
    [newOwnerAuthority, recentOwnerAuthority]
  | _ => []

end Operation

/-- `transaction::validate`. -/
def Transaction.validate (env : Env) (g : GenesisState) (trx : Transaction) : Exec Unit := do
  fcAssert (trx.operations.length > 0) "A transaction must have at least one operation"
  trx.operations.forM fun op ↦ op.op.validate env g

end SophiaTX.Protocol
