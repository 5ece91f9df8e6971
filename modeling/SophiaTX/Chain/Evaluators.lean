import SophiaTX.Chain.Balances

/-!
# Evaluators

`do_apply` of every operation. Custom operations may also run an interpreter of a plugin, which
keeps its own indexes and touches none of the core ones.
-/

namespace SophiaTX.Chain

open SophiaTX.Protocol

namespace Database

/-- Witnesses by descending votes, ties by name. -/
def witnessesByVote (s : Database) : List (AccountName × Witness) :=
  s.witnesses.entries.insertionSort fun a b ↦
    b.2.votes < a.2.votes ∨ (a.2.votes = b.2.votes ∧ a.1 ≤ b.1)

def assertPublicNet (s : Database) : Exec Unit :=
  fcAssert (s.dgp.privateNet = false) "This operation is not available in private nets"

/-! ## Transfers -/

def transferEvaluator (g : GenesisState) (s : Database) (fromAccount toAccount : AccountName)
    (amount : Asset) : Exec Database := do
  s.assertPublicNet
  let a ← s.getAccount fromAccount
  fcAssert (amount.symbol = g.symbol) "invalid symbol"
  fcAssert (amount.amount ≤ a.balance) "Account does not have sufficient funds for transfer."
  let s ← s.adjustBalance g fromAccount (← amount.neg)
  s.adjustBalance g toAccount amount

def transferToVestingEvaluator (g : GenesisState) (s : Database)
    (fromAccount toAccount : AccountName) (amount : Asset) : Exec Database := do
  s.assertPublicNet
  let a ← s.getAccount fromAccount
  let receiver := if toAccount ≠ 0 then toAccount else fromAccount
  let b ← s.getAccount receiver
  fcAssert (amount.symbol = g.symbol) "a.symbol == b.symbol"
  fcAssert (amount.amount ≤ a.balance) "Account does not have sufficient SOPHIATX for transfer."
  if a.id = b.id then
    s.vest fromAccount amount.amount
  else do
    let s ← s.adjustBalance g fromAccount (← amount.neg)
    let s ← s.adjustBalance g toAccount amount
    s.vest receiver amount.amount

/-- The daily payout of a withdrawal of `amount` vesting shares. -/
def vestingWithdrawRate (amount : ShareType) : Exec ShareType := do
  let rate ← safeDiv amount vestingWithdrawIntervals
  pure (if rate = 0 then 1 else rate)

/-- A witness with a signing key may not withdraw what it must hold. -/
def assertWitnessBond (s : Database) (account : AccountName) (vestingShares amount : ShareType) :
    Exec Unit :=
  match s.witnesses.find? account with
  | some w =>
    if w.signingKey = nullKey then pure ()
    else do
      let rest ← safeSub vestingShares amount
      fcAssert (s.dgp.witnessRequiredVesting ≤ rest) "witness_required_vesting"
  | none => pure ()

def withdrawVestingEvaluator (s : Database) (account : AccountName) (vestingShares : Asset) :
    Exec Database := do
  s.assertPublicNet
  let a ← s.getAccount account
  fcAssert (0 ≤ a.vestingShares) "Account does not have sufficient SophiaTX VESTS for withdraw."
  fcAssert (vestingShares.symbol = vestsSymbol) "a.symbol == b.symbol"
  fcAssert (vestingShares.amount ≤ a.vestingShares)
    "Account does not have sufficient SophiaTX VESTS for withdraw."
  if vestingShares.amount = 0 then do
    fcAssert (a.vestingWithdrawRate ≠ 0)
      "This operation would not change the vesting withdraw rate."
    pure (s.modifyAccount account fun a ↦ { a with
      vestingWithdrawRate := 0
      nextVestingWithdrawal := maximumTime
      toWithdraw := 0
      withdrawn := 0 })
  else do
    let rate ← vestingWithdrawRate vestingShares.amount
    fcAssert (a.vestingWithdrawRate ≠ rate)
      "This operation would not change the vesting withdraw rate."
    s.assertWitnessBond account a.vestingShares vestingShares.amount
    pure (s.modifyAccount account fun a ↦ { a with
      vestingWithdrawRate := rate
      nextVestingWithdrawal := timeAdd s.dgp.time vestingWithdrawIntervalSeconds
      toWithdraw := vestingShares.amount
      withdrawn := 0 })

def transferFromPromotionPoolEvaluator (g : GenesisState) (s : Database)
    (transferTo : AccountName) (amount : Asset) : Exec Database := do
  s.assertPublicNet
  let _ ← s.getAccount transferTo
  fcAssert (0 < amount.amount ∧ amount.symbol = g.symbol)
    "op.amount.amount > 0 && op.amount.symbol == SOPHIATX_SYMBOL"
  let (economics, withdrawn) ← s.economics.withdrawFromPromotionPool g amount.amount
    s.dgp.headBlockNumber
  let s := { s with economics := economics }
  let s ← s.adjustBalance g transferTo ⟨withdrawn, g.symbol⟩
  s.adjustSupply g ⟨withdrawn, g.symbol⟩

/-! ## Escrow -/

def escrowTransferEvaluator (g : GenesisState) (s : Database)
    (fromAccount toAccount agent : AccountName) (escrowId : ℕ) (sophiatxAmount escrowFee : Asset)
    (ratificationDeadline escrowExpiration : Time) : Exec Database := do
  s.assertPublicNet
  let a ← s.getAccount fromAccount
  let _ ← s.getAccount toAccount
  let _ ← s.getAccount agent
  fcAssert (s.dgp.time < ratificationDeadline)
    "The escorw ratification deadline must be after head block time."
  fcAssert (s.dgp.time < escrowExpiration) "The escrow expiration must be after head block time."
  let spent ← (if escrowFee.symbol = g.symbol then sophiatxAmount.add escrowFee
    else pure sophiatxAmount)
  fcAssert (spent.symbol = g.symbol) "a.symbol == b.symbol"
  fcAssert (spent.amount ≤ a.balance) "Account cannot cover SOPHIATX costs of escrow."
  let s ← s.adjustBalance g fromAccount (← spent.neg)
  let escrows ← createRow s.escrows (fromAccount, escrowId) {
    toAccount := toAccount
    agent := agent
    ratificationDeadline := ratificationDeadline
    escrowExpiration := escrowExpiration
    sophiatxBalance := sophiatxAmount
    pendingFee := escrowFee
    toApproved := false
    agentApproved := false
    disputed := false }
  pure { s with escrows := escrows }

/-- Both amounts of an escrow go back to its sender and the escrow is removed. -/
def refundEscrow (g : GenesisState) (s : Database) (key : AccountName × ℕ) (e : Escrow) :
    Exec Database := do
  let s ← s.adjustBalance g key.1 e.sophiatxBalance
  let s ← s.adjustBalance g key.1 e.pendingFee
  pure { s with escrows := s.escrows.erase key }

def escrowApproveEvaluator (g : GenesisState) (s : Database)
    (fromAccount toAccount agent who : AccountName) (escrowId : ℕ) (approve : Bool) :
    Exec Database := do
  s.assertPublicNet
  let key := (fromAccount, escrowId)
  let e ← s.getEscrow fromAccount escrowId
  fcAssert (e.toAccount = toAccount) "Operation 'to' does not match escrow 'to'."
  fcAssert (e.agent = agent) "Operation 'agent' does not match escrow 'agent'."
  fcAssert (s.dgp.time ≤ e.ratificationDeadline)
    "The escrow ratification deadline has passed-> Escrow can no longer be ratified->"
  fcAssert (who = toAccount → e.toApproved = false)
    "Account 'to' has already approved the escrow."
  fcAssert (who = agent → e.agentApproved = false)
    "Account 'agent' has already approved the escrow."
  if approve = false then
    s.refundEscrow g key e
  else do
    let e := { e with
      toApproved := e.toApproved || decide (who = toAccount)
      agentApproved := e.agentApproved || decide (who = agent) }
    if e.isApproved then do
      let s ← s.adjustBalance g agent e.pendingFee
      pure (s.modifyEscrow key fun _ ↦ { e with pendingFee := ⟨0, e.pendingFee.symbol⟩ })
    else
      pure (s.modifyEscrow key fun _ ↦ e)

def escrowDisputeEvaluator (s : Database) (fromAccount toAccount agent : AccountName)
    (escrowId : ℕ) : Exec Database := do
  s.assertPublicNet
  let _ ← s.getAccount fromAccount
  let e ← s.getEscrow fromAccount escrowId
  fcAssert (s.dgp.time < e.escrowExpiration) "Disputing the escrow must happen before expiration."
  fcAssert (e.isApproved = true)
    "The escrow must be approved by all parties before a dispute can be raised."
  fcAssert (e.disputed = false) "The escrow is already under dispute."
  fcAssert (e.toAccount = toAccount) "Operation 'to' does not match escrow 'to'."
  fcAssert (e.agent = agent) "Operation 'agent' does not match escrow 'agent'."
  pure (s.modifyEscrow (fromAccount, escrowId) fun _ ↦ { e with disputed := true })

/-- Who may release funds of an escrow to whom. -/
def assertReleaseAllowed (s : Database) (e : Escrow) (fromAccount who receiver : AccountName) :
    Exec Unit :=
  if e.disputed then
    fcAssert (who = e.agent) "Only 'agent' can release funds in a disputed escrow."
  else do
    fcAssert (who = fromAccount ∨ who = e.toAccount)
      "Only 'from' and 'to' can release funds from a non-disputed escrow"
    if s.dgp.time < e.escrowExpiration then
      if who = fromAccount then
        fcAssert (receiver = e.toAccount) "Only 'from' can release funds to 'to'."
      else
        fcAssert (receiver = fromAccount) "Only 'to' can release funds to 'from'."
    else pure ()

def escrowReleaseEvaluator (g : GenesisState) (s : Database)
    (fromAccount toAccount agent who receiver : AccountName) (escrowId : ℕ)
    (sophiatxAmount : Asset) : Exec Database := do
  s.assertPublicNet
  let _ ← s.getAccount fromAccount
  let key := (fromAccount, escrowId)
  let e ← s.getEscrow fromAccount escrowId
  fcAssert (e.sophiatxBalance.symbol = sophiatxAmount.symbol) "a.symbol == b.symbol"
  fcAssert (sophiatxAmount.amount ≤ e.sophiatxBalance.amount)
    "Release amount exceeds escrow balance."
  fcAssert (e.toAccount = toAccount) "Operation 'to' does not match escrow 'to'."
  fcAssert (e.agent = agent) "Operation 'agent' does not match escrow 'agent'."
  fcAssert (receiver = fromAccount ∨ receiver = e.toAccount)
    "Funds must be released to 'from' or 'to'"
  fcAssert (e.isApproved = true) "Funds cannot be released prior to escrow approval."
  s.assertReleaseAllowed e fromAccount who receiver
  let s ← s.adjustBalance g receiver sophiatxAmount
  let rest ← e.sophiatxBalance.sub sophiatxAmount
  if rest.amount = 0 then
    pure { s with escrows := s.escrows.erase key }
  else
    pure (s.modifyEscrow key fun _ ↦ { e with sophiatxBalance := rest })

/-! ## Accounts -/

def verifyAuthorityAccountsExist (s : Database) (auth : Authority) : Exec Unit :=
  auth.accountAuths.forM fun item ↦
    fcAssert ((s.accounts.find? item.1).isSome = true)
      "New authority on account references non-existing account"

/-- The account creation fee in force. -/
def requiredCreationFee (s : Database) : ShareType :=
  if s.dgp.privateNet then 0 else s.wso.medianProps.accountCreationFee.amount

def accountCreateEvaluator (ctx : Context) (s : Database) (fee : Asset) (creator : AccountName)
    (nameSeed : Bytes) (owner active : Authority) (memoKey : PublicKey) (jsonMetadata : Bytes) :
    Exec Database := do
  let g := ctx.genesis
  let a ← s.getAccount creator
  let newAccountName := ctx.env.makeRandomFixedString nameSeed
  let toPay ← s.feeToPay g fee
  fcAssert (s.hasHardfork 1 → nameSeed.length ≤ maxNameSeedSize) "Name seed is too large"
  fcAssert (toPay.symbol = g.symbol) "a.symbol == b.symbol"
  fcAssert (toPay.amount ≤ a.balance) "Insufficient balance to create account."
  let requiredFee := s.requiredCreationFee
  fcAssert (requiredFee ≤ toPay.amount) "Insufficient Fee"
  let excessFee ← safeSub toPay.amount requiredFee
  s.verifyAuthorityAccountsExist owner
  s.verifyAuthorityAccountsExist active
  let accounts ← createRow s.accounts newAccountName { Account.fresh s.accounts.size with
    memoKey := memoKey
    created := s.dgp.time
    mined := false
    recoveryAccount := creator
    jsonMetadata := jsonMetadata }
  let authorities ← createRow s.authorities newAccountName ⟨owner, active, 0⟩
  let s := { s with accounts := accounts, authorities := authorities }
  let s ← (if 0 < requiredFee then s.payFee g creator ⟨requiredFee, g.symbol⟩ else pure s)
  if 0 < excessFee then do
    let s ← s.adjustBalance g newAccountName ⟨excessFee, g.symbol⟩
    s.adjustBalance g creator ⟨← safeNeg excessFee, g.symbol⟩
  else
    pure s

/-- `update_owner_authority`. -/
def updateOwnerAuthority (s : Database) (account : AccountName) (owner : Authority) :
    Exec Database := do
  let auth ← s.getAuthority account
  pure { s with
    ownerHistories := s.ownerHistories ++ [⟨account, auth.owner, s.dgp.time⟩]
    authorities := s.authorities.modify account fun auth ↦
      { auth with owner := owner, lastOwnerUpdate := s.dgp.time } }

/-- Owner authorities change at most once in `SOPHIATX_OWNER_UPDATE_LIMIT`. -/
def assertOwnerUpdateLimit (s : Database) (lastUpdate : Time) : Exec Unit :=
  fcAssert (lastUpdate + ownerUpdateLimit < s.dgp.time)
    "Owner authority can only be updated once an hour."

def updateOwner (s : Database) (account : AccountName) (auth : AccountAuthority) :
    Option Authority → Exec Database
  | some owner => do
    s.assertOwnerUpdateLimit auth.lastOwnerUpdate
    s.verifyAuthorityAccountsExist owner
    s.updateOwnerAuthority account owner
  | none => pure s

def verifyActive (s : Database) : Option Authority → Exec Unit
  | some active => s.verifyAuthorityAccountsExist active
  | none => pure ()

def updateActive (s : Database) (account : AccountName) : Option Authority → Database
  | some active =>
    { s with authorities := s.authorities.modify account fun auth ↦ { auth with active := active } }
  | none => s

def accountUpdateEvaluator (s : Database) (account : AccountName) (owner active : Option Authority)
    (memoKey : PublicKey) (jsonMetadata : Bytes) : Exec Database := do
  fcAssert (account ≠ tempAccount) "Cannot update temp account."
  let _ ← s.getAccount account
  let auth ← s.getAuthority account
  let s ← s.updateOwner account auth owner
  s.verifyActive active
  let s := s.modifyAccount account fun a ↦ { a with
    memoKey := if memoKey ≠ nullKey then memoKey else a.memoKey
    lastAccountUpdate := s.dgp.time
    jsonMetadata := if jsonMetadata.length > 0 then jsonMetadata else a.jsonMetadata }
  pure (s.updateActive account active)

/-- The JSON metadata of a deleted account. -/
def deletedAccountMetadata : Bytes := "\x7b\"deleted_account\"\x7d".toUTF8.toList

def accountDeleteEvaluator (s : Database) (account : AccountName) : Exec Database := do
  fcAssert (account ≠ tempAccount) "Cannot update temp account."
  let _ ← s.getAccount account
  let auth ← s.getAuthority account
  let nobody : Authority := ⟨1, [], [(nullKey, 1)]⟩
  s.assertOwnerUpdateLimit auth.lastOwnerUpdate
  let s ← s.updateOwnerAuthority account nobody
  let s := s.modifyAccount account fun a ↦ { a with
    memoKey := nullKey
    lastAccountUpdate := s.dgp.time
    jsonMetadata := deletedAccountMetadata }
  pure { s with authorities := s.authorities.modify account fun auth ↦
    { auth with active := nobody } }

/-- An account without a recovery account is recovered by the top witness. -/
def assertRecoveryAccount (s : Database) (a : Account) (recoveryAccount : AccountName) :
    Exec Unit :=
  if a.recoveryAccount ≠ 0 then
    fcAssert (a.recoveryAccount = recoveryAccount)
      "Cannot recover an account that does not have you as there recovery partner."
  else
    fcAssert ((s.witnessesByVote.head?.map Prod.fst) = some recoveryAccount)
      "Top witness must recover an account with no recovery partner."

def requestAccountRecoveryEvaluator (s : Database) (recoveryAccount accountToRecover : AccountName)
    (newOwnerAuthority : Authority) : Exec Database := do
  let a ← s.getAccount accountToRecover
  s.assertRecoveryAccount a recoveryAccount
  let request : AccountRecoveryRequest :=
    ⟨newOwnerAuthority, timeAdd s.dgp.time accountRecoveryRequestExpirationPeriod⟩
  let assertAccountsExist : Exec Unit := newOwnerAuthority.accountAuths.forM fun item ↦ do
    let _ ← s.getAccount item.1
  match s.recoveryRequests.find? accountToRecover with
  | none => do
    fcAssert (¬ newOwnerAuthority.isImpossible) "Cannot recover using an impossible authority."
    fcAssert (newOwnerAuthority.weightThreshold ≠ 0) "Cannot recover using an open authority."
    assertAccountsExist
    let requests ← createRow s.recoveryRequests accountToRecover request
    pure { s with recoveryRequests := requests }
  | some _ =>
    if newOwnerAuthority.weightThreshold = 0 then
      pure { s with recoveryRequests := s.recoveryRequests.erase accountToRecover }
    else do
      fcAssert (¬ newOwnerAuthority.isImpossible) "Cannot recover using an impossible authority."
      assertAccountsExist
      pure { s with
        recoveryRequests := s.recoveryRequests.modify accountToRecover fun _ ↦ request }

def recoverAccountEvaluator (s : Database) (accountToRecover : AccountName)
    (newOwnerAuthority recentOwnerAuthority : Authority) : Exec Database := do
  let a ← s.getAccount accountToRecover
  s.assertOwnerUpdateLimit a.lastAccountRecovery
  match s.recoveryRequests.find? accountToRecover with
  | none => .error (.assertion "There are no active recovery requests for this account.")
  | some request => do
    fcAssert (request.newOwnerAuthority = newOwnerAuthority)
      "New owner authority does not match recovery request."
    fcAssert (∃ hist ∈ s.ownerHistories, hist.account = accountToRecover ∧
      hist.previousOwnerAuthority = recentOwnerAuthority)
      "Recent authority not found in authority history."
    let s := { s with recoveryRequests := s.recoveryRequests.erase accountToRecover }
    let s ← s.updateOwnerAuthority accountToRecover newOwnerAuthority
    pure (s.modifyAccount accountToRecover fun a ↦ { a with lastAccountRecovery := s.dgp.time })

def changeRecoveryAccountEvaluator (s : Database)
    (accountToRecover newRecoveryAccount : AccountName) : Exec Database := do
  let _ ← s.getAccount newRecoveryAccount
  let a ← s.getAccount accountToRecover
  let request : ChangeRecoveryAccountRequest :=
    ⟨newRecoveryAccount, timeAdd s.dgp.time ownerAuthRecoveryPeriod⟩
  match s.changeRecoveryRequests.find? accountToRecover with
  | none => do
    let requests ← createRow s.changeRecoveryRequests accountToRecover request
    pure { s with changeRecoveryRequests := requests }
  | some _ =>
    if a.recoveryAccount ≠ newRecoveryAccount then
      pure { s with
        changeRecoveryRequests := s.changeRecoveryRequests.modify accountToRecover fun _ ↦ request }
    else
      pure { s with changeRecoveryRequests := s.changeRecoveryRequests.erase accountToRecover }

def resetAccountEvaluator (s : Database) (resetter accountToReset : AccountName)
    (newOwnerAuthority : Authority) : Exec Database := do
  let a ← s.getAccount accountToReset
  fcAssert (a.resetAccount = resetter) "Reset account does not match reset account on account."
  s.updateOwnerAuthority accountToReset newOwnerAuthority

def setResetAccountEvaluator (s : Database) (account currentResetter resetter : AccountName) :
    Exec Database := do
  let a ← s.getAccount account
  let _ ← s.getAccount resetter
  fcAssert (a.resetAccount = currentResetter)
    "Current reset account does not match reset account on account."
  fcAssert (a.resetAccount ≠ resetter) "Reset account must change"
  pure (s.modifyAccount account fun a ↦ { a with resetAccount := resetter })

/-! ## Witnesses and votes -/

def witnessStopEvaluator (s : Database) (owner : AccountName) : Exec Database := do
  let _ ← s.getAccount owner
  pure (s.modifyWitness owner fun w ↦ { w with signingKey := nullKey })

/-- A published rate with SPHTX as its base. -/
def rateInBase (g : GenesisState) (rate : Price) : Price :=
  if rate.base.symbol = g.symbol then rate else rate.swap

def setExchangeRate (rates : List (AssetSymbol × SubmittedExchangeRate)) (symbol : AssetSymbol)
    (rate : SubmittedExchangeRate) : List (AssetSymbol × SubmittedExchangeRate) :=
  (symbol, rate) :: rates.filter fun entry ↦ decide (entry.1 ≠ symbol)

/-- Rates published at a time, each under its own symbol. -/
def publishRates (w : Witness) (time : Time) (rates : List (AssetSymbol × Price)) : Witness :=
  { w with
    submittedExchangeRates := rates.foldl
      (fun published feed ↦ setExchangeRate published feed.1 ⟨feed.2, time⟩)
      w.submittedExchangeRates }

/-- The new key, URL and properties of a witness; prices are kept elsewhere. -/
def updateWitness (w : Witness) (url : Bytes) (key : PublicKey) (props : ChainProperties) :
    Witness :=
  { w with
    url := url
    signingKey := key
    stopped := w.stopped || decide (key = nullKey)
    props := { props with priceFeeds := [] } }

def createWitness (g : GenesisState) (s : Database) (owner : AccountName) (url : Bytes)
    (key : PublicKey) (props : ChainProperties) : Exec Database := do
  let witnesses ← createRow s.witnesses owner { Witness.fresh g s.witnesses.size with
    url := url
    signingKey := key
    created := s.dgp.time
    props := { props with priceFeeds := [] } }
  pure { s with witnesses := witnesses }

/-- The update of a witness in a private net, where accounts are created for free. -/
def updatePrivateWitness (g : GenesisState) (w : Witness) (url : Bytes) (key : PublicKey)
    (props : ChainProperties) : Witness :=
  updateWitness w url key { props with accountCreationFee := ⟨0, g.symbol⟩ }

def witnessUpdateEvaluator (ctx : Context) (s : Database) (owner : AccountName) (url : Bytes)
    (blockSigningKey : PublicKey) (props : ChainProperties) : Exec Database := do
  let g := ctx.genesis
  if s.dgp.privateNet then do
    fcAssert ((s.witnesses.find? owner).isSome = true) "only initminer can select witnesses"
    pure (s.modifyWitness owner fun w ↦ updatePrivateWitness g w url blockSigningKey props)
  else do
    let a ← s.getAccount owner
    fcAssert (s.dgp.witnessRequiredVesting ≤ a.vestingShares)
      "witness requires at least this much of vested balance"
    fcAssert (ctx.producing = true → props.maximumBlockSize ≤ g.maximumBlockSize)
      "o.props.maximum_block_size <= SOPHIATX_MAX_BLOCK_SIZE"
    match s.witnesses.find? owner with
    | some _ =>
      pure (s.modifyWitness owner fun w ↦
        publishRates (updateWitness w url blockSigningKey props) s.dgp.time
          (props.priceFeeds.map fun feed ↦ (feed.1, rateInBase g feed.2)))
    | none => s.createWitness g owner url blockSigningKey props

def adminWitnessUpdateEvaluator (g : GenesisState) (s : Database) (owner : AccountName)
    (url : Bytes) (blockSigningKey : PublicKey) (props : ChainProperties) : Exec Database := do
  fcAssert (s.dgp.privateNet = true) "this operation can be used only in private nets"
  match s.witnesses.find? owner with
  | none => s.createWitness g owner url blockSigningKey props
  | some _ =>
    pure (s.modifyWitness owner fun w ↦ updatePrivateWitness g w url blockSigningKey props)

def witnessSetPropertiesEvaluator (g : GenesisState) (s : Database) (owner : AccountName)
    (props : WitnessProperties) : Exec Database := do
  let w ← s.getWitness owner
  fcAssert (props.key = some w.signingKey) "'key' does not match witness signing key."
  fcAssert (props.maximumBlockSize.getD 0 ≤ g.maximumBlockSize)
    "props.maximum_block_size <= SOPHIATX_MAX_BLOCK_SIZE"
  let accountCreationFee := if s.dgp.privateNet then none else props.accountCreationFee
  let exchangeRates := if s.dgp.privateNet then none else props.exchangeRates
  let rates := (exchangeRates.getD []).map (rateInBase g)
  pure (s.modifyWitness owner fun w ↦
    publishRates { w with
      props := { w.props with
        accountCreationFee := accountCreationFee.getD w.props.accountCreationFee
        maximumBlockSize := props.maximumBlockSize.getD w.props.maximumBlockSize }
      signingKey := props.newSigningKey.getD w.signingKey
      url := props.url.getD w.url } s.dgp.time (rates.map fun rate ↦ (rate.quote.symbol, rate)))

def feedPublishEvaluator (g : GenesisState) (s : Database) (publisher : AccountName)
    (exchangeRate : Price) : Exec Database := do
  s.assertPublicNet
  let rate := rateInBase g exchangeRate
  let _ ← s.getWitness publisher
  pure (s.modifyWitness publisher fun w ↦ publishRates w s.dgp.time [(rate.quote.symbol, rate)])

/-- The loop of the proxy evaluator that follows the new chain. Every round makes the chain one
longer, so the limit on its length also bounds the rounds. -/
def checkProxyChain (s : Database) : ℕ → List ℕ → Account → Exec Unit
  | 0, _, _ => .error (.assertion "Proxy chain is too long.")
  | rounds + 1, proxyChain, proxy =>
    if proxy.proxy ≠ proxyToSelfAccount then do
      let next ← s.getAccount proxy.proxy
      fcAssert (next.id ∉ proxyChain) "This proxy would create a proxy loop."
      fcAssert (proxyChain.length + 1 ≤ maxProxyRecursionDepth) "Proxy chain is too long."
      checkProxyChain s rounds (next.id :: proxyChain) next
    else
      pure ()

/-- The votes an account moves when its proxy changes, negated: its own weight and the weight
at every distance behind it. -/
def removedVotes (a : Account) : Exec VoteDeltas := do
  let total ← safeAdd a.balance a.vestingShares
  VoteDeltas.neg (Fin.cons total a.proxiedVsfVotes)

def accountWitnessProxyEvaluator (s : Database) (account proxy : AccountName) :
    Exec Database := do
  s.assertPublicNet
  let a ← s.getAccount account
  fcAssert (a.proxy ≠ proxy) "Proxy must change."
  let delta ← removedVotes a
  let s ← adjustProxiedWitnessVotesArray delta maxProxyRecursionDepth account s
  if proxy ≠ 0 then do
    let newProxy ← s.getAccount proxy
    s.checkProxyChain (maxProxyRecursionDepth + 1) [a.id, newProxy.id].dedup newProxy
    let s := s.clearWitnessVotes account
    let s := s.modifyAccount account fun a ↦ { a with proxy := proxy }
    let delta ← delta.neg
    adjustProxiedWitnessVotesArray delta maxProxyRecursionDepth account s
  else
    pure (s.modifyAccount account fun a ↦ { a with proxy := proxy })

def accountWitnessVoteEvaluator (g : GenesisState) (s : Database) (account witness : AccountName)
    (approve : Bool) : Exec Database := do
  s.assertPublicNet
  let voter ← s.getAccount account
  fcAssert (voter.proxy = proxyToSelfAccount)
    "A proxy is currently set, please clear the proxy before voting for a witness."
  let _ ← s.getWitness witness
  match s.witnessVotes.find? (account, witness) with
  | none => do
    fcAssert (approve = true) "Vote doesn't exist, user must indicate a desire to approve witness."
    fcAssert (voter.witnessesVotedFor < g.maxAccountWitnessVotes)
      "Account has voted for too many witnesses."
    let votes ← createRow s.witnessVotes (account, witness) ()
    let s := { s with witnessVotes := votes }
    let weight ← voter.witnessVoteWeight
    let s ← s.adjustWitnessVote witness weight
    pure (s.modifyAccount account fun a ↦
      { a with witnessesVotedFor := (a.witnessesVotedFor + 1) % 65536 })
  | some _ => do
    fcAssert (approve = false)
      "Vote currently exists, user must indicate a desire to reject witness."
    let weight ← safeNeg (← voter.witnessVoteWeight)
    let s ← s.adjustWitnessVote witness weight
    let s := s.modifyAccount account fun a ↦
      { a with witnessesVotedFor := (a.witnessesVotedFor + 65535) % 65536 }
    pure { s with witnessVotes := s.witnessVotes.erase (account, witness) }

/-! ## Messages, applications, sponsors -/

/-- One more than the largest sequence number among the selected contents. Its 64 bits would wrap
only after as many objects. -/
def nextSequence (contents : List CustomContent) (select : CustomContent → Bool)
    (sequence : CustomContent → ℕ) : ℕ :=
  ((contents.filter select).map sequence).foldl max 0 + 1

/-- The custom contents of a message, one object per recipient. -/
def customContentEvaluator (s : Database) (binary : Bool) (sender : AccountName)
    (recipients : List AccountName) (appId : ℕ) (payload : Bytes) : Database :=
  let senderSequence := nextSequence s.customContents
    (fun c ↦ decide (c.sender = sender ∧ c.appId = appId)) CustomContent.senderSequence
  let appMessageSequence := nextSequence s.customContents
    (fun c ↦ decide (c.appId = appId)) CustomContent.appMessageSequence
  let contents := recipients.foldl (fun contents recipient ↦ contents ++ [{
      binary := binary
      payload := payload
      appId := appId
      sender := sender
      recipient := recipient
      allRecipients := recipients
      senderSequence := senderSequence
      recipientSequence := nextSequence contents
        (fun c ↦ decide (c.recipient = recipient ∧ c.appId = appId)) CustomContent.recipientSequence
      appMessageSequence := appMessageSequence
      received := s.dgp.time }]) s.customContents
  { s with customContents := contents }

def getApplication (s : Database) (name : Bytes) : Exec Application :=
  orUnknownKey (s.applications.find? (.ofString name))

def getApplicationById (s : Database) (id : ℤ) : Exec Application :=
  orUnknownKey ((s.applications.entries.find? fun entry ↦ decide ((entry.2.id : ℤ) = id)).map
    Prod.snd)

def applicationCreateEvaluator (s : Database) (author : AccountName) (name url metadata : Bytes)
    (priceParam : ℕ) : Exec Database := do
  let _ ← s.getAccount author
  let applications ← createRow s.applications (.ofString name)
    ⟨s.nextApplicationId, author, url, metadata, priceParam⟩
  pure { s with applications := applications, nextApplicationId := s.nextApplicationId + 1 }

def assertNewAuthor (s : Database) : Option AccountName → Exec Unit
  | some newAuthor => do
    let _ ← s.getAccount newAuthor
    let _ ← s.getAuthority newAuthor
    pure ()
  | none => pure ()

def applicationUpdateEvaluator (s : Database) (author : AccountName)
    (newAuthor : Option AccountName) (name url metadata : Bytes) (priceParam : Option ℕ) :
    Exec Database := do
  let app ← s.getApplication name
  s.assertNewAuthor newAuthor
  fcAssert (app.author = author) "Provided author is not this application author"
  pure { s with applications := s.applications.modify (.ofString name) fun app ↦ { app with
    author := newAuthor.getD app.author
    priceParam := priceParam.getD app.priceParam
    metadata := if metadata.length > 0 then metadata else app.metadata
    url := if url.length > 0 then url else app.url } }

def applicationDeleteEvaluator (s : Database) (author : AccountName) (name : Bytes) :
    Exec Database := do
  let app ← s.getApplication name
  fcAssert (app.author = author) "Provided author is not this applcation author"
  pure { s with
    applicationBuyings := s.applicationBuyings.filterRows fun key _ ↦ decide (key.2 ≠ app.id)
    applications := s.applications.erase (.ofString name) }

def buyApplicationEvaluator (s : Database) (buyer : AccountName) (appId : ℤ) : Exec Database := do
  s.assertPublicNet
  let _ ← s.getApplicationById appId
  fcAssert ((s.applicationBuyings.find? (buyer, appId)).isNone = true) "This buying already exisit"
  let buyings ← createRow s.applicationBuyings (buyer, appId) s.dgp.time
  pure { s with applicationBuyings := buyings }

def cancelApplicationBuyingEvaluator (s : Database) (appOwner buyer : AccountName) (appId : ℤ) :
    Exec Database := do
  s.assertPublicNet
  let app ← s.getApplicationById appId
  let _ ← orUnknownKey (s.applicationBuyings.find? (buyer, appId))
  fcAssert (app.author = appOwner) "Provided app author is not this applcation author"
  pure { s with applicationBuyings := s.applicationBuyings.erase (buyer, appId) }

def sponsorFeesEvaluator (s : Database) (sponsor sponsored : AccountName) (isSponsoring : Bool) :
    Exec Database := do
  s.assertPublicNet
  if sponsor = 0 then do
    let _ ← orUnknownKey (s.sponsors.find? sponsored)
    pure { s with sponsors := s.sponsors.erase sponsored }
  else do
    let _ ← s.getAccount sponsor
    let _ ← s.getAccount sponsored
    if isSponsoring then do
      fcAssert ((s.sponsors.find? sponsored).isNone = true) "This account is already sponsored"
      let sponsors ← createRow s.sponsors sponsored sponsor
      pure { s with sponsors := sponsors }
    else do
      fcAssert (s.sponsors.find? sponsored = some sponsor) "You are not sponsoring this account"
      pure { s with sponsors := s.sponsors.erase sponsored }

/-! ## Dispatch -/

/-- `do_apply` of the evaluator registered for an operation. -/
def evaluate (ctx : Context) (s : Database) (fee : Asset) : Operation → Exec Database
  | .transfer fromAccount toAccount amount _ =>
    s.transferEvaluator ctx.genesis fromAccount toAccount amount
  | .transferToVesting fromAccount toAccount amount =>
    s.transferToVestingEvaluator ctx.genesis fromAccount toAccount amount
  | .withdrawVesting account vestingShares => s.withdrawVestingEvaluator account vestingShares
  | .feedPublish publisher exchangeRate => s.feedPublishEvaluator ctx.genesis publisher exchangeRate
  | .accountCreate creator nameSeed owner active memoKey jsonMetadata =>
    s.accountCreateEvaluator ctx fee creator nameSeed owner active memoKey jsonMetadata
  | .accountUpdate account owner active memoKey jsonMetadata =>
    s.accountUpdateEvaluator account owner active memoKey jsonMetadata
  | .accountDelete account => s.accountDeleteEvaluator account
  | .witnessUpdate owner url blockSigningKey props =>
    s.witnessUpdateEvaluator ctx owner url blockSigningKey props
  | .witnessStop owner => s.witnessStopEvaluator owner
  | .accountWitnessVote account witness approve =>
    s.accountWitnessVoteEvaluator ctx.genesis account witness approve
  | .accountWitnessProxy account proxy => s.accountWitnessProxyEvaluator account proxy
  | .witnessSetProperties owner props => s.witnessSetPropertiesEvaluator ctx.genesis owner props
  | .custom _ _ _ _ => pure s
  | .customJson sender recipients appId json =>
    pure (s.customContentEvaluator false sender recipients appId json)
  | .customBinary sender recipients appId data =>
    pure (s.customContentEvaluator true sender recipients appId data)
  | .requestAccountRecovery recoveryAccount accountToRecover newOwnerAuthority =>
    s.requestAccountRecoveryEvaluator recoveryAccount accountToRecover newOwnerAuthority
  | .recoverAccount accountToRecover newOwnerAuthority recentOwnerAuthority =>
    s.recoverAccountEvaluator accountToRecover newOwnerAuthority recentOwnerAuthority
  | .changeRecoveryAccount accountToRecover newRecoveryAccount =>
    s.changeRecoveryAccountEvaluator accountToRecover newRecoveryAccount
  | .escrowTransfer fromAccount toAccount agent escrowId sophiatxAmount escrowFee
      ratificationDeadline escrowExpiration _ =>
    s.escrowTransferEvaluator ctx.genesis fromAccount toAccount agent escrowId sophiatxAmount
      escrowFee ratificationDeadline escrowExpiration
  | .escrowDispute fromAccount toAccount agent _ escrowId =>
    s.escrowDisputeEvaluator fromAccount toAccount agent escrowId
  | .escrowRelease fromAccount toAccount agent who receiver escrowId sophiatxAmount =>
    s.escrowReleaseEvaluator ctx.genesis fromAccount toAccount agent who receiver escrowId
      sophiatxAmount
  | .escrowApprove fromAccount toAccount agent who escrowId approve =>
    s.escrowApproveEvaluator ctx.genesis fromAccount toAccount agent who escrowId approve
  | .resetAccount resetter accountToReset newOwnerAuthority =>
    s.resetAccountEvaluator resetter accountToReset newOwnerAuthority
  | .setResetAccount account currentResetter resetter =>
    s.setResetAccountEvaluator account currentResetter resetter
  | .applicationCreate author name url metadata priceParam =>
    s.applicationCreateEvaluator author name url metadata priceParam
  | .applicationUpdate author newAuthor name url metadata priceParam =>
    s.applicationUpdateEvaluator author newAuthor name url metadata priceParam
  | .applicationDelete author name => s.applicationDeleteEvaluator author name
  | .buyApplication buyer appId => s.buyApplicationEvaluator buyer appId
  | .cancelApplicationBuying appOwner buyer appId =>
    s.cancelApplicationBuyingEvaluator appOwner buyer appId
  | .transferFromPromotionPool transferTo amount =>
    s.transferFromPromotionPoolEvaluator ctx.genesis transferTo amount
  | .sponsorFees sponsor sponsored isSponsoring =>
    s.sponsorFeesEvaluator sponsor sponsored isSponsoring
  | .adminWitnessUpdate owner url blockSigningKey props =>
    s.adminWitnessUpdateEvaluator ctx.genesis owner url blockSigningKey props
  | .virtual => .error (.assertion "No registered evaluator for this operation")

/-- `apply_operation`: the fee first, then the evaluator. -/
def applyOperation (ctx : Context) (s : Database) (op : FeeOperation) : Exec Database := do
  let s ← s.processOperationFee ctx.genesis op
  s.evaluate ctx op.fee op.op

end Database

end SophiaTX.Chain
