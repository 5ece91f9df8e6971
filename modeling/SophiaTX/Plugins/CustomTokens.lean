import SophiaTX.Lib.Effects
import SophiaTX.Lib.Table
import SophiaTX.Protocol.Operations

/-!
# Custom tokens

The `custom_tokens` plugin reads its actions out of `custom_json` operations. It keeps the tokens,
what accounts hold of them, the operations it has taken and the errors it has met. Exceptions are
caught where the plugin is notified, and what has been written until then stays.
-/

namespace SophiaTX.Plugins

open SophiaTX.Protocol SophiaTX.Lib

/-- The symbol that errors without a token are filed under. -/
def noneSymbol : AssetSymbol := 0x454e4f4e

/-- The limit of a token that is created without one. -/
def uint64Max : UInt64 := 18446744073709551615

structure CustomToken where
  ownerName : AccountName
  totalSupply : UInt64
  maxSupply : UInt64
  burned : UInt64
  paused : Bool
deriving DecidableEq

structure CustomTokenAccount where
  amount : UInt64
  tokenSequence : UInt64
  accountSequence : UInt64
deriving DecidableEq

/-- An operation that changed a token, as one account sees it. -/
structure CustomTokenOperation where
  account : AccountName
  tokenSymbol : AssetSymbol
  block : ℕ
  trxId : ℕ
  timestamp : Time
  op : Operation
  tokenSequence : UInt64
  accountSequence : UInt64
deriving DecidableEq

structure CustomTokenError where
  tokenSymbol : AssetSymbol
  error : String
  tokenSequence : UInt64
deriving DecidableEq

/-- The indices of the plugin: tokens by symbol, holdings by symbol and account, and errors by the
transaction they happened in. -/
structure TokenTables where
  tokens : Table AssetSymbol CustomToken
  holdings : Table (AssetSymbol × AccountName) CustomTokenAccount
  operations : List CustomTokenOperation
  errors : Table ℕ CustomTokenError

def TokenTables.empty : TokenTables := ⟨.empty, .empty, [], .empty⟩

/-- Ways in which the handling of an operation ends early. A null pointer is no exception: what
happens to the process is undefined. -/
inductive TokenFailure where
  | assertion (message : String)
  | badJson
  | uniqueness
  | nullDereference
deriving DecidableEq

inductive TokenAction where
  | createToken
  | pauseToken
  | transferToken
  | burnToken
  | issueToken
  | other
deriving DecidableEq

/-- A JSON object as the plugin sees it through its accessors, each of which throws where it finds
no value, or one of another type. -/
structure TokenDocument where
  hasTokenSymbol : Bool
  action : Option TokenAction
  tokenSymbol : Option AssetSymbol
  totalSupply : Option UInt64
  hasMaxSupply : Bool
  maxSupply : Option UInt64
  amount : Option Asset
  additionalAmount : Option UInt64

/-- The application the plugin listens to, and its reading of JSON. -/
structure TokenPlugin where
  appId : ℕ
  read : Bytes → Option TokenDocument

/-- What the plugin is told of an operation. -/
structure Notification where
  trxId : ℕ
  block : ℕ
  time : Time
  op : Operation

abbrev TokenM := EStateM TokenFailure TokenTables

/-! ## The plugin -/

def orBadJson {α : Type} : Option α → TokenM α
  | some a => pure a
  | none => throw .badJson

/-- One more than the largest sequence number in use. -/
def nextSequence (sequences : List UInt64) : UInt64 :=
  match sequences.max? with
  | some last => last + 1
  | none => 1

/-- `save_token_error` without its clean-up, which alone reads the time of an error. A call that
returns has removed no error, as `TokenErrors.ends_saveTokenError_untimed` shows. -/
def saveTokenError (trxId : ℕ) (error : String) (tokenSymbol : AssetSymbol) : TokenM Unit := do
  let s ← get
  let ofToken := s.errors.entries.filter fun entry ↦ entry.2.tokenSymbol = tokenSymbol
  let sequence := nextSequence (ofToken.map fun entry ↦ entry.2.tokenSequence)
  match s.errors.emplace? trxId ⟨tokenSymbol, error, sequence⟩ with
  | some errors => set { s with errors := errors }
  | none => throw .uniqueness

/-- `FC_ASSERT` with a message that is saved. -/
def assertOrSave (p : Prop) [Decidable p] (trxId : ℕ) (error : String)
    (tokenSymbol : AssetSymbol) : TokenM Unit :=
  if p then pure () else do
    saveTokenError trxId error tokenSymbol
    throw (.assertion error)

def findToken (tokenSymbol : AssetSymbol) : TokenM (Option CustomToken) := do
  let s ← get
  pure (s.tokens.find? tokenSymbol)

/-- `token->`. -/
def derefToken : Option CustomToken → TokenM CustomToken
  | some token => pure token
  | none => throw .nullDereference

def insertToken (tokenSymbol : AssetSymbol) (token : CustomToken) : TokenM Unit := do
  let s ← get
  match s.tokens.emplace? tokenSymbol token with
  | some tokens => set { s with tokens := tokens }
  | none => throw .uniqueness

def modifyToken (tokenSymbol : AssetSymbol) (f : CustomToken → CustomToken) : TokenM Unit := do
  let s ← get
  set { s with tokens := s.tokens.modify tokenSymbol f }

def checkIfPaused (tokenSymbol : AssetSymbol) (trxId : ℕ) : TokenM Unit := do
  let token ← findToken tokenSymbol
  assertOrSave (token.isSome = true) trxId "No such a token!" tokenSymbol
  let token ← derefToken token
  assertOrSave (token.paused = false) trxId
    "Can to do any action with token, because it is paused!" tokenSymbol

/-- The row of an account that gets its first tokens. -/
def newTokenAccount (holdings : Table (AssetSymbol × AccountName) CustomTokenAccount)
    (name : AccountName) (tokenSymbol : AssetSymbol) (amount : UInt64) : CustomTokenAccount :=
  let ofToken := holdings.entries.filter fun entry ↦ entry.1.1 = tokenSymbol
  let ofAccount := holdings.entries.filter fun entry ↦ entry.1.2 = name
  ⟨amount, nextSequence (ofToken.map fun entry ↦ entry.2.tokenSequence),
    nextSequence (ofAccount.map fun entry ↦ entry.2.accountSequence)⟩

def addAccountTokens (name : AccountName) (tokenSymbol : AssetSymbol) (amount : UInt64) :
    TokenM Unit := do
  let s ← get
  match s.holdings.find? (tokenSymbol, name) with
  | some _ =>
    set { s with holdings := s.holdings.modify (tokenSymbol, name) fun row ↦
      { row with amount := row.amount + amount } }
  | none =>
    match s.holdings.emplace? (tokenSymbol, name)
      (newTokenAccount s.holdings name tokenSymbol amount) with
    | some holdings => set { s with holdings := holdings }
    | none => throw .uniqueness

def removeAccountTokens (name : AccountName) (tokenSymbol : AssetSymbol) (amount : UInt64)
    (trxId : ℕ) : TokenM Unit := do
  let s ← get
  let balance := s.holdings.find? (tokenSymbol, name)
  assertOrSave (balance.isSome = true) trxId "Account does not hold any of specified tokens!"
    tokenSymbol
  assertOrSave (∀ row ∈ balance, amount ≤ row.amount) trxId
    "Account does not hold enought tokens!" tokenSymbol
  let s ← get
  set { s with holdings := s.holdings.modify (tokenSymbol, name) fun row ↦
    { row with amount := row.amount - amount } }

/-- The tables with one more operation of a token and an account. -/
def TokenTables.logOperation (s : TokenTables) (account : AccountName) (tokenSymbol : AssetSymbol)
    (note : Notification) : TokenTables :=
  let ofToken := s.operations.filter fun row ↦ row.tokenSymbol = tokenSymbol
  let ofAccount := s.operations.filter fun row ↦ row.account = account
  let row : CustomTokenOperation :=
    ⟨account, tokenSymbol, note.block, note.trxId, note.time, note.op,
    nextSequence (ofToken.map fun row ↦ row.tokenSequence),
    nextSequence (ofAccount.map fun row ↦ row.accountSequence)⟩
  { s with operations := s.operations ++ [row] }

def saveTokenOperation (account : AccountName) (tokenSymbol : AssetSymbol) (note : Notification) :
    TokenM Unit := do
  let s ← get
  set (s.logOperation account tokenSymbol note)

/-- The value of an asset, a signed integer, as an unsigned one. -/
def tokenAmount (amount : Asset) : UInt64 := UInt64.ofNat (amount.amount % 2 ^ 64).toNat

def createToken (doc : TokenDocument) (sender : AccountName) (note : Notification) :
    TokenM Unit := do
  let tokenSymbol ← orBadJson doc.tokenSymbol
  assertOrSave (tokenSymbol ≠ noneSymbol) note.trxId "This token symbol can not be used!"
    tokenSymbol
  let token ← findToken tokenSymbol
  assertOrSave (token = none) note.trxId "Token already exist!" tokenSymbol
  let totalSupply ← orBadJson doc.totalSupply
  -- The constructor throws before the object is inserted.
  let maxSupply ← (if doc.hasMaxSupply then orBadJson doc.maxSupply else pure uint64Max)
  insertToken tokenSymbol ⟨sender, totalSupply, maxSupply, 0, false⟩
  addAccountTokens sender tokenSymbol totalSupply
  saveTokenOperation sender tokenSymbol note

def pauseToken (doc : TokenDocument) (sender : AccountName) (note : Notification) :
    TokenM Unit := do
  let tokenSymbol ← orBadJson doc.tokenSymbol
  let token ← findToken tokenSymbol
  let token ← derefToken token
  if token.ownerName = sender then
    modifyToken tokenSymbol fun token ↦ { token with paused := !token.paused }
    saveTokenOperation sender tokenSymbol note
  else
    pure ()

def transferToken (doc : TokenDocument) (sender : AccountName) (recipients : List AccountName)
    (note : Notification) : TokenM Unit := do
  let amount ← orBadJson doc.amount
  checkIfPaused amount.symbol note.trxId
  match recipients with
  | [] => assertOrSave False note.trxId "There is no recipient for tokens!" amount.symbol
  | recipient :: _ =>
    removeAccountTokens sender amount.symbol (tokenAmount amount) note.trxId
    addAccountTokens recipient amount.symbol (tokenAmount amount)
    saveTokenOperation sender amount.symbol note
    saveTokenOperation recipient amount.symbol note

def burnToken (doc : TokenDocument) (sender : AccountName) (note : Notification) :
    TokenM Unit := do
  let amount ← orBadJson doc.amount
  checkIfPaused amount.symbol note.trxId
  removeAccountTokens sender amount.symbol (tokenAmount amount) note.trxId
  saveTokenOperation sender amount.symbol note
  let token ← findToken amount.symbol
  if token.isSome then
    modifyToken amount.symbol fun token ↦ { token with burned := token.burned + tokenAmount amount }
  else
    pure ()

def issueToken (doc : TokenDocument) (sender : AccountName) (note : Notification) :
    TokenM Unit := do
  let tokenSymbol ← orBadJson doc.tokenSymbol
  checkIfPaused tokenSymbol note.trxId
  let additionalAmount ← orBadJson doc.additionalAmount
  let token ← findToken tokenSymbol
  assertOrSave (token.isSome = true) note.trxId "No such a token!" noneSymbol
  let token ← derefToken token
  if token.ownerName = sender ∧ token.totalSupply + additionalAmount < token.maxSupply then
    modifyToken tokenSymbol fun token ↦
      { token with totalSupply := token.totalSupply + additionalAmount }
    addAccountTokens sender tokenSymbol additionalAmount
    saveTokenOperation sender tokenSymbol note
  else
    pure ()

/-- The visitor on `custom_json` operations. -/
def TokenPlugin.handle (plugin : TokenPlugin) (note : Notification) (sender : AccountName)
    (recipients : List AccountName) (json : Bytes) : TokenM Unit := do
  assertOrSave (json ≠ []) note.trxId "Empty action for custom token!" noneSymbol
  let doc ← orBadJson (plugin.read json)
  assertOrSave (doc.hasTokenSymbol = true) note.trxId "Action field in json is missing!" noneSymbol
  let action ← orBadJson doc.action
  match action with
  | .createToken => createToken doc sender note
  | .pauseToken => pauseToken doc sender note
  | .transferToken => transferToken doc sender recipients note
  | .burnToken => burnToken doc sender note
  | .issueToken => issueToken doc sender note
  | .other => assertOrSave False note.trxId "Unknown action for custom token!" noneSymbol

def TokenPlugin.postOperation (plugin : TokenPlugin) (note : Notification) : TokenM Unit :=
  match note.op with
  | .customJson sender recipients appId json =>
    if appId = plugin.appId then plugin.handle note sender recipients json else pure ()
  | _ => pure ()

/-- The tables after a sequence of notifications. Exceptions are caught and what has been written
stays. -/
def TokenPlugin.tables (plugin : TokenPlugin) (notes : List Notification) : TokenTables :=
  notes.foldl (fun s note ↦ stateAfter (plugin.postOperation note) s) .empty

end SophiaTX.Plugins
