import SophiaTX.Lib.Effects
import SophiaTX.Lib.MultiIndex
import SophiaTX.Protocol.Operations

/-!
# Multiparty messaging

The `multiparty_messaging` plugin interprets `custom_json` operations. Groups are stored under the
name they were created with and under their current name, both of them unique; every group numbers
its messages. `custom_json_evaluator` catches exceptions of the interpreter, and what has been
written until then stays.
-/

namespace SophiaTX.Plugins

open SophiaTX.Protocol SophiaTX.Lib

/-- A `fc::sha256`; the default one is 0. -/
abbrev Digest := ℕ

structure Group where
  groupName : AccountName
  currentGroupName : AccountName
  description : Bytes
  members : List AccountName
  admin : AccountName
  groupKey : Digest
  currentSeq : UInt32
deriving DecidableEq

structure GroupMessage where
  sender : AccountName
  recipients : List AccountName
  data : Bytes
  systemMessage : Bool
deriving DecidableEq

inductive GroupIndexKey where
  | groupName (name : AccountName)
  | currentName (name : AccountName)
deriving DecidableEq

/-- The unique keys of `group_index`, apart from the id. -/
def groupKeys (g : Group) : List GroupIndexKey :=
  [.groupName g.groupName, .currentName g.currentGroupName]

/-- Groups by id, and messages by group and sequence number. -/
structure GroupTables where
  groups : MultiIndex groupKeys
  nextId : ℕ
  messages : Table (AccountName × UInt32) GroupMessage

def GroupTables.empty : GroupTables := ⟨⟨.empty, fun _ _ _ _ h ↦ by cases h⟩, 0, .empty⟩

/-- How the handling of an operation can end early. To dereference an empty `optional` is undefined
behaviour and no exception. -/
inductive GroupFailure where
  | assertion (message : String)
  | decoding
  | uniqueness
  | undefinedBehaviour
deriving DecidableEq

inductive GroupOpType where
  | add
  | disband
  | update
  | other
deriving DecidableEq

structure GroupOp where
  version : ℕ
  type : GroupOpType
  description : Bytes
  newGroupName : Option AccountName
  userList : Option (List AccountName)
  sendersPubkey : PublicKey
  newKey : List (PublicKey × Bytes)

inductive GroupMessageType where
  | groupOperation
  | message
  | other
deriving DecidableEq

structure MessageWrapper where
  type : GroupMessageType
  messageData : Option Bytes
  operationData : Option GroupOp

structure GroupMeta where
  sender : Option PublicKey
  recipient : Option PublicKey
  iv : Option Digest
  data : Bytes

/-- The configuration of the plugin, and the functions of `fc` that it uses. Each of these may
throw. -/
structure MessagingPlugin where
  accounts : List AccountName
  privateKeys : List (PublicKey × ℕ)
  readMeta : Bytes → Option GroupMeta
  unpack : Bytes → Option MessageWrapper
  decrypt : Digest → Digest → Bytes → Option Bytes
  decryptShared : ℕ → Bytes → Option Bytes
  getSharedSecret : ℕ → PublicKey → Option ℕ
  digest : Bytes → Option Digest
  writeOp : GroupOp → Bytes

/-- What an operation brings to the interpreter. -/
structure GroupOperation where
  sender : AccountName
  recipients : List AccountName
  json : Bytes

abbrev GroupM := EStateM GroupFailure GroupTables

namespace MessagingPlugin

/-! ## Decoding -/

/-- `decode_message` with the key of a group. -/
def decodeMessage (plugin : MessagingPlugin) (message : Bytes) (iv key : Digest) :
    Option MessageWrapper := do
  plugin.unpack (← plugin.decrypt key iv message)

/-- `decode_message` with a shared secret. -/
def decodeShared (plugin : MessagingPlugin) (message : Bytes) (secret : ℕ) :
    Option MessageWrapper := do
  plugin.unpack (← plugin.decryptShared secret message)

/-- The key that was encrypted with a secret shared with somebody. -/
def sharedKey (plugin : MessagingPlugin) (privateKey : ℕ) (other : PublicKey) (data : Bytes) :
    Option Digest := do
  let secret ← plugin.getSharedSecret privateKey other
  plugin.digest (← plugin.decryptShared secret data)

def extractKey (plugin : MessagingPlugin) (newKeyMap : List (PublicKey × Bytes))
    (groupKey iv : Digest) (senderKey : PublicKey) : List (PublicKey × ℕ) → Option Digest
  | [] =>
    match newKeyMap.lookup nullKey with
    | some data => do plugin.digest (← plugin.decrypt groupKey iv data)
    | none => some 0
  | pk :: rest =>
    match newKeyMap.lookup pk.1 with
    | some data => plugin.sharedKey pk.2 senderKey data
    | none =>
      -- The sender finds no key of his own, and takes that of another member.
      if pk.1 = senderKey then
        match newKeyMap.find? fun item ↦ item.1 ≠ nullKey with
        | some item => plugin.sharedKey pk.2 item.1 item.2
        | none => plugin.extractKey newKeyMap groupKey iv senderKey rest
      else plugin.extractKey newKeyMap groupKey iv senderKey rest

/-! ## Groups and messages -/

end MessagingPlugin

def orThrow {α : Type} (e : GroupFailure) : Option α → GroupM α
  | some a => pure a
  | none => throw e

def assertGroup (p : Prop) [Decidable p] (message : String) : GroupM Unit :=
  if p then pure () else throw (.assertion message)

/-- The group with a current name. -/
def GroupTables.findGroup (s : GroupTables) (name : AccountName) : Option (ℕ × Group) :=
  s.groups.rows.entries.find? fun entry ↦ entry.2.currentGroupName = name

def findGroup (name : AccountName) : GroupM (Option (ℕ × Group)) := do
  let s ← get
  pure (s.findGroup name)

/-- `modify` with a value; a value with a key that is taken erases the old one. -/
def modifyGroup (id : ℕ) (g : Group) : GroupM Unit := do
  let s ← get
  let modified := s.groups.modify id g
  set { s with groups := modified.1 }
  if modified.2 then pure () else throw .uniqueness

def createGroup (g : Group) : GroupM ℕ := do
  let s ← get
  match s.groups.emplace? s.nextId g with
  | some groups =>
    set { s with groups := groups, nextId := s.nextId + 1 }
    pure s.nextId
  | none => throw .uniqueness

def createMessage (key : AccountName × UInt32) (message : GroupMessage) : GroupM Unit := do
  let s ← get
  match s.messages.emplace? key message with
  | some messages => set { s with messages := messages }
  | none => throw .uniqueness

def saveMessage (id : ℕ) (g : Group) (sender : AccountName) (systemMessage : Bool) (data : Bytes) :
    GroupM Unit := do
  createMessage (g.groupName, g.currentSeq) ⟨sender, g.members, data, systemMessage⟩
  modifyGroup id { g with currentSeq := g.currentSeq + 1 }

/-- What `disband` makes of a group. -/
def Group.disbanded (g : Group) : Group :=
  { g with members := [], currentGroupName := 0, groupKey := 0 }

/-- What `update` makes of a group. -/
def Group.updated (g : Group) (op : GroupOp) (users : List AccountName) (newKey : Digest) : Group :=
  { g with
    members := users
    currentGroupName := op.newGroupName.getD g.currentGroupName
    groupKey := if newKey ≠ 0 then newKey else g.groupKey
    description := if op.description.length ≠ 0 then op.description else g.description }

namespace MessagingPlugin

/-- A group operation on a group. -/
def groupOperation (plugin : MessagingPlugin) (op : GroupOperation) (iv : Digest) (id : ℕ)
    (g : Group) (gOp : GroupOp) : GroupM Unit := do
  assertGroup (gOp.version = 1 ∧ op.sender = g.admin) "Wrong version or wrong admin"
  let newKey ← orThrow .decoding
    (plugin.extractKey gOp.newKey g.groupKey iv gOp.sendersPubkey plugin.privateKeys)
  match gOp.type with
  | .disband =>
    modifyGroup id g.disbanded
    saveMessage id g.disbanded op.sender true (plugin.writeOp gOp)
  | .update =>
    let users ← orThrow .undefinedBehaviour gOp.userList
    modifyGroup id (g.updated gOp users newKey)
    saveMessage id (g.updated gOp users newKey) op.sender true (plugin.writeOp gOp)
  | _ => throw (.assertion "Unknown group operation type")

/-- A message to a group. -/
def groupMessage (plugin : MessagingPlugin) (op : GroupOperation) (data : Bytes) (iv : Digest)
    (id : ℕ) (g : Group) : GroupM Unit := do
  let content ← orThrow .decoding (plugin.decodeMessage data iv g.groupKey)
  match content.type with
  | .groupOperation =>
    let gOp ← orThrow (.assertion "Message has incorrect format") content.operationData
    plugin.groupOperation op iv id g gOp
  | .message =>
    let message ← orThrow .undefinedBehaviour content.messageData
    saveMessage id g op.sender false message
  | .other => pure ()

/-- A round of the loop over the recipients of a message. -/
def groupRound (plugin : MessagingPlugin) (op : GroupOperation) (data : Bytes) (iv : Digest)
    (recipient : AccountName) : GroupM Unit := do
  let found ← findGroup recipient
  match found with
  | none => pure ()
  | some (id, g) => plugin.groupMessage op data iv id g

/-- The secret shared by the parties of a message, if a private key of one of them is known. -/
def sharedSecret (plugin : MessagingPlugin) (sender recipient : PublicKey) : Option (Option ℕ) :=
  match plugin.privateKeys.lookup recipient with
  | some key => some (plugin.getSharedSecret key sender)
  | none => (plugin.privateKeys.lookup sender).map fun key ↦ plugin.getSharedSecret key recipient

/-- A new group, for an operation that adds one. -/
def newGroup (sender : AccountName) (gOp : GroupOp) (name : AccountName)
    (users : List AccountName) (newKey : Digest) : Group :=
  ⟨name, name, gOp.description, users, sender, newKey, 0⟩

/-- The loop over the accounts involved, for a message to a single recipient. -/
def addRounds (plugin : MessagingPlugin) (op : GroupOperation) (data : Bytes)
    (sender recipient : PublicKey) : List AccountName → GroupM Unit
  | [] => pure ()
  | r :: rest =>
    if r ∈ plugin.accounts then
      match plugin.sharedSecret sender recipient with
      | none => pure ()
      | some secret => do
        let secret ← orThrow .decoding secret
        let content ← orThrow .decoding (plugin.decodeShared data secret)
        assertGroup (content.type = .groupOperation) "group_operation"
        let gOp ← orThrow (.assertion "operation_data") content.operationData
        assertGroup (gOp.version = 1 ∧ gOp.type = .add) "add"
        let name ← orThrow (.assertion "new_group_name") gOp.newGroupName
        let found ← findGroup name
        if found.isSome then pure ()
        else do
          let newKey ← orThrow .decoding
            (plugin.extractKey gOp.newKey 0 0 sender plugin.privateKeys)
          assertGroup (newKey ≠ 0) "new_key"
          let users ← orThrow .undefinedBehaviour gOp.userList
          let g := newGroup op.sender gOp name users newKey
          let id ← createGroup g
          saveMessage id g op.sender true (plugin.writeOp gOp)
          plugin.addRounds op data sender recipient rest
    else plugin.addRounds op data sender recipient rest

/-- `apply`. -/
def apply (plugin : MessagingPlugin) (op : GroupOperation) : GroupM Unit := do
  let messageMeta ← orThrow .decoding (plugin.readMeta op.json)
  match messageMeta.iv with
  | some iv => op.recipients.forM (plugin.groupRound op messageMeta.data iv)
  | none =>
    match messageMeta.sender, messageMeta.recipient with
    | some sender, some recipient =>
      plugin.addRounds op messageMeta.data sender recipient (op.recipients ++ [op.sender])
    | _, _ => pure ()

/-- The tables after a sequence of operations, with exceptions caught. -/
def tables (plugin : MessagingPlugin) (ops : List GroupOperation) : GroupTables :=
  ops.foldl (fun s op ↦ stateAfter (plugin.apply op) s) .empty

end MessagingPlugin

end SophiaTX.Plugins
