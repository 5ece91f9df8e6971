import Mathlib.Data.Finset.Sort
import Mathlib.Order.Fin.Basic
import Mathlib.Data.Prod.Lex
import SophiaTX.Lib.Cursor
import SophiaTX.Protocol.Operations

/-!
# The account history plugin

Every operation is recorded for the accounts it has an impact on, under a sequence number of each
account. With pruning on, an account keeps the operations of the last 30 days, and always its
newest ones.
-/

namespace SophiaTX.Plugins

open SophiaTX.Protocol SophiaTX.Lib

/-- A 32-bit sequence number. -/
abbrev Sequence := Fin 4294967296

/-- The keys of the index by account: accounts in ascending and sequences in descending order. -/
abbrev HistoryKey := AccountName ×ₗ Sequenceᵒᵈ

def historyKey (account : AccountName) (sequence : Sequence) : HistoryKey :=
  toLex (account, OrderDual.toDual sequence)

/-- The sequence numbers of an account go down, so this key comes after its others. -/
abbrev lastHistoryKey (account : AccountName) : HistoryKey := historyKey account 0

def HistoryKey.account (key : HistoryKey) : AccountName := (ofLex key).1

def HistoryKey.sequence (key : HistoryKey) : Sequence := OrderDual.ofDual (ofLex key).2

structure OperationNotification where
  trxId : ℕ
  block : ℕ
  trxInBlock : ℕ
  opInTrx : ℕ
  virtualOp : ℕ
  feePayer : AccountName
  op : Operation

structure OperationObject where
  trxId : ℕ
  block : ℕ
  trxInBlock : ℕ
  opInTrx : ℕ
  virtualOp : ℕ
  timestamp : Time
  serializedOp : Bytes
  feePayer : AccountName

/-- The two indices of the plugin; a history object holds the id of its operation. -/
structure HistoryTables where
  operations : Table ℕ OperationObject
  nextOperation : ℕ
  histories : Table HistoryKey ℕ

def HistoryTables.empty : HistoryTables := ⟨Table.empty, 0, Table.empty⟩

/-- A map from the lower to the upper bounds of the ranges, with the keys in ascending order. -/
structure TrackedAccounts where
  ranges : List (AccountName × AccountName)
  sorted : ranges.Pairwise fun range range' ↦ range.1 < range'.1

structure AccountHistoryPlugin where
  trackedAccounts : TrackedAccounts
  filterContent : Bool
  blacklist : Bool
  opList : List String
  prune : Bool
  /-- `operation_get_impacted_accounts`. -/
  impactedAccounts : Operation → Finset AccountName
  pack : Operation → Bytes
  /-- `fc::get_typename`. -/
  typename : Operation → String

/-- The range where the iterator stands after `lower_bound` and the conditional step back. -/
def TrackedAccounts.rangeOf (tracked : TrackedAccounts) (item : AccountName) :
    Option (AccountName × AccountName) :=
  let before := tracked.ranges.takeWhile fun range ↦ decide (range.1 < item)
  let after := tracked.ranges.dropWhile fun range ↦ decide (range.1 < item)
  if before ≠ [] ∧ ((∃ range ∈ after.head?, range.1 ≠ item) ∨ after = []) then before.getLast?
  else after.head?

def TrackedAccounts.tracks (tracked : TrackedAccounts) (item : AccountName) : Bool :=
  tracked.ranges.isEmpty ||
    (tracked.rangeOf item).any fun range ↦ decide (range.1 ≤ item ∧ item ≤ range.2)

namespace HistoryTables

/-- `fc::days( 30 )` in seconds. -/
def retentionTime : ℤ := 2592000

def createOperation (s : HistoryTables) (plugin : AccountHistoryPlugin) (now : Time)
    (note : OperationNotification) : Exec (HistoryTables × ℕ) :=
  let object : OperationObject := ⟨note.trxId, note.block, note.trxInBlock, note.opInTrx,
    note.virtualOp, now, plugin.pack note.op, note.feePayer⟩
  match s.operations.emplace? s.nextOperation object with
  | none => .error .uniquenessViolated
  | some operations =>
    .ok ({ s with operations := operations, nextOperation := s.nextOperation + 1 }, s.nextOperation)

/-- The sequence number of the next history object of an account. -/
def nextSequence (s : HistoryTables) (item : AccountName) : Sequence :=
  match s.histories.lowerBound (historyKey item (Fin.last 4294967295)) with
  | some (key, _) => if key.account = item then key.sequence + 1 else 1
  | none => 1

def createHistory (s : HistoryTables) (item : AccountName) (sequence : Sequence) (op : ℕ) :
    Exec HistoryTables :=
  match s.histories.emplace? (historyKey item sequence) op with
  | none => .error .uniquenessViolated
  | some histories => .ok { s with histories := histories }

/-- The condition of the pruning loop. -/
def expired (s : HistoryTables) (now : Time) (item : AccountName) (sequence : Sequence)
    (key : HistoryKey) (op : ℕ) : Exec Bool :=
  if key.account = item ∧ 30 < sequence - key.sequence then do
    let object ← orUnknownKey (s.operations.find? op)
    pure (decide (retentionTime < (now : ℤ) - object.timestamp))
  else pure false

/-- The pruning loop on the history objects from the iterator backwards; it must not come to their
end. -/
def expiredFrom (s : HistoryTables) (now : Time) (item : AccountName) (sequence : Sequence) :
    List (HistoryKey × ℕ) → Exec (List HistoryKey)
  | [] => .error .undefinedBehaviour
  | (key, op) :: rest => do
    if ← s.expired now item sequence key op then do
      let toRemove ← expiredFrom s now item sequence rest
      pure (key :: toRemove)
    else pure []

def removeHistories (s : HistoryTables) (toRemove : List HistoryKey) : HistoryTables :=
  { s with histories := s.histories.filterRows fun key _ ↦ decide (key ∉ toRemove) }

def pruneHistories (s : HistoryTables) (now : Time) (item : AccountName) (sequence : Sequence) :
    Exec HistoryTables :=
  match s.histories.below (historyKey item 0) with
  | [] => .ok s
  | first :: rest => do
    let toRemove ← s.expiredFrom now item sequence (first :: rest)
    pure (s.removeHistories toRemove)

/-- The operation object, which is created for the first account that is recorded. -/
def currentOperation (plugin : AccountHistoryPlugin) (now : Time) (note : OperationNotification) :
    HistoryTables × Option ℕ → Exec (HistoryTables × ℕ)
  | (s, some op) => .ok (s, op)
  | (s, none) => s.createOperation plugin now note

/-- `operation_visitor`. -/
def visit (plugin : AccountHistoryPlugin) (now : Time) (note : OperationNotification)
    (item : AccountName) (state : HistoryTables × Option ℕ) :
    Exec (HistoryTables × Option ℕ) := do
  let (s, op) ← currentOperation plugin now note state
  let sequence := s.nextSequence item
  let s ← s.createHistory item sequence op
  if plugin.prune then do
    let s ← s.pruneHistories now item sequence
    pure (s, some op)
  else pure (s, some op)

/-- `operation_visitor_filter`: an operation in the list is recorded with a whitelist, one that is
not with a blacklist. -/
def visitFilter (plugin : AccountHistoryPlugin) (now : Time) (note : OperationNotification)
    (item : AccountName) (state : HistoryTables × Option ℕ) :
    Exec (HistoryTables × Option ℕ) :=
  if plugin.typename note.op ∈ plugin.opList then
    if plugin.blacklist then .ok state else visit plugin now note item state
  else if plugin.blacklist then visit plugin now note item state else .ok state

def onItem (plugin : AccountHistoryPlugin) (now : Time) (note : OperationNotification)
    (state : HistoryTables × Option ℕ) (item : AccountName) : Exec (HistoryTables × Option ℕ) :=
  if plugin.trackedAccounts.tracks item then
    if plugin.filterContent then visitFilter plugin now note item state
    else visit plugin now note item state
  else .ok state

/-- `on_operation`. -/
def onOperation (plugin : AccountHistoryPlugin) (now : Time) (note : OperationNotification)
    (s : HistoryTables) : Exec HistoryTables := do
  let impacted := insert note.feePayer (plugin.impactedAccounts note.op)
  let (s, _) ← (impacted.sort (· ≤ ·)).foldlM (onItem plugin now note) (s, none)
  pure s

end HistoryTables

end SophiaTX.Plugins
