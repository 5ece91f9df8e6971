import SophiaTX.Lib.Ancestry
import SophiaTX.Lib.Table
import SophiaTX.Protocol.Operations

/-!
# The fork database

Blocks that may still be on the main chain, each with a weak pointer to its parent. An item is
alive while the index, the head or a running call holds it. Blocks that do not link are refused:
the cache of unlinked blocks is never filled, since the exception is thrown again before.
-/

namespace SophiaTX.Chain

open SophiaTX.Protocol SophiaTX.Lib

/-- `fork_item`, with its address. The pointer to the parent is set once, when the item is pushed,
to an item pushed before; nothing ever sets `invalid`. -/
inductive ForkItem where
  | unlinked (address : ℕ) (data : SignedBlock)
  | linked (address : ℕ) (data : SignedBlock) (prev : ForkItem)
deriving DecidableEq

namespace ForkItem

def address : ForkItem → ℕ
  | unlinked address _ => address
  | linked address _ _ => address

def data : ForkItem → SignedBlock
  | unlinked _ data => data
  | linked _ data _ => data

def prev : ForkItem → Option ForkItem
  | unlinked _ _ => none
  | linked _ _ prev => some prev

def num (item : ForkItem) : ℕ := item.data.blockNum

def id (env : Env) (item : ForkItem) : BlockId := env.blockId item.data

def previousId (item : ForkItem) : BlockId := item.data.previous

theorem num_eq (item : ForkItem) : item.num = item.previousId.num + 1 := rfl

@[simp]
theorem num_id (env : Env) (item : ForkItem) : (item.id env).num = item.num := rfl

end ForkItem

structure ForkDatabase (env : Env) where
  index : Table BlockId ForkItem
  head : Option ForkItem
  maxSize : ℕ
  /-- Where the next item is allocated. -/
  nextAddress : ℕ
  /-- Items that the running call holds. -/
  held : List ForkItem
  filed : ∀ entry ∈ index.entries, entry.1 = entry.2.id env

namespace ForkDatabase

variable {env : Env}

def items (db : ForkDatabase env) : List ForkItem := db.index.entries.map Prod.snd

/-- Every item that some shared pointer holds. -/
def aliveItems (db : ForkDatabase env) : List ForkItem := db.items ++ db.head.toList ++ db.held

/-- `prev.lock()`. -/
def lock (db : ForkDatabase env) (item : ForkItem) : Option ForkItem :=
  item.prev.filter fun parent ↦ decide (parent.address ∈ db.aliveItems.map ForkItem.address)

/-! ## Changes -/

def empty : ForkDatabase env where
  index := Table.empty
  head := none
  maxSize := 1024
  nextAddress := 0
  held := []
  filed := by simp [Table.empty]

def reset (db : ForkDatabase env) : ForkDatabase env :=
  { db with
    index := Table.empty
    head := none
    filed := by simp [Table.empty] }

/-- `_index.insert`, which has no effect when the id is taken. -/
def insert (db : ForkDatabase env) (item : ForkItem) : ForkDatabase env where
  index := (db.index.emplace? (item.id env) item).getD db.index
  head := db.head
  maxSize := db.maxSize
  nextAddress := db.nextAddress + 1
  held := db.held
  filed := by
    cases hinsert : db.index.emplace? (item.id env) item with
    | none => exact db.filed
    | some index =>
      intro entry hentry
      rw [Option.getD_some, (Table.emplace?_eq_some hinsert).2, List.mem_append] at hentry
      rcases hentry with hentry | hentry
      · exact db.filed entry hentry
      · rw [List.mem_singleton.1 hentry]

def setHead (db : ForkDatabase env) (item : ForkItem) : ForkDatabase env :=
  { db with head := some item }

def startBlock (db : ForkDatabase env) (b : SignedBlock) : ForkDatabase env :=
  (db.insert (.unlinked db.nextAddress b)).setHead (.unlinked db.nextAddress b)

def filterItems (db : ForkDatabase env) (p : BlockId → ForkItem → Bool) : ForkDatabase env :=
  { db with
    index := db.index.filterRows p
    filed := fun entry hentry ↦ db.filed entry (List.mem_of_mem_filter hentry) }

def remove (db : ForkDatabase env) (id : BlockId) : ForkDatabase env :=
  db.filterItems fun key _ ↦ decide (key ≠ id)

def popBlock (db : ForkDatabase env) : Exec (ForkDatabase env) :=
  match db.head with
  | none => .error (.assertion "cannot pop an empty fork database")
  | some head =>
    match db.lock head with
    | none => .error (.assertion "popping head block would leave fork DB empty")
    | some prev => .ok (db.setHead prev)

/-- Blocks up to this number are too old to be pushed. -/
def oldest (db : ForkDatabase env) (head : ForkItem) : ℤ := max 0 (head.num - db.maxSize)

/-- The item that `_push_block` makes of a block. -/
def itemOf (db : ForkDatabase env) (b : SignedBlock) : Exec ForkItem :=
  match db.head with
  | none => .ok (.unlinked db.nextAddress b)
  | some head => do
    fcAssert (db.oldest head < b.blockNum) "attempting to push a block that is too old"
    if b.previous = BlockId.null then pure (.unlinked db.nextAddress b)
    else match db.index.find? b.previous with
      | none => .error .unlinkableBlock
      | some parent => pure (.linked db.nextAddress b parent)

/-- The head after an item has been pushed. -/
def newHead (db : ForkDatabase env) (item : ForkItem) : ForkItem :=
  match db.head with
  | none => item
  | some head => if head.num < item.num then item else head

/-- `push_block`; the block with the highest number becomes the head. -/
def pushBlock (db : ForkDatabase env) (b : SignedBlock) : Exec (ForkDatabase env) := do
  let item ← db.itemOf b
  pure ((db.insert item).setHead (db.newHead item))

/-- `set_max_size`, which drops the lowest items. -/
def setMaxSize (db : ForkDatabase env) (size : ℕ) : ForkDatabase env :=
  let db := { db with maxSize := size }
  match db.head with
  | none => db
  | some head => db.filterItems fun _ item ↦ decide (db.oldest head ≤ item.num)

/-! ## Lookups -/

def fetchBlock (db : ForkDatabase env) (id : BlockId) : Option ForkItem := db.index.find? id

def isKnownBlock (db : ForkDatabase env) (id : BlockId) : Bool := (db.fetchBlock id).isSome

def fetchBlockByNumber (db : ForkDatabase env) (num : ℕ) : List ForkItem :=
  db.items.filter fun item ↦ decide (item.num = num)

/-- The loop of `walk_main_branch_to_num`. -/
def walkDown (db : ForkDatabase env) (num : ℕ) : ForkItem → Option ForkItem
  | .unlinked address data => if num < data.blockNum then none else some (.unlinked address data)
  | .linked address data prev =>
    if num < data.blockNum then
      if prev.address ∈ db.aliveItems.map ForkItem.address then walkDown db num prev else none
    else some (.linked address data prev)

def walkMainBranchToNum (db : ForkDatabase env) (num : ℕ) : Option ForkItem :=
  db.head.bind fun head ↦ if head.num < num then none else db.walkDown num head

def fetchBlockOnMainBranchByNumber (db : ForkDatabase env) (num : ℕ) : Option ForkItem :=
  match db.fetchBlockByNumber num with
  | [] => none
  | [item] => some item
  | _ => db.walkMainBranchToNum num

/-- The loops of `fetch_branch_from` that bring one branch down to the height of the other. -/
def level (db : ForkDatabase env) (num : ℕ) (branch : String) :
    ForkItem → Exec (List ForkItem × ForkItem)
  | .unlinked address data =>
    if num < data.blockNum then .error (.assertion branch)
    else .ok ([], .unlinked address data)
  | .linked address data prev =>
    if num < data.blockNum then do
      fcAssert (prev.address ∈ db.aliveItems.map ForkItem.address) branch
      let (items, item) ← level db num branch prev
      pure (.linked address data prev :: items, item)
    else .ok ([], .linked address data prev)

/-- The loop of `fetch_branch_from` that goes down both branches until their parents agree. -/
def descend (db : ForkDatabase env) : ForkItem → ForkItem → Exec (List ForkItem × List ForkItem)
  | .unlinked address data, second =>
    if data.previous = second.previousId then .ok ([.unlinked address data], [second])
    else .error (.assertion "first_branch")
  | .linked address data prev, second =>
    if data.previous = second.previousId then .ok ([.linked address data prev], [second])
    else do
      fcAssert (prev.address ∈ db.aliveItems.map ForkItem.address) "first_branch"
      match db.lock second with
      | none => .error (.assertion "second_branch")
      | some secondPrev =>
        let (firsts, seconds) ← descend db prev secondPrev
        pure (.linked address data prev :: firsts, second :: seconds)

/-- `fetch_branch_from`. -/
def fetchBranchFrom (db : ForkDatabase env) (first second : BlockId) :
    Exec (List ForkItem × List ForkItem) :=
  match db.index.find? first with
  | none => .error (.assertion "first_branch_itr != _index.get<block_id>().end()")
  | some first =>
    match db.index.find? second with
    | none => .error (.assertion "second_branch_itr != _index.get<block_id>().end()")
    | some second => do
      let (firsts, first) ← db.level second.num "first_branch" first
      let (seconds, second) ← db.level first.num "second_branch" second
      let (firsts', seconds') ← db.descend first second
      pure (firsts ++ firsts', seconds ++ seconds')

end ForkDatabase

end SophiaTX.Chain
