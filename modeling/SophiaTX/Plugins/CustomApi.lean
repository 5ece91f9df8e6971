import Mathlib.Data.Prod.Lex
import SophiaTX.Chain.Objects
import SophiaTX.Lib.Pages

/-!
# Received documents

What `custom_api` reads from the contents of messages: pages of those of a sender, a recipient or an
application, by their numbers or by time, from one place on towards the older or the newer ones.
-/

namespace SophiaTX.Plugins

open SophiaTX.Protocol SophiaTX.Chain SophiaTX.Lib

/-- A row of the contents with its id. Rows are never removed, so that ids are positions. -/
abbrev StoredContent := CustomContent × ℕ

structure ReceivedObject where
  id : ℕ
  sender : AccountName
  recipients : List AccountName
  appId : ℕ
  data : Bytes
  binary : Bool
  received : Time

/-- What the API works with: the contents of messages, and the functions it takes from elsewhere.
The parsers throw on a text that they cannot read. -/
structure CustomApi where
  contents : List CustomContent
  base64Encode : Bytes → Bytes
  stoull : String → Exec UInt64
  fromIsoString : String → Exec UInt32

abbrev DocumentPage := List (ℕ × StoredContent)

structure ListReceivedDocumentsArgs where
  appId : ℕ
  accountName : AccountName
  searchType : String
  start : String
  count : ℕ

structure GetAppCustomMessagesArgs where
  appId : ℕ
  start : ℕ
  limit : ℕ

/-- `CUSTOM_API_SINGLE_QUERY_LIMIT`. -/
def customApiSingleQueryLimit : ℕ := 10000

/-! ## Indices -/

/-- The first parts of the keys of `by_sender` and `by_sender_time`: applications come in
descending order. -/
def senderGroup (c : CustomContent) : AccountName ×ₗ ℕᵒᵈ :=
  toLex (c.sender, OrderDual.toDual c.appId)

def recipientGroup (c : CustomContent) : AccountName ×ₗ ℕᵒᵈ :=
  toLex (c.recipient, OrderDual.toDual c.appId)

/-- The first part of the key of `by_app_id`. -/
def applicationGroup (c : CustomContent) : ℕᵒᵈ := OrderDual.toDual c.appId

section Index

variable {G : Type} [LinearOrder G]

/-- The key of an index that lists the latest of a group first. -/
def latestFirst (group : CustomContent → G) (number : CustomContent → ℕ) (row : StoredContent) :
    G ×ₗ ℕᵒᵈ :=
  toLex (group row.1, OrderDual.toDual (number row.1))

/-- An index in its order, equal keys in the order of their insertion. -/
def indexRows (contents : List CustomContent) (key : StoredContent → G) : List StoredContent :=
  contents.zipIdx.insertionSort fun row row' ↦ key row ≤ key row'

/-- A page read from a position on, forwards. Behind the last row there is nothing to read. -/
def readForwards (rows : List StoredContent) (number : CustomContent → ℕ) (itr stop count : ℕ) :
    Exec DocumentPage :=
  match collect (fun row ↦ number row.1) count (rows.drop itr) ((stop : ℤ) - itr) [] with
  | some page => .ok page
  | none => .error .undefinedBehaviour

/-- A page read backwards. -/
def readBackwards (rows : List StoredContent) (number : CustomContent → ℕ) (itr stop count : ℕ) :
    Exec DocumentPage :=
  match collect (fun row ↦ number row.1) count (rows.take itr).reverse ((itr : ℤ) - stop) [] with
  | some page => .ok page
  | none => .error .undefinedBehaviour

variable (contents : List CustomContent) (group : CustomContent → G)
  (number : CustomContent → ℕ)

/-- The older ones of a group from a number on. The number of the first row is read, also where
there is no row. -/
def listOlder (g : G) (start count : ℕ) : Exec DocumentPage :=
  let key := latestFirst group number
  let rows := indexRows contents key
  let itr := lowerBound key (toLex (g, OrderDual.toDual start)) rows
  match rows[itr]? with
  | none => .error .undefinedBehaviour
  | some row =>
    let stop := upperBound key (toLex (g, OrderDual.toDual (number row.1 - count))) rows
    readForwards rows number itr stop count

/-- The newer ones of a group from a number on. -/
def listNewer (g : G) (start count : ℕ) : Exec DocumentPage :=
  let key := latestFirst group number
  let rows := indexRows contents key
  let itr := upperBound key (toLex (g, OrderDual.toDual start)) rows
  match rows[itr]? with
  | none => .error .undefinedBehaviour
  | some row =>
    let stop := lowerBound key (toLex (g, OrderDual.toDual (number row.1 + count))) rows
    readBackwards rows number itr stop count

/-- The older ones of a group from a time on. -/
def listOlderByTime (g : G) (start : Time) (count : ℕ) : Exec DocumentPage :=
  let key := latestFirst group CustomContent.received
  let rows := indexRows contents key
  readForwards rows number (lowerBound key (toLex (g, OrderDual.toDual start)) rows)
    (upperBound key (toLex (g, OrderDual.toDual 0)) rows) count

/-- The newer ones of a group from a time on. -/
def listNewerByTime (g : G) (start : Time) (count : ℕ) : Exec DocumentPage :=
  let key := latestFirst group CustomContent.received
  let rows := indexRows contents key
  readBackwards rows number (upperBound key (toLex (g, OrderDual.toDual start)) rows)
    (lowerBound key (toLex (g, OrderDual.toDual 4294967295)) rows) count

end Index

/-! ## Calls -/

namespace CustomApi

variable (api : CustomApi)

def receivedObject (row : StoredContent) : ReceivedObject where
  id := row.2
  sender := row.1.sender
  recipients := row.1.allRecipients
  appId := row.1.appId
  data := if row.1.binary then api.base64Encode row.1.payload else row.1.payload
  binary := row.1.binary
  received := row.1.received

/-- What is returned of a page. -/
def received (page : DocumentPage) : List (ℕ × ReceivedObject) :=
  page.map fun entry ↦ (entry.1, api.receivedObject entry.2)

/-- The row of an id is read, also where there is none. -/
def getReceivedDocument (id : ℕ) : Exec ReceivedObject :=
  match api.contents[id]? with
  | some c => .ok (api.receivedObject (c, id))
  | none => .error .undefinedBehaviour

def getAppCustomMessages (args : GetAppCustomMessagesArgs) : Exec (List (ℕ × ReceivedObject)) := do
  fcAssert (args.limit ≤ customApiSingleQueryLimit) "limit of ${l} is greater than maxmimum allowed"
  fcAssert (args.limit ≤ args.start) "start must be greater than limit"
  let page ← listOlder api.contents applicationGroup CustomContent.appMessageSequence
    (OrderDual.toDual args.appId) args.start args.limit
  pure (api.received page)

def listReceivedDocuments (args : ListReceivedDocumentsArgs) :
    Exec (List (ℕ × ReceivedObject)) := do
  fcAssert (args.count ≤ customApiSingleQueryLimit) "limit of ${l} is greater than maxmimum allowed"
  let g := toLex (args.accountName, OrderDual.toDual args.appId)
  let page ← (
    if args.searchType = "by_sender" then do
      let start ← api.stoull args.start
      fcAssert (args.count ≤ start.toNat) "start must be greater than limit"
      listOlder api.contents senderGroup CustomContent.senderSequence g start.toNat args.count
    else if args.searchType = "by_recipient" then do
      let start ← api.stoull args.start
      fcAssert (args.count ≤ start.toNat) "start must be greater than limit"
      listOlder api.contents recipientGroup CustomContent.recipientSequence g start.toNat args.count
    else if args.searchType = "by_sender_datetime" then do
      let start ← api.fromIsoString args.start
      listOlderByTime api.contents senderGroup CustomContent.senderSequence g start.toNat args.count
    else if args.searchType = "by_recipient_datetime" then do
      let start ← api.fromIsoString args.start
      listOlderByTime api.contents recipientGroup CustomContent.recipientSequence g
        start.toNat args.count
    else if args.searchType = "by_sender_reverse" then do
      let start ← api.stoull args.start
      listNewer api.contents senderGroup CustomContent.senderSequence g start.toNat args.count
    else if args.searchType = "by_recipient_reverse" then do
      let start ← api.stoull args.start
      listNewer api.contents recipientGroup CustomContent.recipientSequence g start.toNat args.count
    else if args.searchType = "by_sender_datetime_reverse" then do
      let start ← api.fromIsoString args.start
      listNewerByTime api.contents senderGroup CustomContent.senderSequence g start.toNat args.count
    else if args.searchType = "by_recipient_datetime_reverse" then do
      let start ← api.fromIsoString args.start
      listNewerByTime api.contents recipientGroup CustomContent.recipientSequence g
        start.toNat args.count
    else .error (.assertion "Unknown search type argument"))
  pure (api.received page)

end CustomApi

end SophiaTX.Plugins
