import SophiaTX.Lib.MultiIndex
import SophiaTX.Lib.Partial
import SophiaTX.Protocol.Operations

/-!
# Synchronous broadcasts

Callers of `broadcast_transaction_synchronous` wait until their transaction is in a block or has
expired. They share two maps under a lock: the callbacks by transaction, each of which sets the
promise of one caller, and the transactions by expiration. What happens outside the lock, in the
threads of the callers and in the one that applies blocks, comes in any order.
-/

namespace SophiaTX.Plugins

open SophiaTX.Protocol SophiaTX.Lib

/-- What the plugin is set up with. -/
structure BroadcastServer where
  env : Env
  maxTransactionSize : ℕ

/-- `broadcast_transaction_synchronous_return`. -/
structure BroadcastResult where
  id : ℕ
  blockNum : ℤ
  trxNum : ℤ
  expired : Bool
deriving DecidableEq

inductive CallStage where
  /-- In `accept_transaction` or `broadcast_transaction`. -/
  | accepting
  /-- At the future of its promise. -/
  | waiting
  | returned
  | thrown
deriving DecidableEq

/-- A call that has registered its callback, with its promise. The promise is a variable of the
call and gone with it. -/
structure SyncCall where
  trx : Transaction
  stage : CallStage
  promise : Option BroadcastResult
deriving DecidableEq

/-- The state of `network_broadcast_api_impl`, with its callers in the order of their calls. -/
structure Broadcasts where
  callbacks : Table ℕ ℕ
  callbackExpirations : List (Time × List ℕ)
  lastCheckedBlockTime : Time
  calls : List SyncCall

def Broadcasts.initial : Broadcasts := ⟨.empty, [], 0, []⟩

/-- What a callback can meet: the promise of a call that is gone, or one that has been set. -/
inductive CallbackFailure where
  | dangling
  | promiseAlreadySatisfied
deriving DecidableEq

structure BroadcastArgs where
  trx : Transaction
  packSize : ℕ
  maxBlockAge : ℤ

/-- What a call reads outside: the clock, in microseconds, twice, and the time of the head block. -/
structure Readings where
  now : ℤ
  later : ℤ
  headBlockTime : Time

/-- What can happen next. Calls are named by their position. -/
inductive BroadcastEvent where
  | call (args : BroadcastArgs) (readings : Readings)
  /-- Both functions return for a call that is in them. -/
  | accepted (c : ℕ)
  /-- One of them throws. -/
  | refused (c : ℕ)
  /-- A call whose promise is set returns. -/
  | answered (c : ℕ)
  | appliedBlock (b : SignedBlock)

def toInt32 (n : ℕ) : ℤ := Int.bmod n (2 ^ 32)

namespace Broadcasts

/-- `check_max_block_age`, with the block time it has checked last afterwards. -/
def checkMaxBlockAge (s : Broadcasts) (maxBlockAge : ℤ) (readings : Readings) : Bool × Time :=
  if readings.now - s.lastCheckedBlockTime * 1000000 ≤ maxBlockAge * 1000000 then
    (true, s.lastCheckedBlockTime)
  else if maxBlockAge < 0 then (false, s.lastCheckedBlockTime)
  else
    -- The difference is converted to seconds, which are unsigned.
    let oldest := (readings.later / 1000000 - maxBlockAge) % 2 ^ 32
    (decide ((readings.headBlockTime : ℤ) < oldest), readings.headBlockTime)

/-- `_callback_expirations[ expiration ].push_back( txid )`. -/
def addExpiration (expiration : Time) (id : ℕ) : List (Time × List ℕ) → List (Time × List ℕ)
  | [] => [(expiration, [id])]
  | (time, ids) :: rest =>
    if expiration < time then (expiration, [id]) :: (time, ids) :: rest
    else if expiration = time then (time, ids ++ [id]) :: rest
    else (time, ids) :: addExpiration expiration id rest

variable (server : BroadcastServer)

/-- A call passes its assertions and registers its callback. -/
def registers (s : Broadcasts) (args : BroadcastArgs) (readings : Readings) : Bool :=
  !(s.checkMaxBlockAge args.maxBlockAge readings).1 &&
    decide (args.packSize ≤ server.maxTransactionSize) &&
    (s.callbacks.find? (server.env.trxId args.trx)).isNone

/-- `broadcast_transaction_synchronous` up to `accept_transaction`. -/
def call (s : Broadcasts) (args : BroadcastArgs) (readings : Readings) : Broadcasts :=
  let checked :=
    { s with lastCheckedBlockTime := (s.checkMaxBlockAge args.maxBlockAge readings).2 }
  if s.registers server args readings then
    let id := server.env.trxId args.trx
    { checked with
      callbacks := s.callbacks.emplace id s.calls.length
      callbackExpirations := addExpiration args.trx.expiration id s.callbackExpirations
      calls := s.calls ++ [⟨args.trx, .accepting, none⟩] }
  else checked

/-- `p.set_value( r )` in a callback. -/
def setValue (s : Broadcasts) (c : ℕ) (r : BroadcastResult) : Except CallbackFailure Broadcasts :=
  match s.calls[c]? with
  | none => .error .dangling
  | some call =>
    if call.stage = .returned ∨ call.stage = .thrown then .error .dangling
    else if call.promise.isSome then .error .promiseAlreadySatisfied
    else .ok { s with calls := s.calls.set c { call with promise := some r } }

/-- The callback of a transaction, if it has one, is called and erased. -/
def answer (s : Broadcasts) (r : BroadcastResult) : Except CallbackFailure Broadcasts :=
  match s.callbacks.find? r.id with
  | none => .ok s
  | some c => do
    let s ← s.setValue c r
    .ok { s with callbacks := s.callbacks.erase r.id }

def includedResult (b : SignedBlock) (entry : Transaction × ℕ) : BroadcastResult :=
  ⟨server.env.trxId entry.1, toInt32 b.blockNum, toInt32 entry.2, false⟩

def expiredResult (b : SignedBlock) (id : ℕ) : BroadcastResult :=
  ⟨id, toInt32 b.blockNum, -1, true⟩

/-- The loop that clears expirations, the earliest first. -/
def clearExpirations (b : SignedBlock) :
    List (Time × List ℕ) → Broadcasts → Except CallbackFailure Broadcasts
  | [], s => .ok { s with callbackExpirations := [] }
  | (time, ids) :: rest, s =>
    if time ≥ b.timestamp then .ok { s with callbackExpirations := (time, ids) :: rest }
    else do
      let s ← ids.foldlM (fun s id ↦ s.answer (expiredResult b id)) s
      clearExpirations b rest s

def onAppliedBlock (s : Broadcasts) (b : SignedBlock) : Except CallbackFailure Broadcasts := do
  let s ←
    (if s.callbacks.size ≠ 0 then
      b.transactions.zipIdx.foldlM (fun s entry ↦ s.answer (includedResult server b entry)) s
    else .ok s)
  clearExpirations b s.callbackExpirations s

/-- An event that cannot happen changes nothing. -/
def step (s : Broadcasts) : BroadcastEvent → Except CallbackFailure Broadcasts
  | .call args readings => .ok (s.call server args readings)
  | .accepted c =>
    match s.calls[c]? with
    | some ⟨trx, .accepting, promise⟩ =>
      .ok { s with calls := s.calls.set c ⟨trx, .waiting, promise⟩ }
    | _ => .ok s
  | .refused c =>
    match s.calls[c]? with
    -- The callback is looked up by its transaction again, whoever has registered it by now.
    | some ⟨trx, .accepting, promise⟩ =>
      .ok { s with
        calls := s.calls.set c ⟨trx, .thrown, promise⟩
        callbacks := s.callbacks.erase (server.env.trxId trx) }
    | _ => .ok s
  | .answered c =>
    match s.calls[c]? with
    | some ⟨trx, .waiting, some r⟩ =>
      .ok { s with calls := s.calls.set c ⟨trx, .returned, some r⟩ }
    | _ => .ok s
  | .appliedBlock b => s.onAppliedBlock server b

end Broadcasts

/-- A run, with the moments of its past, the newest first. -/
inductive BroadcastRun (server : BroadcastServer) :
    List (Broadcasts × BroadcastEvent) → Broadcasts → Prop
  | start : BroadcastRun server [] .initial
  | step {past : List (Broadcasts × BroadcastEvent)} {s s' : Broadcasts} (e : BroadcastEvent)
      (h : BroadcastRun server past s) (hstep : s.step server e = .ok s') :
      BroadcastRun server ((s, e) :: past) s'

/-! ## What one caller is to get -/

/-- Where a call stands for its caller: not made yet, without an answer, with one, or without one
for good, since a call with the same transaction threw. -/
inductive CallStatus where
  | absent
  | unanswered (trx : Transaction)
  | answered (r : BroadcastResult)
  | abandoned
deriving DecidableEq

def CallStatus.answer : CallStatus → Option BroadcastResult
  | .answered r => some r
  | _ => none

/-- The answer that a block gives. -/
def answerOf (server : BroadcastServer) (trx : Transaction) (b : SignedBlock) :
    Option BroadcastResult :=
  match b.transactions.findIdx? fun other ↦ server.env.trxId other = server.env.trxId trx with
  | some num => some ⟨server.env.trxId trx, toInt32 b.blockNum, toInt32 num, false⟩
  | none =>
    if trx.expiration < b.timestamp then some ⟨server.env.trxId trx, toInt32 b.blockNum, -1, true⟩
    else none

/-- A call with a transaction throws. -/
def Throws (server : BroadcastServer) (id : ℕ) (s : Broadcasts) (c : ℕ) : Prop :=
  ∃ call, s.calls[c]? = some call ∧ call.stage = .accepting ∧ server.env.trxId call.trx = id

instance (server : BroadcastServer) (id : ℕ) (s : Broadcasts) (c : ℕ) :
    Decidable (Throws server id s c) :=
  match h : s.calls[c]? with
  | none => .isFalse fun ⟨_, hcall, _⟩ ↦ by rw [h] at hcall; cases hcall
  | some call => decidable_of_iff (call.stage = .accepting ∧ server.env.trxId call.trx = id) <| by
      simp [Throws, h]

/-- The status of the call at a position after one more moment. -/
def CallStatus.next (server : BroadcastServer) (c : ℕ) (status : CallStatus)
    (moment : Broadcasts × BroadcastEvent) : CallStatus :=
  match status, moment.2 with
  | .absent, .call args readings =>
    if moment.1.registers server args readings ∧ moment.1.calls.length = c then .unanswered args.trx
    else .absent
  | .unanswered trx, .refused c' =>
    if Throws server (server.env.trxId trx) moment.1 c' then .abandoned else .unanswered trx
  | .unanswered trx, .appliedBlock b =>
    match answerOf server trx b with
    | some r => .answered r
    | none => .unanswered trx
  | status, _ => status

def callStatus (server : BroadcastServer) (c : ℕ) : List (Broadcasts × BroadcastEvent) → CallStatus
  | [] => .absent
  | moment :: past => (callStatus server c past).next server c moment

end SophiaTX.Plugins
