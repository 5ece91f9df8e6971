import SophiaTX.Governance.Participation
import SophiaTX.Production.GenerateBlock

/-!
# The witness plugin

The plugin wakes up several times in a second and asks for a block when one of its witnesses is
scheduled for the slot at hand. The request goes through the write queue of the chain plugin, so
other calls may change the node before it is served, and the plugin waits for the answer. A block
that has been generated is broadcast.
-/

namespace SophiaTX.Chain

open SophiaTX.Protocol SophiaTX.Lib

/-- Why an attempt at producing ends without a request. -/
inductive BlockProductionCondition where
  | notSynced
  | notMyTurn
  | notTimeYet
  | noPrivateKey
  | lowParticipation
  | lag
deriving DecidableEq

/-- The private keys of the plugin, found by the public keys that belong to them. -/
structure PrivateKeys (publicKey : ℕ → PublicKey) where
  find : PublicKey → Option ℕ
  publicKey_eq : ∀ key privateKey, find key = some privateKey → publicKey privateKey = key

/-- The settings of the plugin, and whether it produces. -/
structure WitnessPlugin (publicKey : ℕ → PublicKey) where
  productionEnabled : Bool
  requiredWitnessParticipation : ℕ
  privateKeys : PrivateKeys publicKey
  witnesses : List AccountName

structure GenerateBlockRequest where
  when : Time
  witnessOwner : AccountName
  key : ℕ
deriving DecidableEq

/-- `BLOCK_PRODUCING_LAG_TIME`, in microseconds. -/
def blockProducingLagTime : ℕ := 750000

/-- The second that is nearest to a time in microseconds. -/
def nearestSecond (nowFine : ℕ) : Time := (nowFine + 500000) / 1000000 % 4294967296

/-- `llabs( (a - b).count() )`. -/
def microsecondsBetween (a b : Time) : ℕ := ((a : ℤ) * 1000000 - (b : ℤ) * 1000000).natAbs

namespace WitnessPlugin

variable {publicKey : ℕ → PublicKey}

/-- Whether the plugin produces from now on: it is synced once the next slot is not in the past. -/
def synced (g : GenesisState) (s : Database) (plugin : WitnessPlugin publicKey) (now : Time) :
    WitnessPlugin publicKey :=
  { plugin with
    productionEnabled := plugin.productionEnabled || decide (now ≤ s.getSlotTime g 1) }

/-- The part of `maybe_produce_block` after it has found the slot, up to its request. -/
def requestFor (g : GenesisState) (s : Database) (plugin : WitnessPlugin publicKey) (now : Time)
    (slot : ℕ) : Exec (BlockProductionCondition ⊕ GenerateBlockRequest) := do
  let scheduledWitness ← s.scheduledWitness slot
  if scheduledWitness ∉ plugin.witnesses then pure (.inl .notMyTurn)
  else
    let scheduledTime := s.getSlotTime g slot
    let w ← s.getWitness scheduledWitness
    match plugin.privateKeys.find w.signingKey with
    | none => pure (.inl .noPrivateKey)
    | some privateKey =>
      if s.witnessParticipationRate < plugin.requiredWitnessParticipation then
        pure (.inl .lowParticipation)
      else if blockProducingLagTime < microsecondsBetween scheduledTime now then pure (.inl .lag)
      else pure (.inr ⟨scheduledTime, scheduledWitness, privateKey⟩)

/-- `maybe_produce_block` up to its request. -/
def maybeProduceBlock (g : GenesisState) (s : Database) (plugin : WitnessPlugin publicKey)
    (nowFine : ℕ) : Exec (BlockProductionCondition ⊕ GenerateBlockRequest) :=
  let now := nearestSecond nowFine
  if (plugin.synced g s now).productionEnabled = false then .ok (.inl .notSynced)
  else
    let slot := s.slotAtTime g now
    if slot = 0 then .ok (.inl .notTimeYet)
    else do
      fcAssert (s.dgp.time < now) "now > db->head_block_time()"
      plugin.requestFor g s now slot

end WitnessPlugin

/-- A node with the plugin, the request that it waits for, and the blocks that it has broadcast, the
newest first. -/
structure ProducingNode (ctx : ProducingContext) where
  pool : PendingNode ctx.env
  plugin : WitnessPlugin ctx.publicKey
  request : Option GenerateBlockRequest
  broadcast : List SignedBlock

namespace ProducingNode

variable {ctx : ProducingContext}

/-- The plugin generates blocks without skipping any check. -/
abbrev generating (ctx : ProducingContext) : ProducingContext := { ctx with skip := {} }

/-- `block_production_loop` up to the request, unless the plugin waits for an answer. An exception
is logged. -/
def wake (q : ProducingNode ctx) (nowFine : ℕ) : ProducingNode ctx :=
  if q.request.isSome ∨ nowFine < ctx.genesis.genesisTime * 1000000 then q
  else
    let s := q.pool.node.state
    { q with
      plugin := q.plugin.synced ctx.genesis s (nearestSecond nowFine)
      request := match q.plugin.maybeProduceBlock ctx.genesis s nowFine with
        | .ok (.inr r) => some r
        | _ => none }

/-- The block of a request, with the node that is left. -/
def generate (pool : PendingNode ctx.env) (r : GenerateBlockRequest) :
    PendingNode ctx.env × Exec SignedBlock :=
  @PendingNode.generateBlock (generating ctx) pool r.when r.witnessOwner r.key

/-- The write queue serves the request, and a block is broadcast. -/
def serve (q : ProducingNode ctx) : ProducingNode ctx :=
  match q.request with
  | none => q
  | some r =>
    { q with
      pool := (generate q.pool r).1
      request := none
      broadcast := (generate q.pool r).2.toOption.toList ++ q.broadcast }

/-- What happens to the node: the calls of others, and those of the plugin. -/
inductive Event where
  | call (c : PendingNode.Call)
  | wake (nowFine : ℕ)
  | serve

def step (q : ProducingNode ctx) : Event → ProducingNode ctx
  | .call c => { q with pool := q.pool.call ctx.toPendingContext c }
  | .wake nowFine => q.wake nowFine
  | .serve => q.serve

/-- What events lead to that meet a condition on the node they happen to. -/
inductive Reaches (C : ProducingNode ctx → Event → Prop) (start : ProducingNode ctx) :
    ProducingNode ctx → Prop
  | refl : Reaches C start start
  | step {q : ProducingNode ctx} (h : Reaches C start q) (e : Event) (hC : C q e) :
      Reaches C start (q.step e)

end ProducingNode

end SophiaTX.Chain
