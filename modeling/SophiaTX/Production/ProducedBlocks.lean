import SophiaTX.Production.GeneratedBlocks
import SophiaTX.Production.WitnessPlugin

/-!
# Produced blocks

A node does not produce two blocks for one slot as long as its head does not become older. What the
plugin has found out may be outdated when its request is served, so this rests on the checks of
`_generate_block`, which look at the node as it is then.
-/

namespace SophiaTX.Chain

open SophiaTX.Protocol SophiaTX.Lib

theorem SameTurns.refl (s : Database) : SameTurns s s := ⟨rfl, rfl, rfl, rfl⟩

theorem SameTurns.trans {s s₁ s₂ : Database} (h : SameTurns s s₁) (h' : SameTurns s₁ s₂) :
    SameTurns s s₂ :=
  ⟨h'.clock.trans h.clock, h'.count.trans h.count, h'.names.trans h.names, h'.size.trans h.size⟩

theorem Node.undo_withState {env : Env} {node : Node env} (h : node.sessions ≠ []) (s : Database) :
    ({ node with state := s } : Node env).undo = node.undo := by
  obtain ⟨t, sessions, hsessions⟩ := List.exists_cons_of_ne_nil h
  rw [undo, undo, hsessions]

theorem Node.undo_withPopped {env : Env} (node : Node env) (poppedTx : List Transaction) :
    (node.withPopped poppedTx).undo = node.undo.withPopped poppedTx := by
  cases node with
  | mk state sessions => cases sessions <;> rfl

namespace PendingNode

variable {env : Env} {ctx : Context} {p : PendingNode env} {trx : Transaction}

/-- Pending transactions on top of a node, which need not be those that it lists: `_generate_block`
leaves the list and drops what it stands for when it throws. -/
structure Based (base : Node env) (p : PendingNode env) : Prop where
  head : p.headNode = base
  stacked : p.pendingTxSession = true → p.node.sessions ≠ []
  turns : SameTurns base.state p.node.state

namespace Based

variable {base : Node env}

theorem of_node (base : Node env) (pendingTx : List Transaction) :
    Based base ⟨base, false, pendingTx⟩ where
  head := rfl
  stacked h := absurd h Bool.false_ne_true
  turns := .refl _

theorem openPending (h : Based base p) : Based base p.openPending ∧
    p.openPending.pendingTxSession = true ∧ p.openPending.node.sessions ≠ [] ∧
    p.openPending.node.state = p.node.state := by
  unfold PendingNode.openPending
  split_ifs with hsession
  · exact ⟨h, hsession, h.stacked hsession, rfl⟩
  · have hnode : p.node = base := by
      rw [← h.head, headNode, clearPending, if_neg hsession]
    refine ⟨⟨?_, fun _ ↦ List.cons_ne_nil _ _, h.turns⟩, rfl, List.cons_ne_nil _ _, rfl⟩
    rw [← hnode]
    rfl

/-- A transaction changes neither the head nor whose turn it is. -/
theorem tryTransaction (h : Based base p) (ctx : Context) (trx : Transaction) :
    Based base (p.tryTransaction ctx trx).1 := by
  obtain ⟨hbased, hsession, hsessions, _⟩ := h.openPending
  rw [tryTransaction_eq ctx hsessions]
  cases happly : applyTransaction ctx p.openPending.node.state trx with
  | error e => exact hbased
  | ok s =>
    have happlied : [trx].foldlM (applyTransaction ctx) p.openPending.node.state = .ok s := by
      rw [List.foldlM_cons, happly]
      rfl
    refine ⟨?_, fun _ ↦ hsessions, hbased.turns.trans (sameTurns_of_applied happlied)⟩
    rw [← hbased.head, headNode, headNode, clearPending, clearPending, hsession]
    exact Node.undo_withState hsessions s

theorem restoreTransactions (h : Based base p) (ctx : Context) (trxs : List Transaction) :
    Based base (p.restoreTransactions ctx trxs) := by
  rw [PendingNode.restoreTransactions]
  induction trxs generalizing p with
  | nil => exact h
  | cons trx trxs ih =>
    rw [List.foldl_cons]
    split
    · exact ih h
    · exact ih (h.tryTransaction ctx trx)

theorem self (h : Based base p) : Based p.headNode p := h.head.symm ▸ h

theorem clearPopped (h : Based base p) : Based (base.withPopped []) p.clearPopped where
  head := by
    rw [← h.head, headNode, headNode, clearPending, clearPending, PendingNode.clearPopped]
    dsimp only
    rw [Node.undo_withPopped]
    split_ifs <;> rfl
  stacked := h.stacked
  turns := h.turns

end Based

variable {ctx : PendingContext} {base : Node ctx.env} {p : PendingNode ctx.env}

theorem Based.pushBlock (h : Based base p) (b : SignedBlock) :
    Based ((base.pushBlock ctx.toNodeContext b).1.withPopped []) (p.pushBlock ctx b).1 := by
  have hcleared : p.clearPending.node = base := h.head
  simp only [PendingNode.pushBlock, hcleared]
  apply Based.restoreTransactions
  apply Based.clearPopped
  apply Based.restoreTransactions
  exact .of_node _ _

theorem Based.pushTransaction (h : Based base p) (trx : Transaction) :
    Based base (p.pushTransaction ctx trx).1 := by
  rw [PendingNode.pushTransaction]
  split_ifs
  · exact h.tryTransaction ctx.toProducing trx
  · exact h

end PendingNode

/-! ## The push of a generated block -/

section

variable {ctx : NodeContext} {node : Node ctx.env} {b : SignedBlock}

/-- A block that is pushed on the head without an exception becomes the head, where the fork
database has nothing above it. -/
theorem Node.pushBlock_onTop (habove : ∀ top, node.forkDb.head = some top → top.num < b.blockNum)
    (hprevious : b.previous = node.headBlockId) {switched : Bool}
    (h : (node.pushBlock ctx b).2 = .ok switched) :
    Chain.applyBlock ctx.toContext node.state b = .ok (node.pushBlock ctx b).1.state := by
  cases hpush : node.forkDb.pushBlock b with
  | error e =>
    rw [pushBlock_of_error hpush] at h
    cases h
  | ok forkDb =>
    cases happly : ({ node with forkDb := forkDb } : Node ctx.env).applyInSession ctx b with
    | mk node' result =>
      cases result with
      | ok _ =>
        rw [pushBlock_extend hpush habove hprevious happly]
        obtain ⟨_, _, happlied, _⟩ := applyInSession_ok happly
        exact happlied
      | error e =>
        obtain ⟨top, hitem, hhead, _, _⟩ := ForkDatabase.pushBlock_eq_ok hpush
        have hdata : top.data = b := ForkDatabase.itemOf_data hitem
        subst hdata
        rw [ForkDatabase.newHead_of_above habove] at hhead
        rw [pushBlock_onHead hpush hhead hprevious, applyPushed, happly] at h
        cases h

/-- The head has the time of its block. -/
theorem applyBlock_time {ctx : Context} {s s' : Database} (h : applyBlock ctx s b = .ok s') :
    s'.dgp.time = b.timestamp := by
  simp only [applyBlock, runStages, stages_eq, List.foldlM_cons, List.foldlM_append, bind_eq_ok,
    pure_eq_ok] at h
  obtain ⟨s₂, ⟨_, _, _, _, s₁, hhead, hrest⟩, _, _, rfl⟩ := h
  have hclock : s₂.clock = s₁.clock := by
    apply runStages_clock _ hrest
    simp [SignedBlock.stagesAfterHead, SignedBlock.stagesAfterCommit]
  have htime : s₁.dgp.time = b.timestamp := congrArg Registry.time (Stage.registry_step hhead)
  exact (congrArg (fun clock ↦ clock.2.1) hclock).trans htime

end

namespace PendingNode

variable {ctx : ProducingContext} {base : Node ctx.env} {p : PendingNode ctx.env} {when : Time}
  {witnessOwner : AccountName} {key : ℕ}

/-- A block is pushed when its checks have passed, or the head stays. -/
theorem Based.generateBlock (h : Based base p) (when : Time) (witnessOwner : AccountName)
    (key : ℕ) :
    (Based base (p.generateBlock when witnessOwner key).1 ∧
      ∃ e, (p.generateBlock when witnessOwner key).2 = .error e) ∨
    ∃ b, p.checkTurn when witnessOwner key = .ok () ∧ p.buildBlock when witnessOwner key = .ok b ∧
      Based ((base.pushBlock ctx.toNodeContext b).1.withPopped [])
        (p.generateBlock when witnessOwner key).1 ∧
      (p.generateBlock when witnessOwner key).2 =
        (base.pushBlock ctx.toNodeContext b).2.map fun _ ↦ b := by
  have hdropped : Based base p.dropSession :=
    ⟨h.head, fun hsession ↦ absurd hsession Bool.false_ne_true, h.head ▸ .refl _⟩
  have hcleared : p.dropSession.clearPending.node = base := hdropped.head
  simp only [PendingNode.generateBlock]
  cases p.checkTurn when witnessOwner key with
  | error e => exact .inl ⟨h, e, rfl⟩
  | ok _ =>
    cases p.buildBlock when witnessOwner key with
    | error e => exact .inl ⟨hdropped, e, rfl⟩
    | ok b =>
      refine .inr ⟨b, rfl, rfl, hdropped.pushBlock b, ?_⟩
      simp only [PendingNode.pushBlock, hcleared]

end PendingNode

/-! ## Waking up -/

section

variable {publicKey : ℕ → PublicKey} {plugin : WitnessPlugin publicKey} {g : GenesisState}
  {s : Database} {nowFine : ℕ} {r : GenerateBlockRequest}

theorem Database.slotFits_of_time (h : s.dgp.time + g.blockInterval < 4294967296) :
    s.SlotFits g 1 := by
  have hstart : s.slotStart g ≤ s.dgp.time := by
    rw [slotStart]
    split_ifs
    · exact le_rfl
    · exact Nat.div_mul_le_self _ _
  rw [SlotFits, one_mul]
  exact (Nat.add_le_add_right hstart _).trans_lt h

theorem eq_of_microsecondsBetween {a b : ℕ}
    (h : ¬ blockProducingLagTime < microsecondsBetween a b) : a = b := by
  rw [blockProducingLagTime, microsecondsBetween] at h
  omega

/-- What the plugin has found out when it asks for a block. -/
structure Wanted (g : GenesisState) (s : Database) (plugin : WitnessPlugin publicKey)
    (nowFine : ℕ) (r : GenerateBlockRequest) : Prop where
  now : r.when = nearestSecond nowFine
  slot : 0 < s.slotAtTime g r.when
  scheduled : s.scheduledWitness (s.slotAtTime g r.when) = .ok r.witnessOwner
  own : r.witnessOwner ∈ plugin.witnesses
  signs : ∃ w, s.getWitness r.witnessOwner = .ok w ∧ w.signingKey = publicKey r.key
  participates : plugin.requiredWitnessParticipation ≤ s.witnessParticipationRate

theorem WitnessPlugin.requestFor_wanted (hslot : 0 < s.slotAtTime g (nearestSecond nowFine))
    (h : plugin.requestFor g s (nearestSecond nowFine) (s.slotAtTime g (nearestSecond nowFine)) =
      .ok (.inr r)) : Wanted g s plugin nowFine r := by
  simp only [requestFor, bind_eq_ok] at h
  obtain ⟨scheduled, hscheduled, h⟩ := h
  by_cases hown : scheduled ∉ plugin.witnesses
  · rw [if_pos hown] at h
    cases h
  rw [if_neg hown, bind_eq_ok] at h
  obtain ⟨w, hw, h⟩ := h
  cases hkey : plugin.privateKeys.find w.signingKey with
  | none =>
    rw [hkey] at h
    cases h
  | some privateKey =>
    rw [hkey] at h
    dsimp only at h
    by_cases hrate : s.witnessParticipationRate < plugin.requiredWitnessParticipation
    · rw [if_pos hrate] at h
      cases h
    rw [if_neg hrate] at h
    by_cases hlag : blockProducingLagTime < microsecondsBetween
      (s.getSlotTime g (s.slotAtTime g (nearestSecond nowFine))) (nearestSecond nowFine)
    · rw [if_pos hlag] at h
      cases h
    rw [if_neg hlag] at h
    obtain rfl := Sum.inr.inj (pure_eq_ok.1 h)
    have hnow := eq_of_microsecondsBetween hlag
    refine ⟨hnow, ?_, ?_, not_not.1 hown, ⟨w, hw, ?_⟩, not_lt.1 hrate⟩
    · rw [hnow]
      exact hslot
    · rw [hnow]
      exact hscheduled
    · exact (plugin.privateKeys.publicKey_eq _ _ hkey).symm

/-- Looking for the request fails on damaged data only. -/
theorem WitnessPlugin.requestFor_ne_assertion (now : Time) (slot : ℕ) (message : String) :
    plugin.requestFor g s now slot ≠ .error (.assertion message) := by
  intro h
  rcases bind_eq_error.1 h with hscheduled | ⟨scheduled, _, h⟩
  · rw [Database.scheduledWitness] at hscheduled
    split at hscheduled
    · cases hscheduled
    · split at hscheduled <;> cases hscheduled
  · split at h
    · cases h
    · rcases bind_eq_error.1 h with hw | ⟨w, _, h⟩
      · rw [Database.getWitness] at hw
        cases hfind : s.witnesses.find? scheduled with
        | none =>
          rw [hfind] at hw
          cases hw
        | some w =>
          rw [hfind] at hw
          cases hw
      · split at h
        · cases h
        · split at h
          · cases h
          · split at h <;> cases h

theorem WitnessPlugin.maybeProduceBlock_wanted
    (h : plugin.maybeProduceBlock g s nowFine = .ok (.inr r)) : Wanted g s plugin nowFine r := by
  simp only [maybeProduceBlock] at h
  split at h
  · cases h
  · split at h
    · cases h
    · rename_i hslot
      obtain ⟨_, _, h⟩ := bind_eq_ok.1 h
      exact requestFor_wanted (Nat.pos_of_ne_zero hslot) h

/-- The assertion of `maybe_produce_block` holds. -/
theorem WitnessPlugin.maybeProduceBlock_asserts (hinterval : 0 < g.blockInterval)
    (hfits : s.SlotFits g 1) (message : String) :
    plugin.maybeProduceBlock g s nowFine ≠ .error (.assertion message) := by
  simp only [maybeProduceBlock]
  split_ifs with hsynced hslot
  · exact error_ne_ok.symm
  · exact error_ne_ok.symm
  · rw [fcAssert_bind_of (Database.time_lt_of_slot hinterval hfits (Nat.pos_of_ne_zero hslot))]
    exact plugin.requestFor_ne_assertion _ _ message

/-- What the plugin has found out is what `_generate_block` checks, as long as nothing happens in
between. -/
theorem Wanted.checkTurn {ctx : ProducingContext} {plugin : WitnessPlugin ctx.publicKey}
    {pool : PendingNode ctx.env} (h : Wanted ctx.genesis pool.node.state plugin nowFine r) :
    @PendingNode.checkTurn (ProducingNode.generating ctx) pool r.when r.witnessOwner r.key =
      .ok () := by
  obtain ⟨w, hw, hkey⟩ := h.signs
  simp only [PendingNode.checkTurn, bind_eq_ok, fcAssert_eq_ok]
  exact ⟨(), h.slot, _, h.scheduled, (), rfl, w, hw, fun _ ↦ hkey⟩

end

/-! ## Runs -/

namespace ProducingNode

variable {ctx : ProducingContext} {q start : ProducingNode ctx}

/-- A node that has produced nothing yet. -/
def started (node : Node ctx.env) (plugin : WitnessPlugin ctx.publicKey) : ProducingNode ctx where
  pool := .idle node
  plugin := plugin
  request := none
  broadcast := []

def headTime (q : ProducingNode ctx) : Time := q.pool.headNode.state.dgp.time

/-- The head does not become older, and when a request is served the fork database has no block
above it. Times have 32 bits. -/
def staysAhead (q : ProducingNode ctx) (e : Event) : Bool :=
  decide (q.headTime + ctx.genesis.blockInterval < 4294967296) &&
    decide (q.headTime ≤ (q.step e).headTime) &&
    match e with
    | .serve => q.pool.headNode.forkDb.head.all fun top ↦
        decide (top.num ≤ q.pool.headNode.headBlockId.num)
    | _ => true

/-- The blocks that have been broadcast are of later and later slots, and none is later than the
head. -/
structure Ordered (q : ProducingNode ctx) : Prop where
  based : q.pool.Based q.pool.headNode
  later : q.broadcast.Pairwise fun b earlier ↦ earlier.timestamp < b.timestamp
  head : ∀ b ∈ q.broadcast, b.timestamp ≤ q.headTime

theorem started_ordered (node : Node ctx.env) (plugin : WitnessPlugin ctx.publicKey) :
    (started node plugin).Ordered where
  based := .of_node node []
  later := .nil
  head _ h := absurd h List.not_mem_nil

theorem Ordered.call (h : q.Ordered) (c : PendingNode.Call)
    (hhead : q.headTime ≤ (q.step (.call c)).headTime) : (q.step (.call c)).Ordered := by
  refine ⟨?_, h.later, fun b hb ↦ (h.head b hb).trans hhead⟩
  cases c with
  | pushBlock b => exact (h.based.pushBlock b).self
  | pushTransaction trx => exact (h.based.pushTransaction trx).self

theorem Ordered.wake (h : q.Ordered) (nowFine : ℕ) : (q.step (.wake nowFine)).Ordered := by
  simp only [step, ProducingNode.wake]
  split
  · exact h
  · exact ⟨h.based, h.later, h.head⟩

/-- A block that is generated is of a later slot than the head. -/
theorem Ordered.head_lt (h : q.Ordered) (hinterval : 0 < ctx.genesis.blockInterval)
    (hfits : q.headTime + ctx.genesis.blockInterval < 4294967296) {r : GenerateBlockRequest}
    (hturn : @PendingNode.checkTurn (generating ctx) q.pool r.when r.witnessOwner r.key = .ok ()) :
    q.headTime < r.when := by
  simp only [PendingNode.checkTurn, bind_eq_ok, fcAssert_eq_ok] at hturn
  obtain ⟨_, hslot, _⟩ := hturn
  rw [h.based.turns.slotAtTime] at hslot
  exact Database.time_lt_of_slot hinterval (Database.slotFits_of_time hfits) hslot

/-- A request ends without a block. -/
theorem Ordered.stay (h : q.Ordered) {base : Node ctx.env} {pool : PendingNode ctx.env}
    (hbased : pool.Based base) (hhead : q.headTime ≤ pool.headNode.state.dgp.time) :
    Ordered { q with pool := pool, request := none } :=
  ⟨hbased.self, h.later, fun b hb ↦ (h.head b hb).trans hhead⟩

/-- A request ends with a block that has become the head. -/
theorem Ordered.extend (h : q.Ordered) {base : Node ctx.env} {pool : PendingNode ctx.env}
    {b : SignedBlock} (hbased : pool.Based base) (hlater : q.headTime < b.timestamp)
    (htime : pool.headNode.state.dgp.time = b.timestamp) :
    Ordered { q with pool := pool, request := none, broadcast := b :: q.broadcast } where
  based := hbased.self
  later := List.pairwise_cons.2 ⟨fun earlier hmem ↦ (h.head earlier hmem).trans_lt hlater, h.later⟩
  head := by
    intro other hother
    rcases List.mem_cons.1 hother with rfl | hmem
    · exact htime.ge
    · exact (h.head other hmem).trans (hlater.le.trans htime.ge)

theorem Ordered.serve (h : q.Ordered) (hinterval : 0 < ctx.genesis.blockInterval)
    (hC : q.staysAhead .serve = true) : (q.step .serve).Ordered := by
  simp only [staysAhead, Bool.and_eq_true, decide_eq_true_eq, Option.all_eq_true] at hC
  obtain ⟨⟨hfits, hhead⟩, habove⟩ := hC
  cases hrequest : q.request with
  | none =>
    have hsame : q.step .serve = q := by
      simp only [step, ProducingNode.serve, hrequest]
    exact hsame.symm ▸ h
  | some r =>
    have hserved : q.step .serve = { q with
        pool := (generate q.pool r).1
        request := none
        broadcast := (generate q.pool r).2.toOption.toList ++ q.broadcast } := by
      simp only [step, ProducingNode.serve, hrequest]
    rw [hserved] at hhead ⊢
    rcases @PendingNode.Based.generateBlock (generating ctx) _ _ h.based r.when r.witnessOwner
      r.key with ⟨hbased, e, hresult⟩ | ⟨b, hturn, hbuild, hbased, hresult⟩
    · have hnone : (generate q.pool r).2.toOption = none := congrArg Except.toOption hresult
      rw [hnone]
      exact h.stay hbased hhead
    · obtain ⟨_, _, hprevious, hwhen, _⟩ := PendingNode.buildBlock_eq_ok hbuild
      cases hpush : (q.pool.headNode.pushBlock (generating ctx).toNodeContext b).2 with
      | error e =>
        rw [hpush] at hresult
        have hnone : (generate q.pool r).2.toOption = none := congrArg Except.toOption hresult
        rw [hnone]
        exact h.stay hbased hhead
      | ok switched =>
        rw [hpush] at hresult
        have hsome : (generate q.pool r).2.toOption = some b := congrArg Except.toOption hresult
        rw [hsome]
        have hnew : ∀ top, q.pool.headNode.forkDb.head = some top → top.num < b.blockNum := by
          intro top htop
          rw [SignedBlock.blockNum, hprevious]
          exact Nat.lt_succ_of_le (habove top htop)
        have happlied := @Node.pushBlock_onTop (generating ctx).toNodeContext _ _ hnew hprevious _
          hpush
        apply h.extend hbased
        · rw [hwhen]
          exact h.head_lt hinterval hfits hturn
        · rw [hbased.head]
          exact applyBlock_time happlied

theorem Reaches.ordered (hinterval : 0 < ctx.genesis.blockInterval) {node : Node ctx.env}
    {plugin : WitnessPlugin ctx.publicKey}
    (h : Reaches (fun q e ↦ q.staysAhead e = true) (started node plugin) q) : q.Ordered := by
  induction h with
  | refl => exact started_ordered node plugin
  | step _ e hC ih =>
    cases e with
    | call c =>
      apply ih.call
      simp only [staysAhead, Bool.and_eq_true, decide_eq_true_eq] at hC
      exact hC.1.2
    | wake nowFine => exact ih.wake nowFine
    | serve => exact ih.serve hinterval hC

theorem wanted_of_wake {nowFine : ℕ} {r : GenerateBlockRequest} (hnone : q.request = none)
    (h : (q.step (.wake nowFine)).request = some r) :
    Wanted ctx.genesis q.pool.node.state q.plugin nowFine r := by
  simp only [step, ProducingNode.wake] at h
  split at h
  · rw [hnone] at h
    cases h
  · cases hmaybe : q.plugin.maybeProduceBlock ctx.genesis q.pool.node.state nowFine with
    | error e =>
      rw [hmaybe] at h
      cases h
    | ok result =>
      rw [hmaybe] at h
      cases result with
      | inl condition => cases h
      | inr request =>
        obtain rfl := Option.some.inj h
        exact WitnessPlugin.maybeProduceBlock_wanted hmaybe

/-- A clock within half a second. -/
theorem nearestSecond_bounds {nowFine : ℕ} (h : nowFine + 500000 < 4294967296 * 1000000) :
    nearestSecond nowFine * 1000000 ≤ nowFine + 500000 ∧
      nowFine + 500000 < (nearestSecond nowFine + 1) * 1000000 := by
  have hsmall : (nowFine + 500000) / 1000000 < 4294967296 :=
    (Nat.div_lt_iff_lt_mul (by decide)).2 h
  rw [nearestSecond, Nat.mod_eq_of_lt hsmall]
  exact ⟨Nat.div_mul_le_self _ _, (Nat.div_lt_iff_lt_mul (by decide)).1 (Nat.lt_succ_self _)⟩

/-- A node whose head does not become older produces at most one block for a slot. What the plugin
asks for is the block of its own witness for the slot that begins within half a second. -/
theorem slots_produced_once (hinterval : 0 < ctx.genesis.blockInterval) {node : Node ctx.env}
    {plugin : WitnessPlugin ctx.publicKey}
    (h : Reaches (fun q e ↦ q.staysAhead e = true) (started node plugin) q) :
    (q.broadcast.Pairwise fun b earlier ↦ earlier.timestamp < b.timestamp) ∧
    (∀ b ∈ q.broadcast, b.timestamp ≤ q.headTime) ∧
    ∀ nowFine, nowFine + 500000 < 4294967296 * 1000000 →
      q.headTime + ctx.genesis.blockInterval < 4294967296 →
      (∀ message, q.plugin.maybeProduceBlock ctx.genesis q.pool.node.state nowFine ≠
        .error (.assertion message)) ∧
      ∀ r, q.request = none → (q.step (.wake nowFine)).request = some r →
        q.headTime < r.when ∧
        @PendingNode.checkTurn (generating ctx) q.pool r.when r.witnessOwner r.key = .ok () ∧
        r.witnessOwner ∈ q.plugin.witnesses ∧
        q.plugin.requiredWitnessParticipation ≤ q.pool.node.state.witnessParticipationRate ∧
        r.when * 1000000 ≤ nowFine + 500000 ∧ nowFine + 500000 < (r.when + 1) * 1000000 := by
  have hordered := h.ordered hinterval
  refine ⟨hordered.later, hordered.head, fun nowFine hclock hfits ↦ ⟨fun message ↦ ?_, ?_⟩⟩
  · apply WitnessPlugin.maybeProduceBlock_asserts hinterval
    apply Database.slotFits_of_time
    have htime : q.pool.node.state.dgp.time = q.headTime :=
      congrArg (fun clock ↦ clock.2.1) hordered.based.turns.clock
    rw [htime]
    exact hfits
  · intro r hnone hr
    have hwanted := wanted_of_wake hnone hr
    have hbounds := nearestSecond_bounds hclock
    rw [← hwanted.now] at hbounds
    exact ⟨hordered.head_lt hinterval hfits hwanted.checkTurn, hwanted.checkTurn, hwanted.own,
      hwanted.participates, hbounds⟩

/-! ## Two blocks of a development network -/

/-- The miner of the development network, with its key. -/
def devPlugin : WitnessPlugin devProducer.publicKey where
  productionEnabled := true
  requiredWitnessParticipation := 3300
  privateKeys := ⟨some, fun _ _ hkey ↦ (Option.some.inj hkey).symm⟩
  witnesses := [initMinerName]

/-- Two attempts at producing, a transfer between them. -/
def devEvents : List Event :=
  [.wake 1531512803000000, .serve, .call (.pushTransaction PendingNode.smallTransfer),
    .wake 1531512804200000, .serve]

/-- Events one after the other, each of which meets the condition. -/
def allStayAhead (q : ProducingNode ctx) : List Event → Bool
  | [] => true
  | e :: events => q.staysAhead e && allStayAhead (q.step e) events

theorem reaches_of_allStayAhead {events : List Event}
    (h : Reaches (fun q e ↦ q.staysAhead e = true) start q)
    (hevents : q.allStayAhead events = true) :
    Reaches (fun q e ↦ q.staysAhead e = true) start (events.foldl step q) := by
  induction events generalizing q with
  | nil => exact h
  | cons e events ih =>
    rw [allStayAhead, Bool.and_eq_true] at hevents
    exact ih (h.step e hevents.1) hevents.2

/-- Both attempts produce a block. -/
theorem slots_produced_once_twice :
    ∃ s₀, ∃ q : ProducingNode devProducer, initGenesis devProducer.genesis = .ok s₀ ∧
      q.broadcast.map SignedBlock.transactions = [[PendingNode.smallTransfer], []] ∧
      q.broadcast.Pairwise (fun b earlier ↦ earlier.timestamp < b.timestamp) ∧
      ∀ b ∈ q.broadcast, b.timestamp ≤ q.headTime := by
  have hok : okAnd (initGenesis devProducer.genesis) (fun s₀ ↦
      let start : ProducingNode devProducer := started (Node.opened s₀) devPlugin
      start.allStayAhead devEvents &&
      decide ((devEvents.foldl step start).broadcast.map SignedBlock.transactions =
        [[PendingNode.smallTransfer], []])) = true := by decide +kernel
  obtain ⟨s₀, hgenesis, hs₀⟩ := exists_of_okAnd hok
  simp only [Bool.and_eq_true, decide_eq_true_eq] at hs₀
  obtain ⟨hevents, hblocks⟩ := hs₀
  obtain ⟨hlater, hhead, _⟩ := slots_produced_once (by decide)
    (reaches_of_allStayAhead .refl hevents)
  exact ⟨s₀, _, hgenesis, hblocks, hlater, hhead⟩

end ProducingNode

end SophiaTX.Chain
