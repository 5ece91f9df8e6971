import SophiaTX.Chain.Listings
import SophiaTX.Forks.Irreversibility
import SophiaTX.Governance.Hardforks
import SophiaTX.Governance.Slots
import SophiaTX.Production.GenerateBlock
import SophiaTX.Production.Reports

/-!
# Generated blocks

The transactions of a generated block apply again when it is pushed, and lead to the state that the
producer has seen. What may refuse the block before is the size of the whole, which the producer has
only estimated, and the key of the witness, which it has looked up with the pending transactions in
force.
-/

namespace SophiaTX.Chain

open SophiaTX.Protocol SophiaTX.Lib

/-! ## Reading the header -/

/-- What an extension of the header reports. -/
def VersionReport.read (r : VersionReport) : BlockHeaderExtension → VersionReport
  | .void => r
  | .version v => { r with runningVersion := v }
  | .hardforkVersionVote hfVersion hfTime =>
    { r with hardforkVersionVote := hardforkVersion hfVersion, hardforkTimeVote := hfTime }

/-- What a witness has reported up to now. -/
def Witness.report (w : Witness) : VersionReport :=
  ⟨w.runningVersion, w.hardforkVersionVote, w.hardforkTimeVote⟩

namespace Database

variable {ctx : Context} {s s' : Database} {producer : AccountName} {w : Witness}
  {r : VersionReport}

theorem reportedBy_report (hw : s.witnesses.find? producer = some w) :
    { s with dgp := { s.dgp with currentWitness := producer } } =
      s.reportedBy producer w.report := by
  have hrows : s.witnesses.mapRows (reportedRow producer w.report) = s.witnesses := by
    apply Table.ext_entries
    rw [Table.mapRows]
    conv_rhs => rw [← List.map_id s.witnesses.entries]
    apply List.map_congr_left
    rintro ⟨name, row⟩ hmem
    rw [reportedRow]
    split_ifs with hname
    · have hrow := (Table.find?_eq_some_iff _ _ _).2 hmem
      dsimp only at hname
      rw [hname, hw, Option.some.injEq] at hrow
      rw [← hrow]
      rfl
    · rfl
  rw [reportedBy, hrows]

theorem processHeaderExtension_reportedBy (hw : s.witnesses.find? producer = some w)
    (extension : BlockHeaderExtension) :
    processHeaderExtension producer (s.reportedBy producer r) extension =
      .ok (s.reportedBy producer (r.read extension)) := by
  have hfound : (s.reportedBy producer r).getWitness producer =
      .ok (reportedRow producer r producer w) := by
    rw [getWitness_reportedBy, getWitness, hw]
    rfl
  have hrows {f : Witness → Witness} {r' : VersionReport}
      (hf : ∀ row : Witness, f (row.reporting r) = row.reporting r') :
      (s.reportedBy producer r).modifyWitness producer f = s.reportedBy producer r' := by
    rw [modifyWitness, reportedBy, reportedBy]
    congr 1
    apply Table.ext_entries
    simp only [Table.modify, Table.mapRows, List.map_map]
    apply List.map_congr_left
    rintro ⟨name, row⟩ _
    simp only [Function.comp_apply, reportedRow, Prod.mk.injEq, true_and]
    split_ifs
    · exact hf row
    · rfl
  cases extension with
  | void => rfl
  | version v =>
    simp only [processHeaderExtension, hfound, ok_bind, VersionReport.read]
    exact congrArg Except.ok (hrows fun _ ↦ rfl)
  | hardforkVersionVote hfVersion hfTime =>
    simp only [processHeaderExtension, hfound, ok_bind, VersionReport.read]
    exact congrArg Except.ok (hrows fun _ ↦ rfl)

theorem processHeaderExtensions_reportedBy (hw : s.witnesses.find? producer = some w)
    (extensions : List BlockHeaderExtension) :
    extensions.foldlM (processHeaderExtension producer) (s.reportedBy producer r) =
      .ok (s.reportedBy producer (extensions.foldl VersionReport.read r)) := by
  induction extensions generalizing r with
  | nil => rfl
  | cons extension extensions ih =>
    rw [List.foldlM_cons, processHeaderExtension_reportedBy hw, ok_bind, List.foldl_cons]
    exact ih

end Database

/-- What a generated block reports is that the witness runs the version of the node. -/
theorem runningVersion_versionExtensions (g : GenesisState) (w : Witness) (h : HardforkProperty) :
    ((versionExtensions g w h).foldl VersionReport.read w.report).runningVersion =
      blockchainVersion := by
  unfold versionExtensions
  rw [List.foldl_append]
  have hreported : ((if w.runningVersion ≠ blockchainVersion then
      [BlockHeaderExtension.version blockchainVersion] else []).foldl VersionReport.read
        w.report).runningVersion = blockchainVersion := by
    split_ifs with hversion
    · rfl
    · exact not_not.1 hversion
  generalize (if w.runningVersion ≠ blockchainVersion then
    [BlockHeaderExtension.version blockchainVersion] else []).foldl VersionReport.read
      w.report = r at hreported ⊢
  split_ifs
  · exact hreported
  · exact hreported
  · exact hreported

theorem hardforkVersions_le (hardfork : ℕ) : hardforkVersions hardfork ≤ blockchainVersion := by
  match hardfork with
  | 0 | 1 | 2 => decide
  | n + 3 => exact Nat.zero_le _

/-! ## Packing -/

/-- The size that a block with these transactions is taken to have. -/
def ProducingContext.blockSize (ctx : ProducingContext) (trxs : List Transaction) : ℕ :=
  ctx.emptyHeaderSize + 4 + (trxs.map ctx.trxSize).sum

/-- What has been taken of the pending transactions. -/
structure Packed (ctx : ProducingContext) (maximumBlockSize : ℕ) (when : Time) (head : Database)
    (pending : List Transaction) (p : Packing) : Prop where
  applied : p.transactions.foldlM (applyTransaction ctx.toContext) head = .ok p.state
  size : p.totalBlockSize = ctx.blockSize p.transactions
  fits : p.transactions ≠ [] → p.totalBlockSize < maximumBlockSize
  sublist : p.transactions.Sublist pending
  unexpired : ∀ trx ∈ p.transactions, when ≤ trx.expiration
  /-- A transaction is taken, or it has expired, is too long, or throws where it would stand. -/
  complete : ∀ before trx after, pending = before ++ trx :: after → ∃ taken rest s,
    p.transactions = taken ++ rest ∧ taken.Sublist before ∧
    taken.foldlM (applyTransaction ctx.toContext) head = .ok s ∧
    (rest.head? = some trx ∨ trx.expiration < when ∨
      maximumBlockSize ≤ ctx.blockSize taken + ctx.trxSize trx ∨
      ∃ e, applyTransaction ctx.toContext s trx = .error e)

namespace Packed

variable {ctx : ProducingContext} {maximumBlockSize : ℕ} {when : Time} {head : Database}
  {pending : List Transaction} {p p' : Packing} {trx : Transaction}

theorem start : Packed ctx maximumBlockSize when head [] ⟨head, ctx.emptyHeaderSize + 4, []⟩ where
  applied := rfl
  size := rfl
  fits h := absurd rfl h
  sublist := .slnil
  unexpired _ h := absurd h List.not_mem_nil
  complete _ _ _ h := absurd h.symm (List.append_ne_nil_of_right_ne_nil _ (List.cons_ne_nil _ _))

/-- The round of the last transaction leaves what has been taken, and then takes it or not. -/
theorem complete_concat (h : Packed ctx maximumBlockSize when head pending p)
    (extra : List Transaction)
    (hlast : extra.head? = some trx ∨ trx.expiration < when ∨
      maximumBlockSize ≤ ctx.blockSize p.transactions + ctx.trxSize trx ∨
      ∃ e, applyTransaction ctx.toContext p.state trx = .error e) :
    ∀ before other after, pending ++ [trx] = before ++ other :: after → ∃ taken rest s,
      p.transactions ++ extra = taken ++ rest ∧ taken.Sublist before ∧
      taken.foldlM (applyTransaction ctx.toContext) head = .ok s ∧
      (rest.head? = some other ∨ other.expiration < when ∨
        maximumBlockSize ≤ ctx.blockSize taken + ctx.trxSize other ∨
        ∃ e, applyTransaction ctx.toContext s other = .error e) := by
  intro before other after hpending
  rcases List.eq_nil_or_concat after with rfl | ⟨after, last, rfl⟩
  · obtain ⟨rfl, hother⟩ := List.append_inj' hpending rfl
    obtain rfl : trx = other := List.singleton_inj.1 hother
    exact ⟨p.transactions, extra, p.state, rfl, h.sublist, h.applied, hlast⟩
  · rw [List.concat_eq_append, ← List.cons_append, ← List.append_assoc] at hpending
    obtain ⟨hpending, _⟩ := List.append_inj' hpending rfl
    obtain ⟨taken, rest, s, htaken, hsublist, happlied, hother⟩ := h.complete _ _ _ hpending
    refine ⟨taken, rest ++ extra, s, ?_, hsublist, happlied, ?_⟩
    · rw [htaken, List.append_assoc]
    · apply hother.imp_left
      intro hhead
      rw [List.head?_append, hhead]
      rfl

theorem skip (h : Packed ctx maximumBlockSize when head pending p)
    (hlast : trx.expiration < when ∨
      maximumBlockSize ≤ ctx.blockSize p.transactions + ctx.trxSize trx ∨
      ∃ e, applyTransaction ctx.toContext p.state trx = .error e) :
    Packed ctx maximumBlockSize when head (pending ++ [trx]) p where
  applied := h.applied
  size := h.size
  fits := h.fits
  sublist := h.sublist.trans (List.sublist_append_left _ _)
  unexpired := h.unexpired
  complete := by simpa using h.complete_concat [] (.inr hlast)

theorem take {s : Database} (h : Packed ctx maximumBlockSize when head pending p)
    (hunexpired : when ≤ trx.expiration)
    (hfits : p.totalBlockSize + ctx.trxSize trx < maximumBlockSize)
    (happly : applyTransaction ctx.toContext p.state trx = .ok s) :
    Packed ctx maximumBlockSize when head (pending ++ [trx])
      ⟨s, p.totalBlockSize + ctx.trxSize trx, p.transactions ++ [trx]⟩ where
  applied := by
    rw [List.foldlM_append, h.applied, ok_bind, List.foldlM_cons, happly]
    rfl
  size := by
    simp only [h.size, ProducingContext.blockSize, List.map_append, List.sum_append, List.map_cons,
      List.map_nil, List.sum_singleton, Nat.add_assoc]
  fits _ := hfits
  sublist := h.sublist.append (List.Sublist.refl _)
  unexpired := by
    intro other hother
    rcases List.mem_append.1 hother with hmem | hmem
    · exact h.unexpired other hmem
    · exact List.mem_singleton.1 hmem ▸ hunexpired
  complete := h.complete_concat [trx] (.inl rfl)

theorem round (h : Packed ctx maximumBlockSize when head pending p) (trx : Transaction) :
    Packed ctx maximumBlockSize when head (pending ++ [trx])
      (p.round ctx maximumBlockSize when trx) := by
  rw [Packing.round]
  split_ifs with hexpired hfull
  · exact h.skip (.inl hexpired)
  · rw [h.size] at hfull
    exact h.skip (.inr (.inl hfull))
  · cases happly : applyTransaction ctx.toContext p.state trx with
    | error e => exact h.skip (.inr (.inr ⟨e, happly⟩))
    | ok s => exact h.take (not_lt.1 hexpired) (not_le.1 hfull) happly

theorem rounds (h : Packed ctx maximumBlockSize when head pending p) (trxs : List Transaction) :
    Packed ctx maximumBlockSize when head (pending ++ trxs)
      (trxs.foldl (Packing.round ctx maximumBlockSize when) p) := by
  induction trxs generalizing pending p with
  | nil => rwa [List.append_nil]
  | cons trx trxs ih =>
    rw [List.foldl_cons, List.append_cons]
    exact ih (h.round trx)

end Packed

/-! ## Where the pending transactions stand -/

section

variable {ctx : Context} {s s' : Database} {trxs : List Transaction}

theorem foldlM_applyTransaction (trxs : List Transaction) (s : Database) :
    trxs.foldlM (applyTransaction ctx) s = runStages ctx (trxs.flatMap transactionStages) s := by
  unfold runStages
  induction trxs generalizing s with
  | nil => rfl
  | cons trx trxs ih =>
    rw [List.foldlM_cons, List.flatMap_cons, List.foldlM_append]
    exact bind_congr ih

/-- Whose turn it is at a time, and the size of its block. -/
structure SameTurns (s s' : Database) : Prop where
  clock : s'.clock = s.clock
  count : s'.wso.numScheduledWitnesses = s.wso.numScheduledWitnesses
  names : s'.wso.currentShuffledWitnesses = s.wso.currentShuffledWitnesses
  size : s'.dgp.maximumBlockSize = s.dgp.maximumBlockSize

/-- Transactions do not change whose turn it is. -/
theorem sameTurns_of_applied (h : trxs.foldlM (applyTransaction ctx) s = .ok s') :
    SameTurns s s' := by
  rw [foldlM_applyTransaction] at h
  have hclock : s'.clock = s.clock := runStages_clock (fun b hmem ↦ inTransaction_of_mem hmem) h
  suffices hseats : s'.wso.numScheduledWitnesses = s.wso.numScheduledWitnesses ∧
      s'.wso.currentShuffledWitnesses = s.wso.currentShuffledWitnesses ∧
      s'.dgp.maximumBlockSize = s.dgp.maximumBlockSize from
    ⟨hclock, hseats.1, hseats.2.1, hseats.2.2⟩
  refine foldlM_invariant (I := fun t ↦
    t.wso.numScheduledWitnesses = s.wso.numScheduledWitnesses ∧
      t.wso.currentShuffledWitnesses = s.wso.currentShuffledWitnesses ∧
      t.dgp.maximumBlockSize = s.dgp.maximumBlockSize) ?_ h ⟨rfl, rfl, rfl⟩
  intro s₁ stage s₂ hmem hrun hs₁
  have hinside := inTransaction_of_mem hmem
  have hstep := Stage.listingsStep hrun
  have hkeep {l : Listings} (hl : s₂.listings = l) :
      s₂.wso.numScheduledWitnesses = l.numScheduledWitnesses ∧
        s₂.wso.currentShuffledWitnesses = l.currentShuffledWitnesses ∧
        s₂.dgp.maximumBlockSize = l.maximumBlockSize :=
    ⟨congrArg Listings.numScheduledWitnesses hl, congrArg Listings.currentShuffledWitnesses hl,
      congrArg Listings.maximumBlockSize hl⟩
  rw [← hs₁.1, ← hs₁.2.1, ← hs₁.2.2]
  cases stage with
  | openTransaction _ | closeTransaction _ => exact hkeep hstep
  | operation _ _ => exact hkeep hstep.rest
  | _ => cases hinside

theorem SameTurns.slotAtTime (h : SameTurns s s') (g : GenesisState) (when : Time) :
    s'.slotAtTime g when = s.slotAtTime g when :=
  Database.slotAtTime_congr (congrArg Prod.fst h.clock)
    (congrArg (fun clock ↦ clock.2.1) h.clock) when

theorem SameTurns.scheduledWitness (h : SameTurns s s') (slotNum : ℕ) :
    s'.scheduledWitness slotNum = s.scheduledWitness slotNum := by
  have haslot : s'.dgp.currentAslot = s.dgp.currentAslot :=
    congrArg (fun clock ↦ clock.2.2) h.clock
  rw [Database.scheduledWitness, Database.scheduledWitness, h.count, h.names, haslot]

/-! ## The opening of a generated block -/

/-- A slot is later than the head. -/
theorem Database.time_lt_of_slot {g : GenesisState} {when : Time} (hinterval : 0 < g.blockInterval)
    (hfits : s.SlotFits g 1) (hslot : 0 < s.slotAtTime g when) : s.dgp.time < when := by
  rw [slotAtTime_of_fits hfits] at hslot
  have hstart : s.dgp.time < s.slotStart g + g.blockInterval := by
    rw [slotStart]
    split_ifs
    · exact Nat.lt_add_of_pos_right hinterval
    · exact Nat.lt_div_mul_add hinterval
  split_ifs at hslot with hearly
  · exact absurd hslot (lt_irrefl 0)
  · exact hstart.trans_le (not_lt.1 hearly)

/-- What a producer has made sure of in the header of its block. -/
structure Headered (ctx : Context) (s : Database) (w : Witness) (b : SignedBlock) : Prop where
  previous : s.dgp.headBlockId = b.previous
  later : s.dgp.time < b.timestamp
  first : b.blockNum = 1 → Database.genesisHardforks ctx.genesis b.timestamp = 0
  root : b.transactionMerkleRoot = ctx.env.merkleRoot b.transactions
  slot : 0 < s.slotAtTime ctx.genesis b.timestamp
  turn : s.scheduledWitness (s.slotAtTime ctx.genesis b.timestamp) = .ok b.witness
  witness : s.witnesses.find? b.witness = some w
  extensions : b.extensions = versionExtensions ctx.genesis w s.hardforks
  version : s.hardforks.currentHardforkVersion ≤ blockchainVersion

/-- What may still be wrong with the block: the key, and the size. -/
def Database.checkGenerated (ctx : Context) (s : Database) (signee : PublicKey) (w : Witness)
    (b : SignedBlock) : Exec Unit := do
  fcAssert (ctx.skip.witnessSignature = false → signee = w.signingKey) "validate_signee"
  fcAssert (ctx.env.blockPackSize b ≤ s.dgp.maximumBlockSize) "Block Size is too Big"

/-- Nobody looks at the key of a block whose signature is not checked. -/
theorem Database.checkGenerated_congr {signee signee' : PublicKey} {w : Witness} {b : SignedBlock}
    (h : ctx.skip.witnessSignature = false → signee = signee') :
    s.checkGenerated ctx signee w b = s.checkGenerated ctx signee' w b := by
  have hiff : (ctx.skip.witnessSignature = false → signee = w.signingKey) ↔
      (ctx.skip.witnessSignature = false → signee' = w.signingKey) := by
    apply forall_congr'
    intro hskip
    rw [h hskip]
  simp only [checkGenerated, fcAssert, hiff]

theorem fcAssert_bind_of {α : Type} {condition : Prop} [Decidable condition] {message : String}
    (h : condition) (next : Unit → Exec α) : (fcAssert condition message >>= next) = next () := by
  rw [fcAssert, if_pos h]
  rfl

theorem Headered.openBlock_eq {w : Witness} {b : SignedBlock} (h : Headered ctx s w b) :
    s.openBlock ctx b =
      (fun _ ↦ s.reportedBy b.witness (b.extensions.foldl VersionReport.read w.report)) <$>
        s.checkGenerated ctx (ctx.env.signee (decide (s.hasHardfork 1)) b) w b := by
  have hgenesis : s.applyGenesisHardforks ctx.genesis b = .ok s := by
    rw [Database.applyGenesisHardforks, if_neg]
    · rfl
    · intro hfirst
      exact hfirst.2.ne' (h.first hfirst.1)
  have hfound : s.getWitness b.witness = .ok w := by
    rw [Database.getWitness, h.witness]
    rfl
  have hschedule : (if ctx.skip.witnessScheduleCheck = true then pure () else do
      fcAssert (0 < s.slotAtTime ctx.genesis b.timestamp) "slot_num > 0"
      let scheduled ← s.scheduledWitness (s.slotAtTime ctx.genesis b.timestamp)
      fcAssert (b.witness = scheduled) "Witness produced block at wrong time") =
        (.ok () : Exec Unit) := by
    rw [fcAssert_bind_of h.slot, h.turn, ok_bind, fcAssert, if_pos rfl]
    split_ifs <;> rfl
  have hheader : s.validateBlockHeader ctx b = fcAssert (ctx.skip.witnessSignature = false →
      ctx.env.signee (decide (s.hasHardfork 1)) b = w.signingKey) "validate_signee" := by
    rw [Database.validateBlockHeader, fcAssert_bind_of h.previous, fcAssert_bind_of h.later, hfound,
      ok_bind]
    dsimp only
    rw [hschedule]
    exact bind_pure _
  have hextensions := Database.processHeaderExtensions_reportedBy (r := w.report) h.witness
    b.extensions
  rw [← Database.reportedBy_report h.witness] at hextensions
  have hversion : s.hardforks.currentHardforkVersion ≤
      (b.extensions.foldl VersionReport.read w.report).runningVersion := by
    rw [h.extensions, runningVersion_versionExtensions]
    exact h.version
  have hreported : (s.reportedBy b.witness (b.extensions.foldl VersionReport.read
      w.report)).getWitness b.witness =
        .ok (w.reporting (b.extensions.foldl VersionReport.read w.report)) := by
    rw [Database.getWitness_reportedBy, hfound]
    exact congrArg Except.ok (if_pos rfl)
  rw [Database.openBlock, hgenesis, ok_bind]
  dsimp only
  rw [fcAssert_bind_of fun _ ↦ .inl h.root, hheader, hextensions, Database.checkGenerated, map_bind]
  apply bind_congr
  intro _
  rw [map_eq_pure_bind]
  apply bind_congr
  intro _
  rw [ok_bind, hreported, ok_bind]
  exact fcAssert_bind_of hversion _

end

/-! ## Generated blocks -/

section

variable {ctx : ProducingContext} {node : Node ctx.env} {p : PendingNode ctx.env} {s₀ : Database}
  {chain : List (Database × SignedBlock)} {when : Time} {witnessOwner : AccountName} {key : ℕ}
  {b : SignedBlock}

/-- A signature is that of the key that has signed. -/
def ProducingContext.SignsFor (ctx : ProducingContext) : Prop :=
  ∀ canonical key (header : SignedBlockHeader) transactions,
    ctx.env.signee canonical
      { header with
        witnessSignature := ctx.sign canonical key header
        transactions := transactions } = ctx.publicKey key

theorem MainChain.currentVersion_le {s : Database} {ctx : Context}
    (hgenesis : initGenesis ctx.genesis = .ok s₀) (hmain : MainChain ctx s₀ chain s) :
    s.hardforks.currentHardforkVersion ≤ blockchainVersion := by
  obtain ⟨past, hchronicle, _⟩ := hmain.linked.chronicle
  rw [(hchronicle.hardforks_ordered hgenesis).version]
  exact hardforkVersions_le _

theorem PendingNode.buildBlock_eq_ok (h : p.buildBlock when witnessOwner key = .ok b) : ∃ w,
    p.headNode.state.getWitness witnessOwner = .ok w ∧
    b.previous = p.headNode.state.dgp.headBlockId ∧ b.timestamp = when ∧
    b.witness = witnessOwner ∧ b.transactions = (p.pack when).transactions ∧
    b.transactionMerkleRoot = ctx.env.merkleRoot b.transactions ∧
    b.extensions = versionExtensions ctx.genesis w p.headNode.state.hardforks := by
  simp only [buildBlock, bind_eq_ok, pure_eq_ok] at h
  obtain ⟨w, hw, _, _, rfl⟩ := h
  exact ⟨w, hw, rfl, rfl, rfl, rfl, rfl, rfl⟩

theorem PendingNode.buildBlock_signee (hsign : ctx.SignsFor)
    (h : p.buildBlock when witnessOwner key = .ok b) (hskip : ctx.skip.witnessSignature = false) :
    ctx.env.signee (decide (p.headNode.state.hasHardfork 1)) b = ctx.publicKey key := by
  simp only [buildBlock, bind_eq_ok, pure_eq_ok] at h
  obtain ⟨w, _, _, _, rfl⟩ := h
  simp only [hskip, Bool.false_eq_true, if_false]
  exact hsign _ _ ⟨_, _, _, _, _, 0⟩ _

/-- The push drops the session of the pending transactions anyway. -/
theorem PendingNode.pushBlock_dropSession {base : Node ctx.env}
    (h : Pends ctx.toContext base p) (b : SignedBlock) :
    p.dropSession.pushBlock ctx.toPendingContext b = p.pushBlock ctx.toPendingContext b := by
  have hcleared : p.dropSession.clearPending = p.clearPending := by
    rw [h.clearPending_eq, dropSession, h.headNode_eq]
    rfl
  have hpending : p.dropSession.pendingTx = p.pendingTx := rfl
  rw [pushBlock, pushBlock, hcleared, hpending]

/-- Generating a block is pushing one that the head accepts, up to its key and size, and that holds
what can be taken of the pending transactions. -/
theorem generated_blocks_apply (hsign : ctx.SignsFor) (hinterval : 0 < ctx.genesis.blockInterval)
    (hgenesis : initGenesis ctx.genesis = .ok s₀)
    (hreaches : PendingNode.Reaches ctx.toPendingContext (.idle node) p)
    (hmain : MainChain ctx.toContext s₀ chain p.headNode.state)
    (hfirst : chain = [] → Database.genesisHardforks ctx.genesis when = 0)
    (hfits : p.headNode.state.SlotFits ctx.genesis 1)
    (hturn : p.checkTurn when witnessOwner key = .ok ())
    (hbuild : p.buildBlock when witnessOwner key = .ok b) :
    p.generateBlock when witnessOwner key =
      ((p.pushBlock ctx.toPendingContext b).1,
        (p.pushBlock ctx.toPendingContext b).2.map fun _ ↦ b) ∧
    ∃ (w : Witness) (report : VersionReport),
      p.headNode.state.getWitness witnessOwner = .ok w ∧
      report.runningVersion = blockchainVersion ∧
      b.transactions = (p.pack when).transactions ∧
      Packed ctx p.headNode.state.dgp.maximumBlockSize when p.headNode.state p.pendingTx
        (p.pack when) ∧
      runStages ctx.toContext (.openBlock b :: b.transactions.flatMap transactionStages)
          p.headNode.state =
        (fun _ ↦ (p.pack when).state.reportedBy witnessOwner report) <$>
          p.headNode.state.checkGenerated ctx.toContext (ctx.publicKey key) w b := by
  have hpends := hreaches.pends
  have hturns := sameTurns_of_applied hpends.applied
  obtain ⟨w, hw, hprevious, hwhen, howner, htransactions, hroot, hextensions⟩ :=
    PendingNode.buildBlock_eq_ok hbuild
  have hsigned := PendingNode.buildBlock_signee hsign hbuild
  have hpacked : Packed ctx p.headNode.state.dgp.maximumBlockSize when p.headNode.state
      p.pendingTx (p.pack when) := by
    rw [PendingNode.pack, hturns.size]
    exact Packed.start.rounds p.pendingTx
  have hgenerate : p.generateBlock when witnessOwner key =
      ((p.pushBlock ctx.toPendingContext b).1,
        (p.pushBlock ctx.toPendingContext b).2.map fun _ ↦ b) := by
    rw [PendingNode.generateBlock, hturn]
    dsimp only
    rw [hbuild]
    dsimp only
    rw [PendingNode.pushBlock_dropSession hpends]
  have hfound : p.headNode.state.witnesses.find? b.witness = some w := by
    rw [howner]
    exact orUnknownKey_eq_ok.1 hw
  simp only [PendingNode.checkTurn, hturns.slotAtTime, hturns.scheduledWitness, bind_eq_ok,
    fcAssert_eq_ok] at hturn
  obtain ⟨_, hslot, _, hscheduled, _, rfl, _⟩ := hturn
  have hslotTime : 0 < p.headNode.state.slotAtTime ctx.genesis b.timestamp := hwhen ▸ hslot
  have hone : b.blockNum = 1 → Database.genesisHardforks ctx.genesis b.timestamp = 0 := by
    intro hone
    rw [SignedBlock.blockNum, hprevious, (hmain.headed hgenesis).head_num] at hone
    rw [hwhen]
    exact hfirst (List.length_eq_zero_iff.1 (Nat.succ.inj hone))
  have hheadered : Headered ctx.toContext p.headNode.state w b :=
    { previous := hprevious.symm
      later := Database.time_lt_of_slot hinterval hfits hslotTime
      first := hone
      root := hroot
      slot := hslotTime
      turn := by
        rw [hwhen, howner]
        exact hscheduled
      witness := hfound
      extensions := hextensions
      version := hmain.currentVersion_le hgenesis }
  have hproducer : b.witness ∈ p.headNode.state.witnesses.keys :=
    (Table.mem_keys_iff _ _).2 ⟨w, hfound⟩
  refine ⟨hgenerate, w, b.extensions.foldl VersionReport.read w.report, hw, ?_, htransactions,
    hpacked, ?_⟩
  · rw [hextensions]
    exact runningVersion_versionExtensions _ _ _
  · have hrun := @foldlM_applyTransaction ctx.toContext b.transactions p.headNode.state
    rw [htransactions, hpacked.applied, ← htransactions] at hrun
    rw [← Database.checkGenerated_congr hsigned, runStages, List.foldlM_cons, Stage.run,
      hheadered.openBlock_eq, ← howner, bind_map_left, map_eq_pure_bind]
    apply bind_congr
    intro _
    have hinside : ∀ stage ∈ b.transactions.flatMap transactionStages, stage.InTransaction :=
      fun _ ↦ inTransaction_of_mem
    have hstages := @runStages_reportedBy ctx.toContext _ _ _
      (b.extensions.foldl VersionReport.read w.report) hinside hproducer
    rw [← hrun] at hstages
    exact hstages

end

/-! ## The second block of a development network -/

def devProducer : ProducingContext :=
  { PendingNode.linkedPool with
    publicKey := id
    sign := fun _ key _ ↦ key
    emptyHeaderSize := 111
    skipBlockSizeCheck := false }

/-- The miner makes the second block, of the transfer that is pending. -/
theorem generated_blocks_apply_transfer :
    ∃ s₀, ∃ p : PendingNode devProducer.env, ∃ b w report,
      initGenesis devProducer.genesis = .ok s₀ ∧ b.transactions = [PendingNode.smallTransfer] ∧
      p.generateBlock 1531512806 initMinerName 7 =
        ((p.pushBlock devProducer.toPendingContext b).1,
          (p.pushBlock devProducer.toPendingContext b).2.map fun _ ↦ b) ∧
      runStages devProducer.toContext (.openBlock b :: b.transactions.flatMap transactionStages)
          p.headNode.state =
        (fun _ ↦ (p.pack 1531512806).state.reportedBy initMinerName report) <$>
          p.headNode.state.checkGenerated devProducer.toContext 7 w b := by
  have hok : okAnd (initGenesis devProducer.genesis) (fun s₀ ↦
      let start : PendingNode devProducer.env := .idle (Node.opened s₀)
      let pushed := start.call devProducer.toPendingContext (.pushBlock Node.firstBlock)
      let p := pushed.call devProducer.toPendingContext (.pushTransaction PendingNode.smallTransfer)
      Node.allMeet devProducer.toNodeContext (Node.goesThrough devProducer.toNodeContext)
        (Node.opened s₀) [.push Node.firstBlock] &&
      decide (p.headNode.headBlockNum = 1) &&
      decide (p.headNode.state.slotStart devProducer.genesis +
        1 * devProducer.genesis.blockInterval < 4294967296) &&
      decide (p.checkTurn 1531512806 initMinerName 7 = .ok ()) &&
      okAnd (p.buildBlock 1531512806 initMinerName 7) fun b ↦
        decide (b.transactions = [PendingNode.smallTransfer])) = true := by decide +kernel
  obtain ⟨s₀, hgenesis, hs₀⟩ := exists_of_okAnd hok
  simp only [Bool.and_eq_true, decide_eq_true_eq] at hs₀
  obtain ⟨⟨⟨⟨hcalls, hone⟩, hfits⟩, hturn⟩, hblock⟩ := hs₀
  obtain ⟨b, hbuild, htransactions⟩ := exists_of_okAnd hblock
  have hstart : PendingNode.Reaches devProducer.toPendingContext (.idle (Node.opened s₀))
    (.idle (Node.opened s₀)) := .refl
  have hpushed := hstart.call (.pushBlock Node.firstBlock)
  have hhead := (hstart.pends.pushBlock Node.firstBlock).1.headNode_eq
  have hkept := (hpushed.pends.pushTransaction PendingNode.smallTransfer).1.headNode_eq
  have hopens : Node.Opens devProducer.toNodeContext s₀ (Node.opened s₀) [] := .genesis
  have hstarts : Node.Settled devProducer.toNodeContext Set.univ s₀ (Node.opened s₀) [] :=
    hopens.settled rfl hgenesis (List.forall_mem_nil _)
  obtain ⟨⟨chain, hsettled⟩, _⟩ := (Node.reaches_afterCalls hcalls).atRest rfl hgenesis
    (linkedContext_separatesParents Set.univ) hstarts.toAtRest
  have hnode := congrArg Node.state (hkept.trans hhead)
  have hmain : MainChain devProducer.toContext s₀ chain _ := hsettled.main
  have hlength : 1 = chain.length :=
    hone.symm.trans ((congrArg (fun s ↦ s.dgp.headBlockNumber) hnode).trans
      (hsettled.headed hgenesis).number)
  have hfirst : chain = [] → Database.genesisHardforks devProducer.genesis 1531512806 = 0 := by
    rintro rfl
    exact absurd hlength Nat.one_ne_zero
  rw [Node.afterCalls] at hmain
  obtain ⟨hgenerate, w, report, _, _, _, _, hrun⟩ := generated_blocks_apply
    (fun _ _ _ _ ↦ rfl) (by decide) hgenesis (hpushed.call (.pushTransaction _))
    (hnode.symm ▸ hmain) hfirst hfits hturn hbuild
  exact ⟨s₀, _, b, w, report, hgenesis, of_decide_eq_true htransactions, hgenerate, hrun⟩

end SophiaTX.Chain
