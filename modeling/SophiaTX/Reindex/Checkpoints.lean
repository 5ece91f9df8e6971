import SophiaTX.Chain.Heights
import SophiaTX.Lib.Linked
import SophiaTX.Reindex.Equivalence

/-!
# Checkpoints

A node can be started with the ids of blocks that it must meet. Up to the last of them it skips most
checks when it applies blocks, but it compares the ids and checks the Merkle roots, so the chain
that it takes is the one that the last checkpoint names.
-/

namespace SophiaTX.Chain

open SophiaTX.Protocol SophiaTX.Lib

/-- The flags of blocks up to the last checkpoint. The Merkle roots are checked. -/
def checkpointFlags : SkipFlags where
  witnessSignature := true
  transactionSignatures := true
  transactionDupeCheck := true
  taposCheck := true
  authorityCheck := true
  undoHistoryCheck := true
  witnessScheduleCheck := true
  validate := true
  validateInvariants := true

/-- `_checkpoints`, in the order of the numbers. -/
structure Checkpoints where
  entries : List (ℕ × BlockId)
  ordered : entries.Pairwise fun entry later ↦ entry.1 < later.1

namespace Checkpoints

def none : Checkpoints := ⟨[], .nil⟩

def find? (checkpoints : Checkpoints) (blockNum : ℕ) : Option BlockId :=
  (checkpoints.entries.find? fun entry ↦ decide (entry.1 = blockNum)).map Prod.snd

/-- The checkpoint with the highest number. -/
def last? (checkpoints : Checkpoints) : Option (ℕ × BlockId) := checkpoints.entries.getLast?

end Checkpoints

def Context.checkpointing (ctx : Context) : Context := { ctx with skip := checkpointFlags }

/-- `apply_block` of a node with checkpoints. -/
def applyCheckpointed (ctx : Context) (checkpoints : Checkpoints) (s : Database)
    (b : SignedBlock) : Exec Database :=
  match checkpoints.last? with
  | none => applyBlock ctx s b
  | some (lastNum, lastId) =>
    if lastId = BlockId.null then applyBlock ctx s b
    else do
      fcAssert (∀ id ∈ checkpoints.find? b.blockNum, ctx.env.blockId b = id)
        "Block did not match checkpoint"
      applyBlock (if b.blockNum ≤ lastNum then ctx.checkpointing else ctx) s b

variable {ctx : Context} {s s' s₀ : Database} {b : SignedBlock} {checkpoints : Checkpoints}
  {lastNum : ℕ} {lastId : BlockId} {log : List SignedBlock}

/-! ## Numbers and ids -/

namespace Checkpoints

theorem find?_last (h : checkpoints.last? = some (lastNum, lastId)) :
    checkpoints.find? lastNum = some lastId := by
  obtain ⟨init, hentries⟩ := List.getLast?_eq_some_iff.1 h
  have hordered := checkpoints.ordered
  rw [hentries, List.pairwise_append] at hordered
  have hnone : init.find? (fun entry ↦ decide (entry.1 = lastNum)) = Option.none := by
    rw [List.find?_eq_none]
    intro entry hentry
    have hlt := hordered.2.2 entry hentry (lastNum, lastId) (List.mem_singleton_self _)
    simpa using hlt.ne
  rw [find?, hentries, List.find?_append, hnone]
  simp

end Checkpoints

theorem takesLinked_applyBlock (ctx : Context) : TakesLinked (applyBlock ctx)
    (fun s ↦ s.dgp.headBlockId) (fun b ↦ b.previous) ctx.env.blockId where
  on h := (applyBlock_heading h).1
  becomes h := congrArg Heading.headBlockId (applyBlock_heading h).2

/-- Each block that is taken is one higher than the head. -/
theorem num_of_linked {f : Database → SignedBlock → Exec Database}
    (hf : TakesLinked f (fun s ↦ s.dgp.headBlockId) (fun b ↦ b.previous) ctx.env.blockId)
    {blocks : List SignedBlock} (h : blocks.foldlM f s = .ok s') :
    s'.dgp.headBlockId.num = s.dgp.headBlockId.num + blocks.length ∧
      ∀ b ∈ blocks, s.dgp.headBlockId.num < b.blockNum ∧ b.blockNum ≤ s'.dgp.headBlockId.num := by
  induction blocks generalizing s with
  | nil =>
    rw [List.foldlM_nil, pure_eq_ok] at h
    exact ⟨h ▸ rfl, fun b hb ↦ absurd hb List.not_mem_nil⟩
  | cons b blocks ih =>
    rw [List.foldlM_cons, bind_eq_ok] at h
    obtain ⟨s₁, hb, hrest⟩ := h
    obtain ⟨hlength, hblocks⟩ := ih hrest
    have hnum : b.blockNum = s.dgp.headBlockId.num + 1 := by
      rw [SignedBlock.blockNum, ← hf.on hb]
    have hs₁ : s₁.dgp.headBlockId.num = b.blockNum := by
      rw [hf.becomes hb]
      rfl
    rw [List.length_cons]
    refine ⟨by omega, fun other hother ↦ ?_⟩
    rcases List.mem_cons.1 hother with rfl | hmem
    · omega
    · have hbounds := hblocks other hmem
      omega

/-! ## What is skipped -/

/-- The Merkle root in the header is accepted for the transactions. -/
def MerkleAccepted (env : Env) (b : SignedBlock) : Prop :=
  b.transactionMerkleRoot = env.merkleRoot b.transactions ∨
    (b.blockNum, env.merkleRoot b.transactions) ∈ Database.sharedDbMerkle

instance (env : Env) (b : SignedBlock) : Decidable (MerkleAccepted env b) :=
  inferInstanceAs (Decidable (_ ∨ _))

theorem applyBlock_merkleAccepted (hcheck : ctx.skip.merkleCheck = false)
    (h : applyBlock ctx s b = .ok s') : MerkleAccepted ctx.env b := by
  simp only [applyBlock, runStages, stages_eq, List.foldlM_cons, bind_eq_ok] at h
  obtain ⟨_, ⟨_, hopen, _⟩, _⟩ := h
  simp only [Stage.run, Database.openBlock, bind_eq_ok, fcAssert_eq_ok] at hopen
  obtain ⟨_, _, _, hroot, _⟩ := hopen
  exact hroot hcheck

theorem openBlock_checkpointing (hroot : MerkleAccepted ctx.env b) :
    Extends (s.openBlock ctx.reindexing b) (s.openBlock ctx.checkpointing b) := by
  unfold Database.openBlock
  refine (Extends.refl _).bind fun s₁ ↦ ?_
  exact (fcAssert_extends _ fun _ _ ↦ hroot).bind fun _ ↦ .refl _

/-- Where a stage of a replay succeeds, it does so up to the last checkpoint as well. -/
theorem Stage.run_checkpointing {stage : Stage}
    (hroot : ∀ b, stage = .openBlock b → MerkleAccepted ctx.env b) :
    Extends (stage.run ctx.reindexing s) (stage.run ctx.checkpointing s) := by
  cases stage with
  | openBlock b => exact openBlock_checkpointing (hroot b rfl)
  | operation _ op =>
    intro s' h
    obtain ⟨op, fee⟩ := op
    cases op <;> exact h
  | updateGlobalDynamicData b =>
    intro s' h
    simp only [run, Database.updateGlobalDynamicData, bind_eq_ok, throwIf_eq_ok] at h ⊢
    obtain ⟨_, hslot, s₁, hmissed, _, _, hs'⟩ := h
    exact ⟨(), hslot, s₁, hmissed, (), fun hskip ↦ Bool.false_ne_true hskip.1.symm, hs'⟩
  | _ => exact .refl _

theorem applyBlock_checkpointing (hroot : MerkleAccepted ctx.env b) :
    Extends (applyBlock ctx.reindexing s b) (applyBlock ctx.checkpointing s b) := by
  have hstages : ∀ stages : List Stage, (∀ b', .openBlock b' ∈ stages → b' = b) → ∀ s,
      Extends (runStages ctx.reindexing stages s) (runStages ctx.checkpointing stages s) := by
    intro stages hopen
    induction stages with
    | nil => exact fun s ↦ .refl _
    | cons stage stages ih =>
      intro s
      rw [runStages, runStages, List.foldlM_cons, List.foldlM_cons]
      apply Extends.bind
      · apply Stage.run_checkpointing
        rintro b' rfl
        exact hopen b' List.mem_cons_self ▸ hroot
      · exact ih fun b' hb' ↦ hopen b' (List.mem_cons_of_mem _ hb')
  apply (hstages _ _ s).bind fun _ ↦ .refl _
  intro b' hb'
  rw [stages_eq] at hb'
  simpa [SignedBlock.stagesAfterHead, SignedBlock.stagesAfterCommit, transactionStages] using hb'

/-! ## The chain of a checkpoint -/

section

variable (hlast : checkpoints.last? = some (lastNum, lastId)) (hid : lastId ≠ BlockId.null)

include hlast hid

/-- A block that a node with checkpoints takes meets them. -/
theorem applyCheckpointed_eq_ok : applyCheckpointed ctx checkpoints s b = .ok s' ↔
    (∀ id ∈ checkpoints.find? b.blockNum, ctx.env.blockId b = id) ∧
      applyBlock (if b.blockNum ≤ lastNum then ctx.checkpointing else ctx) s b = .ok s' := by
  simp only [applyCheckpointed, hlast, if_neg hid, bind_eq_ok, fcAssert_eq_ok, exists_const]

theorem takesLinked_applyCheckpointed : TakesLinked (applyCheckpointed ctx checkpoints)
    (fun s ↦ s.dgp.headBlockId) (fun b ↦ b.previous) ctx.env.blockId := by
  constructor
  · intro s b s' h
    have happly := ((applyCheckpointed_eq_ok hlast hid).1 h).2
    split_ifs at happly
    · exact (takesLinked_applyBlock ctx.checkpointing).on happly
    · exact (takesLinked_applyBlock ctx).on happly
  · intro s b s' h
    have happly := ((applyCheckpointed_eq_ok hlast hid).1 h).2
    split_ifs at happly
    · exact (takesLinked_applyBlock ctx.checkpointing).becomes happly
    · exact (takesLinked_applyBlock ctx).becomes happly

/-- The Merkle roots are checked on both sides of the last checkpoint. -/
theorem merkleAccepted_of_checkpointed (hcheck : ctx.skip.merkleCheck = false)
    (h : applyCheckpointed ctx checkpoints s b = .ok s') : MerkleAccepted ctx.env b := by
  have happly := ((applyCheckpointed_eq_ok hlast hid).1 h).2
  split_ifs at happly
  · have haccepted : MerkleAccepted ctx.checkpointing.env b := applyBlock_merkleAccepted rfl happly
    exact haccepted
  · exact applyBlock_merkleAccepted hcheck happly

/-- Blocks of a live chain that meet the checkpoints are taken, and lead to the same state but for
the table of transactions. -/
theorem applyCheckpointed_forget (hlive : ctx.skip = {})
    (hmatch : ∀ b ∈ log, ∀ id ∈ checkpoints.find? b.blockNum, ctx.env.blockId b = id)
    (hlow : ∀ b ∈ log, b.blockNum ≤ lastNum) (h : applyBlocks ctx s log = .ok s') :
    log.foldlM (applyCheckpointed ctx checkpoints) s.forget = .ok s'.forget := by
  induction log generalizing s with
  | nil => exact congrArg _ (congrArg _ (pure_eq_ok.1 h))
  | cons b log ih =>
    rw [applyBlocks, List.foldlM_cons, bind_eq_ok] at h
    obtain ⟨s₁, hb, hrest⟩ := h
    have hcheck : ctx.skip.merkleCheck = false := by rw [hlive]
    have htaken : applyCheckpointed ctx checkpoints s.forget b = .ok s₁.forget := by
      rw [applyCheckpointed_eq_ok hlast hid, if_pos (hlow b List.mem_cons_self)]
      refine ⟨hmatch b List.mem_cons_self, ?_⟩
      exact applyBlock_checkpointing (applyBlock_merkleAccepted hcheck hb) _
        (applyBlock_forget hlive hb)
    rw [List.foldlM_cons, htaken, ok_bind]
    exact ih (fun b hmem ↦ hmatch b (List.mem_cons_of_mem _ hmem))
      (fun b hmem ↦ hlow b (List.mem_cons_of_mem _ hmem)) hrest

/-- Above the last checkpoint everything is checked. -/
theorem applyBlocks_of_checkpointed {blocks : List SignedBlock}
    (habove : ∀ b ∈ blocks, lastNum < b.blockNum) :
    Extends (blocks.foldlM (applyCheckpointed ctx checkpoints) s) (applyBlocks ctx s blocks) := by
  induction blocks generalizing s with
  | nil => exact .refl _
  | cons b blocks ih =>
    rw [applyBlocks, List.foldlM_cons, List.foldlM_cons]
    apply Extends.bind
    · intro s₁ hb
      have happly := ((applyCheckpointed_eq_ok hlast hid).1 hb).2
      rwa [if_neg (not_le.2 (habove b List.mem_cons_self))] at happly
    · intro s₁
      exact ih fun b hmem ↦ habove b (List.mem_cons_of_mem _ hmem)

/-- A chain that has come up to the last checkpoint has its id. -/
theorem head_of_checkpointed {blocks : List SignedBlock} {t : Database}
    (hs : s.dgp.headBlockId.num = 0) (hne : blocks ≠ []) (hlength : blocks.length = lastNum)
    (h : blocks.foldlM (applyCheckpointed ctx checkpoints) s = .ok t) :
    t.dgp.headBlockId = lastId := by
  have hlinked := @takesLinked_applyCheckpointed ctx _ _ _ hlast hid
  rcases List.eq_nil_or_concat blocks with rfl | ⟨blocks, b, rfl⟩
  · exact absurd rfl hne
  rw [List.concat_eq_append] at h hlength
  obtain ⟨hnum, _⟩ := num_of_linked hlinked h
  simp only [List.foldlM_append, List.foldlM_cons, List.foldlM_nil, bind_eq_ok, pure_eq_ok] at h
  obtain ⟨t₁, _, _, hb, rfl⟩ := h
  have hhead := hlinked.becomes hb
  have hlastNum : b.blockNum = lastNum := by
    calc b.blockNum = (ctx.env.blockId b).num := rfl
      _ = lastNum := by rw [← hhead, hnum, hs, zero_add, hlength]
  have hmeets := ((applyCheckpointed_eq_ok hlast hid).1 hb).1
  rw [hlastNum] at hmeets
  exact hhead.trans (hmeets lastId (Checkpoints.find?_last hlast))

end

/-- Nobody has another block with the id of one of these: the id is a hash of the header, which
names the transactions by their Merkle root. -/
structure NamedByIds (env : Env) (log : List SignedBlock) : Prop where
  header : ∀ b ∈ log, ∀ b' : SignedBlock, env.blockId b' = env.blockId b →
    b'.toSignedBlockHeader = b.toSignedBlockHeader
  transactions : ∀ b ∈ log, ∀ transactions,
    MerkleAccepted env { b with transactions := transactions } → transactions = b.transactions

/-- A node with checkpoints on a live chain takes the chain up to the last of them and no other. It
is in the state of the live chain then, but for the table of transactions, and checks everything
from there on. -/
theorem checkpoints_fix_the_chain (hlive : ctx.skip = {})
    (hgenesis : initGenesis ctx.genesis = .ok s₀) (hlog : applyBlocks ctx s₀ log = .ok s)
    (hids : NamedByIds ctx.env log) (hlast : checkpoints.last? = some (log.length, lastId))
    (hid : lastId ≠ BlockId.null)
    (hmatch : ∀ b ∈ log, ∀ id ∈ checkpoints.find? b.blockNum, ctx.env.blockId b = id) :
    log.foldlM (applyCheckpointed ctx checkpoints) s₀ = .ok s.forget ∧
    ∀ blocks t, log.length ≤ blocks.length →
      blocks.foldlM (applyCheckpointed ctx checkpoints) s₀ = .ok t →
      ∃ rest, blocks = log ++ rest ∧ applyBlocks ctx s.forget rest = .ok t := by
  have hstart : s₀.forget = s₀ ∧ s₀.dgp.headBlockId.num = 0 := by
    simp only [initGenesis, bind_eq_ok, pure_eq_ok] at hgenesis
    obtain ⟨_, _, _, _, _, _, rfl⟩ := hgenesis
    exact ⟨rfl, rfl⟩
  obtain ⟨hhead, hnums⟩ := num_of_linked (takesLinked_applyBlock ctx) hlog
  rw [hstart.2, zero_add] at hhead
  have hlow : ∀ b ∈ log, b.blockNum ≤ log.length := fun b hb ↦ hhead ▸ (hnums b hb).2
  have htaken := applyCheckpointed_forget hlast hid hlive hmatch hlow hlog
  rw [hstart.1] at htaken
  refine ⟨htaken, fun blocks t hlength hblocks ↦ ?_⟩
  have hlinked := @takesLinked_applyCheckpointed ctx _ _ _ hlast hid
  obtain ⟨front, rest, rfl, hfront⟩ : ∃ front rest, blocks = front ++ rest ∧
      front.length = log.length :=
    ⟨blocks.take log.length, blocks.drop log.length, (List.take_append_drop _ _).symm,
      List.length_take_of_le hlength⟩
  rw [List.foldlM_append, bind_eq_ok] at hblocks
  obtain ⟨t₁, hfirst, hrest⟩ := hblocks
  have hsame : t₁.dgp.headBlockId = s.forget.dgp.headBlockId := by
    by_cases hne : log = []
    · subst hne
      have hnil : front = [] := List.length_eq_zero_iff.1 hfront
      subst hnil
      rw [List.foldlM_nil, pure_eq_ok] at hfirst htaken
      rw [← hfirst, ← htaken]
    · have hfrontNe : front ≠ [] := by
        rintro rfl
        exact hne (List.length_eq_zero_iff.1 hfront.symm)
      rw [head_of_checkpointed hlast hid hstart.2 hfrontNe hfront hfirst,
        head_of_checkpointed hlast hid hstart.2 hne rfl htaken]
  have hname : ∀ b ∈ log, ∀ t b' t', applyCheckpointed ctx checkpoints t b' = .ok t' →
      ctx.env.blockId b' = ctx.env.blockId b → b' = b := by
    intro b hb t b' t' hb' hsameId
    have hheader := hids.header b hb b' hsameId
    have hroot := merkleAccepted_of_checkpointed hlast hid (by rw [hlive]) hb'
    have hb'_eq : b' = { b with transactions := b'.transactions } := by
      calc b' = ⟨b'.toSignedBlockHeader, b'.transactions⟩ := rfl
        _ = ⟨b.toSignedBlockHeader, b'.transactions⟩ := by rw [hheader]
    rw [hb'_eq] at hroot
    rw [hb'_eq, hids.transactions b hb b'.transactions hroot]
  have heq : front = log := hlinked.unique hlinked hname hfront htaken hfirst hsame
  subst heq
  rw [htaken, Except.ok.injEq] at hfirst
  subst hfirst
  refine ⟨rest, rfl, ?_⟩
  apply applyBlocks_of_checkpointed hlast hid _ _ hrest
  intro b hb
  have habove := ((num_of_linked hlinked hrest).2 b hb).1
  exact hhead ▸ habove

/-- The first block of a network, with a transfer. -/
def firstNamed : SignedBlock :=
  { devBlock .null 1531512803
      [devTransaction 1531512900 8 (.transfer 1000 initMinerName ⟨1, sophiatxSymbol⟩ [])] with
    transactionMerkleRoot := 1 }

/-- The second one, with a transfer back. -/
def secondNamed : SignedBlock :=
  { devBlock ⟨1, 1⟩ 1531512806
      [devTransaction 1531512901 7 (.transfer initMinerName 1000 ⟨2, sophiatxSymbol⟩ [])] with
    transactionMerkleRoot := 2 }

/-- A block on top of them. -/
def unnamedBlock : SignedBlock := devBlock ⟨2, 2⟩ 1531512809 []

/-- A hash that tells two values from each other and from all others. -/
def nameOf {α : Type} [DecidableEq α] (first second x : α) : ℕ :=
  if x = first then 1 else if x = second then 2 else 0

theorem eq_of_nameOf {α : Type} [DecidableEq α] {first second x y : α} (hx : x ∈ [first, second])
    (hname : nameOf first second y = nameOf first second x) : y = x := by
  have hx' : x = first ∨ x = second := by simpa using hx
  unfold nameOf at hname
  split_ifs at hname <;> simp_all

/-- A development network whose hashes tell the headers and the transactions of the first two blocks
from all others. -/
def namedContext : Context where
  genesis := devGenesis
  env :=
    { devEnv with
      headerHash := nameOf firstNamed.toSignedBlockHeader secondNamed.toSignedBlockHeader
      merkleRoot := nameOf firstNamed.transactions secondNamed.transactions }
  skip := {}
  producing := false

theorem namedByIds_namedContext : NamedByIds namedContext.env [firstNamed, secondNamed] where
  header := by
    intro b hb b' hid
    have hhash : namedContext.env.headerHash b'.toSignedBlockHeader =
        namedContext.env.headerHash b.toSignedBlockHeader := congrArg BlockId.hash hid
    exact eq_of_nameOf (List.mem_map_of_mem hb) hhash
  transactions := by
    intro b hb transactions hroot
    have hb' : b = firstNamed ∨ b = secondNamed := by simpa using hb
    have hown : b.transactionMerkleRoot = namedContext.env.merkleRoot b.transactions ∧
        b.blockNum ∉ Database.sharedDbMerkle.map Prod.fst := by
      rcases hb' with rfl | rfl <;> decide +kernel
    rcases hroot with hroot | hshared
    · exact eq_of_nameOf (List.mem_map_of_mem hb) (hroot.symm.trans hown.1)
    · exact absurd (List.mem_map_of_mem hshared) hown.2

def namedCheckpoints : Checkpoints :=
  ⟨[(1, namedContext.env.blockId firstNamed), (2, namedContext.env.blockId secondNamed)],
    by decide⟩

/-- A node with checkpoints at both blocks takes them, and no others, before a third one. -/
theorem checkpoints_fix_the_chain_named :
    ∃ s₀ s t, initGenesis devGenesis = .ok s₀ ∧
      applyBlocks namedContext s₀ [firstNamed, secondNamed] = .ok s ∧
      [firstNamed, secondNamed, unnamedBlock].foldlM
        (applyCheckpointed namedContext namedCheckpoints) s₀ = .ok t ∧
      applyBlocks namedContext s.forget [unnamedBlock] = .ok t ∧
      ∀ blocks t', 2 ≤ blocks.length →
        blocks.foldlM (applyCheckpointed namedContext namedCheckpoints) s₀ = .ok t' →
        ∃ rest, blocks = [firstNamed, secondNamed] ++ rest := by
  have hok : okAnd (initGenesis devGenesis) (fun s₀ ↦
      okAnd (applyBlocks namedContext s₀ [firstNamed, secondNamed]) (fun _ ↦ true) &&
        okAnd ([firstNamed, secondNamed, unnamedBlock].foldlM
          (applyCheckpointed namedContext namedCheckpoints) s₀) fun _ ↦ true) = true := by
    decide +kernel
  obtain ⟨s₀, hgenesis, hs₀⟩ := exists_of_okAnd hok
  rw [Bool.and_eq_true] at hs₀
  obtain ⟨s, hlog, _⟩ := exists_of_okAnd hs₀.1
  obtain ⟨t, htaken, _⟩ := exists_of_okAnd hs₀.2
  have hlast : namedCheckpoints.last? = some (2, namedContext.env.blockId secondNamed) := rfl
  obtain ⟨_, hunique⟩ := checkpoints_fix_the_chain rfl hgenesis hlog namedByIds_namedContext hlast
    (by decide) (by decide)
  obtain ⟨rest, hblocks, hrest⟩ := hunique _ t (by decide) htaken
  have hthird : [firstNamed, secondNamed] ++ [unnamedBlock] = [firstNamed, secondNamed] ++ rest :=
    hblocks
  obtain rfl := List.append_cancel_left hthird
  refine ⟨s₀, s, t, hgenesis, hlog, htaken, hrest, fun blocks t' hlength hother ↦ ?_⟩
  obtain ⟨rest, hfixed, _⟩ := hunique blocks t' hlength hother
  exact ⟨rest, hfixed⟩

end SophiaTX.Chain
