import SophiaTX.Chain.MainChain
import SophiaTX.Reindex.Forgetting

/-!
# Replay and live operation

`reindex` applies the blocks of the log with most checks skipped. Skipping checks changes nothing
where they pass. But the flag that skips the check for duplicates also skips the row that the check
would need later, so a replayed node differs from a live one in the table of transactions.
-/

namespace SophiaTX.Chain

open SophiaTX.Protocol SophiaTX.Lib

/-- The flags `reindex` applies blocks with. -/
def reindexFlags : SkipFlags where
  witnessSignature := true
  transactionSignatures := true
  transactionDupeCheck := true
  taposCheck := true
  merkleCheck := true
  witnessScheduleCheck := true
  authorityCheck := true
  validate := true
  validateInvariants := true

def Context.reindexing (ctx : Context) : Context := { ctx with skip := reindexFlags }

/-- `reindex`: the blocks of the log are applied to the state after genesis. -/
def reindex (ctx : Context) (log : List SignedBlock) : Exec Database := do
  let s ← initGenesis ctx.genesis
  fcAssert (log ≠ []) "No blocks in block log. Cannot reindex an empty chain."
  applyBlocks ctx.reindexing s log

variable {ctx : Context} {s s' : Database} {b : SignedBlock}

/-! ## Skipped checks -/

theorem fcAssert_extends {p q : Prop} [Decidable p] [Decidable q] (message : String) (h : p → q) :
    Extends (fcAssert p message) (fcAssert q message) := by
  intro _ hp
  exact fcAssert_eq_ok.2 (h (fcAssert_eq_ok.1 hp))

theorem validateBlockHeader_extends (s : Database) (b : SignedBlock) :
    Extends (s.validateBlockHeader ctx b) (s.validateBlockHeader ctx.reindexing b) := by
  unfold Database.validateBlockHeader
  refine (Extends.refl _).bind fun _ ↦ (Extends.refl _).bind fun _ ↦ (Extends.refl _).bind fun w ↦
    (fcAssert_extends _ fun _ hskip ↦ by cases hskip).bind fun _ ↦ ?_
  exact fun _ _ ↦ rfl

theorem openBlock_extends (s : Database) (b : SignedBlock) :
    Extends (s.openBlock ctx b) (s.openBlock ctx.reindexing b) := by
  unfold Database.openBlock
  refine (Extends.refl _).bind fun s₁ ↦ ?_
  refine (fcAssert_extends _ fun _ hskip ↦ by cases hskip).bind fun _ ↦ ?_
  exact (validateBlockHeader_extends s₁ b).bind fun _ ↦ .refl _

theorem applyOperation_reindexing (s : Database) (op : FeeOperation) :
    s.applyOperation ctx.reindexing op = s.applyOperation ctx op := by
  obtain ⟨op, fee⟩ := op
  cases op <;> rfl

/-- Where a stage of a live node succeeds, it does so with the checks skipped, and with the same
result. -/
theorem Stage.run_reindexing {stage : Stage} (hlive : ctx.skip = {})
    (hopen : ∀ trx, stage ≠ .openTransaction trx) :
    Extends (stage.run ctx s) (stage.run ctx.reindexing s) := by
  cases stage with
  | openTransaction trx => exact absurd rfl (hopen trx)
  | openBlock b => exact openBlock_extends s b
  | operation _ op => exact fun s' h ↦ (applyOperation_reindexing s op).trans h
  | updateGlobalDynamicData b =>
    obtain ⟨g, env, skip, producing⟩ := ctx
    obtain rfl : skip = {} := hlive
    exact .refl _
  | _ => exact .refl _

/-! ## The simulation -/

/-- A state without the table of transactions, as a replayed node has it. -/
def Database.forget (s : Database) : Database := s.withTransactions Table.empty

theorem openTransaction_forget {trx : Transaction} (hlive : ctx.skip = {})
    (h : s.openTransaction ctx trx = .ok s') :
    s.forget.openTransaction ctx.reindexing trx = .ok s'.forget := by
  have hs' : s'.forget = s.forget := by
    simp only [Database.openTransaction, hlive, bind_eq_ok, if_true, pure_eq_ok] at h
    obtain ⟨_, _, _, _, _, _, _, _, _, _, rfl⟩ := h
    rfl
  have htime : s.forget.checkTransactionTime ctx.reindexing trx = .ok () := by
    simp only [Database.openTransaction, bind_eq_ok] at h
    obtain ⟨_, _, _, _, _, _, _, htime, _⟩ := h
    unfold Database.checkTransactionTime at htime ⊢
    by_cases hhead : s.dgp.headBlockNumber = 0
    · exact if_pos hhead
    · rw [if_neg hhead] at htime
      simp only [bind_eq_ok, throwIf_eq_ok] at htime
      obtain ⟨_, _, _, hmax, hlater⟩ := htime
      refine (if_neg hhead).trans ?_
      simp only [bind_eq_ok, throwIf_eq_ok]
      have htapos : ctx.reindexing.skip.taposCheck ≠ false := Bool.false_ne_true.symm
      exact ⟨(), fun hskip ↦ htapos hskip.1, (), hmax, hlater⟩
  rw [hs']
  simp only [Database.openTransaction, bind_eq_ok]
  exact ⟨(), rfl, (), fcAssert_eq_ok.2 (.inl rfl), (), rfl, (), htime, rfl⟩

theorem Stage.run_forget {stage : Stage} (hlive : ctx.skip = {}) (h : stage.run ctx s = .ok s') :
    stage.run ctx.reindexing s.forget = .ok s'.forget := by
  by_cases hopen : ∀ trx, stage ≠ .openTransaction trx
  · by_cases hclear : stage = .clearExpiredTransactions
    · subst hclear
      obtain rfl : s.clearExpiredTransactions = s' := pure_eq_ok.1 h
      rfl
    · have hrun := run_reindexing hlive hopen s' h
      rw [Database.forget, run_withTransactions Table.empty s hopen hclear, hrun]
      rfl
  · obtain ⟨trx, rfl⟩ := not_forall_not.1 hopen
    exact openTransaction_forget hlive h

theorem runStages_forget {stages : List Stage} (hlive : ctx.skip = {})
    (h : runStages ctx stages s = .ok s') :
    runStages ctx.reindexing stages s.forget = .ok s'.forget := by
  induction stages generalizing s with
  | nil => exact congrArg _ (congrArg _ (pure_eq_ok.1 h))
  | cons stage stages ih =>
    rw [runStages, List.foldlM_cons, bind_eq_ok] at h ⊢
    obtain ⟨s₁, hstage, hrest⟩ := h
    exact ⟨s₁.forget, Stage.run_forget hlive hstage, ih hrest⟩

theorem applyBlock_forget (hlive : ctx.skip = {}) (h : applyBlock ctx s b = .ok s') :
    applyBlock ctx.reindexing s.forget b = .ok s'.forget := by
  simp only [applyBlock, bind_eq_ok, pure_eq_ok] at h ⊢
  obtain ⟨s₁, hrun, _, hcheck, rfl⟩ := h
  refine ⟨_, runStages_forget hlive hrun, (), ?_, rfl⟩
  have hinvariants : s₁.validateInvariants ctx.genesis = .ok () := by
    simpa [Database.checkInvariants, hlive] using hcheck
  unfold Database.checkInvariants
  split_ifs
  · rfl
  · exact hinvariants

theorem applyBlocks_forget {blocks : List SignedBlock} (hlive : ctx.skip = {})
    (h : applyBlocks ctx s blocks = .ok s') :
    applyBlocks ctx.reindexing s.forget blocks = .ok s'.forget := by
  induction blocks generalizing s with
  | nil => exact congrArg _ (congrArg _ (pure_eq_ok.1 h))
  | cons b blocks ih =>
    rw [applyBlocks, List.foldlM_cons, bind_eq_ok] at h ⊢
    obtain ⟨s₁, hb, hrest⟩ := h
    exact ⟨s₁.forget, applyBlock_forget hlive hb, ih hrest⟩

/-! ## What is left in the table -/

/-- A row of the table belongs to a transaction of the past. -/
theorem Chronicle.row_opened {C : Database → Stage → Prop} {s₀ : Database} {past : List Moment}
    {pending : Option (List Stage)} {id : ℕ} {expiration : Time}
    (hs₀ : ∀ id, s₀.registry.transactions id = none) (h : Chronicle ctx C s₀ past pending s)
    (hrow : s.registry.transactions id = some expiration) :
    ∃ opening trx, (opening, .openTransaction trx) ∈ past ∧ ctx.env.trxId trx = id ∧
      trx.expiration = expiration := by
  induction h with
  | refl =>
    rw [hs₀] at hrow
    cases hrow
  | start _ _ ih => exact ih hrow
  | finish _ _ ih => exact ih hrow
  | @stage past s s' stage rest h _ hrun ih =>
    have hstep := Stage.registry_step hrun
    have holder : s.registry.transactions id = some expiration →
        ∃ opening trx, (opening, .openTransaction trx) ∈ (s, stage) :: past ∧
          ctx.env.trxId trx = id ∧ trx.expiration = expiration := by
      intro hbefore
      obtain ⟨opening, trx, hmem, htrx⟩ := ih hbefore
      exact ⟨opening, trx, List.mem_cons_of_mem _ hmem, htrx⟩
    by_cases hopen : ∀ trx, stage ≠ .openTransaction trx
    · by_cases hclear : stage = .clearExpiredTransactions
      · subst hclear
        rw [show s'.registry = _ from hstep] at hrow
        exact holder (Option.filter_eq_some_iff.1 hrow).1
      · exact holder ((congrFun (hstep.transactions_eq hopen hclear) id).symm.trans hrow)
    · obtain ⟨trx, rfl⟩ := not_forall_not.1 hopen
      obtain ⟨_, hstep⟩ := hstep
      split_ifs at hstep
      · exact holder (hstep ▸ hrow)
      · rw [hstep.2] at hrow
        by_cases heq : id = ctx.env.trxId trx
        · subst heq
          exact ⟨s, trx, List.mem_cons_self, rfl, by simpa using hrow⟩
        · exact holder ((Function.update_of_ne heq _ _).symm.trans hrow)

/-- Stages that neither move the head nor open a transaction leave the time alone and add no
row. -/
theorem runStages_rows {stages : List Stage}
    (hstages : ∀ stage ∈ stages, (∀ b, stage ≠ .updateGlobalDynamicData b) ∧
      (∀ trx, stage ≠ .openTransaction trx))
    (h : runStages ctx stages s = .ok s') : s'.registry.time = s.registry.time ∧
      ∀ id expiration, s'.registry.transactions id = some expiration →
        s.registry.transactions id = some expiration := by
  refine foldlM_invariant (I := fun t ↦ t.registry.time = s.registry.time ∧
    ∀ id expiration, t.registry.transactions id = some expiration →
      s.registry.transactions id = some expiration) ?_ h ⟨rfl, fun _ _ hrow ↦ hrow⟩
  rintro t stage t' hmem hrun ⟨htime, hrows⟩
  obtain ⟨hhead, hopen⟩ := hstages stage hmem
  have hstep := Stage.registry_step hrun
  refine ⟨(hstep.time_eq hhead).trans htime, fun id expiration hrow ↦ hrows id expiration ?_⟩
  by_cases hclear : stage = .clearExpiredTransactions
  · subst hclear
    rw [show t'.registry = _ from hstep] at hrow
    exact (Option.filter_eq_some_iff.1 hrow).1
  · exact (congrFun (hstep.transactions_eq hopen hclear) id).symm.trans hrow

/-- After a block its time is the time of the head, and no row has expired. -/
theorem applyBlock_rows (h : applyBlock ctx s b = .ok s') :
    s'.registry.time = b.timestamp ∧ ∀ id expiration,
      s'.registry.transactions id = some expiration → b.timestamp ≤ expiration := by
  simp only [applyBlock, bind_eq_ok, pure_eq_ok] at h
  obtain ⟨s₁, hrun, _, _, rfl⟩ := h
  rw [stages_eq, ← List.cons_append, runStages, List.foldlM_append, bind_eq_ok] at hrun
  obtain ⟨s₂, _, hrun⟩ := hrun
  rw [List.foldlM_cons, bind_eq_ok] at hrun
  obtain ⟨s₃, hhead, hrun⟩ := hrun
  have hafter : SignedBlock.stagesAfterHead b = [.updateSigningWitness b,
      .updateLastIrreversibleBlock, .createBlockSummary b] ++ .clearExpiredTransactions ::
        (SignedBlock.stagesAfterCommit b).drop 2 := rfl
  rw [hafter, List.foldlM_append, bind_eq_ok] at hrun
  obtain ⟨s₄, hbefore, hrun⟩ := hrun
  rw [List.foldlM_cons, bind_eq_ok] at hrun
  obtain ⟨s₅, hclear, hrun⟩ := hrun
  have htime₃ : s₃.registry.time = b.timestamp := by
    rw [show s₃.registry = _ from Stage.registry_step hhead]
  have hquiet : ∀ stage ∈ SignedBlock.stagesAfterHead b,
      (∀ b, stage ≠ .updateGlobalDynamicData b) ∧ ∀ trx, stage ≠ .openTransaction trx := by
    simp [SignedBlock.stagesAfterHead, SignedBlock.stagesAfterCommit]
  obtain ⟨htime₄, _⟩ := runStages_rows (fun stage hmem ↦ hquiet stage (by
    rw [hafter]
    exact List.mem_append_left _ hmem)) hbefore
  obtain ⟨htime₁, hrows₁⟩ := runStages_rows (fun stage hmem ↦ hquiet stage (by
    rw [hafter]
    exact List.mem_append_right _ (List.mem_cons_of_mem _ hmem))) hrun
  have hcleared : s₅.registry = _ := Stage.registry_step hclear
  have htime₅ : s₅.registry.time = b.timestamp := by
    rw [hcleared]
    exact htime₄.trans htime₃
  refine ⟨htime₁.trans htime₅, fun id expiration hrow ↦ ?_⟩
  have hkept := hrows₁ id expiration hrow
  rw [hcleared] at hkept
  have hle := (Option.filter_eq_some_iff.1 hkept).2
  rw [← htime₃, ← htime₄]
  exact of_decide_eq_true hle

theorem openTransaction_mem_stages {trx : Transaction} :
    .openTransaction trx ∈ SignedBlock.stages b ↔ trx ∈ b.transactions := by
  rw [stages_eq]
  simp [SignedBlock.stagesAfterHead, SignedBlock.stagesAfterCommit, transactionStages]

/-- Applying blocks opens the transactions of the blocks. -/
theorem Chronicle.applyBlocks {s₀ : Database} {past : List Moment} {blocks : List SignedBlock}
    (h : Chronicle ctx (fun _ _ ↦ True) s₀ past none s)
    (hblocks : Chain.applyBlocks ctx s blocks = .ok s') :
    ∃ past', Chronicle ctx (fun _ _ ↦ True) s₀ past' none s' ∧ ∀ trx,
      (∃ opening, (opening, .openTransaction trx) ∈ past') ↔
        (∃ opening, (opening, .openTransaction trx) ∈ past) ∨
          ∃ b ∈ blocks, trx ∈ b.transactions := by
  induction blocks generalizing s past with
  | nil => exact ⟨past, pure_eq_ok.1 hblocks ▸ h, by simp⟩
  | cons b blocks ih =>
    rw [Chain.applyBlocks, List.foldlM_cons, bind_eq_ok] at hblocks
    obtain ⟨s₁, hb, hrest⟩ := hblocks
    simp only [applyBlock, bind_eq_ok, pure_eq_ok] at hb
    obtain ⟨_, hrun, _, hcheck, rfl⟩ := hb
    have hstart : Chronicle ctx (fun _ _ ↦ True) s₀ past (some (SignedBlock.stages b ++ [])) s := by
      rw [List.append_nil]
      exact h.start b
    obtain ⟨recent, hrecent, hstages⟩ := hstart.runStages (fun _ _ _ ↦ trivial) hrun
    obtain ⟨past', hpast', hopened⟩ := ih (hrecent.finish hcheck) hrest
    refine ⟨past', hpast', fun trx ↦ ?_⟩
    have hnew : (∃ opening, (opening, .openTransaction trx) ∈ recent) ↔ trx ∈ b.transactions := by
      calc (∃ opening, (opening, .openTransaction trx) ∈ recent)
          ↔ .openTransaction trx ∈ recent.map Prod.snd := by simp
        _ ↔ trx ∈ b.transactions := by
          rw [hstages, List.mem_reverse, openTransaction_mem_stages]
    rw [hopened]
    simp only [List.mem_append, exists_or, hnew, List.mem_cons, exists_eq_or_imp]
    tauto

theorem eq_empty_iff {κ α : Type} [DecidableEq κ] (t : Table κ α) :
    Table.empty = t ↔ ∀ k, t.find? k = none := by
  constructor
  · rintro rfl k
    rfl
  · intro h
    obtain ⟨entries, hnodup⟩ := t
    cases entries with
    | nil => rfl
    | cons entry entries =>
      have hfind := h entry.1
      simp [Table.find?] at hfind

theorem replay_equals_live_iff (hlive : ctx.skip = {}) {log : List SignedBlock} {s₀ : Database}
    (hgenesis : initGenesis ctx.genesis = .ok s₀) (h : applyBlocks ctx s₀ (log ++ [b]) = .ok s) :
    ∃ s', reindex ctx (log ++ [b]) = .ok s' ∧
      (s' = s ↔ ∀ block ∈ log ++ [b], ∀ trx ∈ block.transactions,
        trx.expiration < b.timestamp) := by
  have hempty : s₀.forget = s₀ ∧ ∀ id, s₀.registry.transactions id = none := by
    simp only [initGenesis, bind_eq_ok, pure_eq_ok] at hgenesis
    obtain ⟨_, _, initial, _, _, _, rfl⟩ := hgenesis
    exact ⟨rfl, fun _ ↦ rfl⟩
  refine ⟨s.forget, ?_, ?_⟩
  · simp only [reindex, hgenesis, ok_bind, bind_eq_ok, fcAssert_eq_ok]
    have hblocks := applyBlocks_forget hlive h
    rw [hempty.1] at hblocks
    exact ⟨(), by simp, hblocks⟩
  · obtain ⟨past, hpast, hopened⟩ := Chronicle.refl.applyBlocks h
    obtain ⟨htime, hrows⟩ : s.registry.time = b.timestamp ∧ ∀ id expiration,
        s.registry.transactions id = some expiration → b.timestamp ≤ expiration := by
      rw [applyBlocks, List.foldlM_append, bind_eq_ok] at h
      obtain ⟨s₁, _, hlast⟩ := h
      rw [List.foldlM_cons, bind_eq_ok] at hlast
      obtain ⟨s₂, hlast, hdone⟩ := hlast
      exact pure_eq_ok.1 hdone ▸ applyBlock_rows hlast
    have hforget : s.forget = s ↔ ∀ id, s.registry.transactions id = none := by
      rw [show (∀ id, s.registry.transactions id = none) ↔ _ from (eq_empty_iff _).symm]
      constructor
      · exact fun heq ↦ congrArg Database.transactions heq
      · intro heq
        rw [Database.forget, Database.withTransactions, heq]
    rw [hforget]
    constructor
    · -- An applied transaction that is not in the table has expired.
      intro hnone block hblock trx htrx
      obtain ⟨opening, hmem⟩ := (hopened trx).2 (.inr ⟨block, hblock, htrx⟩)
      have hdupe : ctx.skip.transactionDupeCheck = false := by rw [hlive]
      rcases hpast.remembers_opened hdupe hmem with htable | ⟨_, hexpired⟩
      · rw [hnone] at htable
        cases htable
      · rwa [htime] at hexpired
    · intro hexpired id
      cases hrow : s.registry.transactions id with
      | none => rfl
      | some expiration =>
        obtain ⟨opening, trx, hmem, _, rfl⟩ := hpast.row_opened hempty.2 hrow
        rcases (hopened trx).1 ⟨opening, hmem⟩ with ⟨_, hnever⟩ | ⟨block, hblock, htrx⟩
        · cases hnever
        · exact absurd (hexpired block hblock trx htrx) (not_lt.2 (hrows id _ hrow))

theorem replay_equals_live_of_expired :
    ∃ s₀ s, initGenesis devGenesis = .ok s₀ ∧
      applyBlocks (devContext devGenesis) s₀ [expiredBlock] = .ok s ∧
      reindex (devContext devGenesis) [expiredBlock] = .ok s := by
  have hok : okAnd (initGenesis devGenesis) (fun s₀ ↦
      okAnd (applyBlocks (devContext devGenesis) s₀ [expiredBlock]) fun _ ↦ true) = true := by
    decide +kernel
  obtain ⟨s₀, hgenesis, hs₀⟩ := exists_of_okAnd hok
  obtain ⟨s, hblock, _⟩ := exists_of_okAnd hs₀
  obtain ⟨s', hreindex, hiff⟩ :=
    @replay_equals_live_iff (devContext devGenesis) s expiredBlock rfl []
    s₀ hgenesis hblock
  have hexpired : ∀ block ∈ [] ++ [expiredBlock], ∀ trx ∈ block.transactions,
      trx.expiration < expiredBlock.timestamp := by decide
  exact ⟨s₀, s, hgenesis, hblock, hiff.2 hexpired ▸ hreindex⟩

/-- The first block of a network, with a transfer that expires later. -/
def unexpiredBlock : SignedBlock :=
  devBlock .null 1531512803
    [devTransaction 1531512900 8 (.transfer 1000 initMinerName ⟨1, sophiatxSymbol⟩ [])]

/-- A second block with the same transfer. -/
def doubleBlock : SignedBlock :=
  devBlock (devEnv.blockId unexpiredBlock) 1531512806
    [devTransaction 1531512900 8 (.transfer 1000 initMinerName ⟨1, sophiatxSymbol⟩ [])]

theorem replay_accepts_double :
    ∃ s₀ s s' e s₂, initGenesis devGenesis = .ok s₀ ∧
      applyBlocks (devContext devGenesis) s₀ [unexpiredBlock] = .ok s ∧
      reindex (devContext devGenesis) [unexpiredBlock] = .ok s' ∧ s' ≠ s ∧
      applyBlock (devContext devGenesis) s doubleBlock = .error e ∧
      applyBlock (devContext devGenesis) s' doubleBlock = .ok s₂ := by
  have hok : okAnd (initGenesis devGenesis) (fun s₀ ↦
      okAnd (applyBlocks (devContext devGenesis) s₀ [unexpiredBlock]) fun s ↦
        okAnd (reindex (devContext devGenesis) [unexpiredBlock]) fun s' ↦
          decide ((errorOf (applyBlock (devContext devGenesis) s doubleBlock)).isSome) &&
          okAnd (applyBlock (devContext devGenesis) s' doubleBlock) fun _ ↦ true) = true := by
    decide +kernel
  obtain ⟨s₀, hgenesis, hs₀⟩ := exists_of_okAnd hok
  obtain ⟨s, hlive, hs⟩ := exists_of_okAnd hs₀
  obtain ⟨s', hreplay, hs'⟩ := exists_of_okAnd hs
  rw [Bool.and_eq_true, decide_eq_true_eq] at hs'
  obtain ⟨e, he⟩ := Option.isSome_iff_exists.1 hs'.1
  obtain ⟨s₂, hdouble, _⟩ := exists_of_okAnd hs'.2
  have hrejected := eq_error_of_errorOf he
  refine ⟨s₀, s, s', e, s₂, hgenesis, hlive, hreplay, ?_, hrejected, hdouble⟩
  rintro rfl
  rw [hdouble] at hrejected
  cases hrejected

end SophiaTX.Chain
