import SophiaTX.Chain.Replay

/-!
# The main chain

Blocks are applied at the head of the main chain, and fork switches pop them again. Whatever order
that happens in, the state is the one that the blocks on the main chain lead to, so what is known
about runs holds along it.
-/

namespace SophiaTX.Chain

open SophiaTX.Protocol SophiaTX.Lib

/-- The blocks of the main chain, the newest first, each with the state it was applied in, and the
state of the head. Popping a block undoes what it changed. -/
inductive MainChain (ctx : Context) (s₀ : Database) :
    List (Database × SignedBlock) → Database → Prop
  | genesis : MainChain ctx s₀ [] s₀
  | apply {chain : List (Database × SignedBlock)} {s s' : Database} {b : SignedBlock}
      (h : MainChain ctx s₀ chain s) (hb : applyBlock ctx s b = .ok s') :
      MainChain ctx s₀ ((s, b) :: chain) s'
  | pop {chain : List (Database × SignedBlock)} {s s' : Database} {b : SignedBlock}
      (h : MainChain ctx s₀ ((s, b) :: chain) s') : MainChain ctx s₀ chain s

variable {ctx : Context} {C : Database → Stage → Prop} {s₀ s s' : Database}
  {chain : List (Database × SignedBlock)} {past : List Moment}

/-- Every block of a chain leads to the state the next one was applied in. -/
def Linked (ctx : Context) (s₀ : Database) : List (Database × SignedBlock) → Database → Prop
  | [], s => s = s₀
  | (t, b) :: chain, s => applyBlock ctx t b = .ok s ∧ Linked ctx s₀ chain t

theorem MainChain.applyBlocks {blocks : List SignedBlock} (h : MainChain ctx s₀ chain s)
    (hblocks : Chain.applyBlocks ctx s blocks = .ok s') :
    ∃ newer, MainChain ctx s₀ (newer ++ chain) s' ∧ newer.map Prod.snd = blocks.reverse := by
  induction blocks generalizing s chain with
  | nil => exact ⟨[], pure_eq_ok.1 hblocks ▸ h, rfl⟩
  | cons b blocks ih =>
    rw [Chain.applyBlocks, List.foldlM_cons, bind_eq_ok] at hblocks
    obtain ⟨s₁, hb, hrest⟩ := hblocks
    obtain ⟨newer, hchain, hnewer⟩ := ih (h.apply hb) hrest
    refine ⟨newer ++ [(s, b)], ?_, ?_⟩
    · rwa [List.append_assoc]
    · rw [List.map_append, hnewer, List.reverse_cons]
      rfl

theorem MainChain.linked (h : MainChain ctx s₀ chain s) : Linked ctx s₀ chain s := by
  induction h with
  | genesis => rfl
  | apply _ hb ih => exact ⟨hb, ih⟩
  | pop _ ih => exact ih.2

/-! ## The past of a main chain -/

theorem Chronicle.runStages {done rest : List Stage}
    (h : Chronicle ctx C s₀ past (some (done ++ rest)) s) (hC : ∀ stage ∈ done, ∀ s, C s stage)
    (hrun : Chain.runStages ctx done s = .ok s') :
    ∃ recent, Chronicle ctx C s₀ (recent ++ past) (some rest) s' ∧
      recent.map Prod.snd = done.reverse := by
  induction done generalizing s past with
  | nil => exact ⟨[], pure_eq_ok.1 hrun ▸ h, rfl⟩
  | cons stage done ih =>
    rw [Chain.runStages, List.foldlM_cons, bind_eq_ok] at hrun
    obtain ⟨s₁, hstage, hrun⟩ := hrun
    obtain ⟨recent, hchronicle, hrecent⟩ := ih (h.stage (hC stage List.mem_cons_self s) hstage)
      (fun stage hmem ↦ hC stage (List.mem_cons_of_mem _ hmem)) hrun
    refine ⟨recent ++ [(s, stage)], ?_, ?_⟩
    · rwa [List.append_assoc]
    · rw [List.map_append, hrecent, List.reverse_cons]
      rfl

/-- The ids that stages open. -/
theorem openedIds_of_stages {env : Env} {done : List Stage} (h : past.map Prod.snd = done.reverse) :
    openedIds env past = (done.filterMap (Stage.openedId env)).reverse := by
  rw [← List.filterMap_reverse, ← h, List.filterMap_map]
  rfl

theorem filterMap_openedId_stages (env : Env) (b : SignedBlock) :
    (SignedBlock.stages b).filterMap (Stage.openedId env) = b.transactions.map env.trxId := by
  have htransaction : ∀ trx, (transactionStages trx).filterMap (Stage.openedId env) =
      [env.trxId trx] := by
    intro trx
    simp [transactionStages, Stage.openedId, List.filterMap_map, Function.comp_def]
  have htransactions : (b.transactions.flatMap transactionStages).filterMap (Stage.openedId env) =
      b.transactions.map env.trxId := by
    induction b.transactions with
    | nil => rfl
    | cons trx trxs ih =>
      rw [List.flatMap_cons, List.filterMap_append, ih, htransaction]
      rfl
  rw [stages_eq, List.filterMap_cons_none rfl, List.filterMap_append, htransactions]
  simp [SignedBlock.stagesAfterHead, SignedBlock.stagesAfterCommit, Stage.openedId]

/-- The ids applied along a chain, in the order of the chain. -/
def chainIds (env : Env) (chain : List (Database × SignedBlock)) : List ℕ :=
  (chain.reverse.flatMap fun entry ↦ entry.2.transactions).map env.trxId

theorem chainIds_cons (env : Env) (entry : Database × SignedBlock) :
    chainIds env (entry :: chain) = chainIds env chain ++ entry.2.transactions.map env.trxId := by
  simp [chainIds]

/-- A chain has a chronicle that opened what the chain applied. -/
theorem Linked.chronicle (h : Linked ctx s₀ chain s) :
    ∃ past, Chronicle ctx (fun _ _ ↦ True) s₀ past none s ∧
      openedIds ctx.env past = (chainIds ctx.env chain).reverse := by
  induction chain generalizing s with
  | nil =>
    obtain rfl : s = s₀ := h
    exact ⟨[], .refl, rfl⟩
  | cons entry chain ih =>
    obtain ⟨t, b⟩ := entry
    obtain ⟨hb, hchain⟩ := h
    obtain ⟨past, hpast, hids⟩ := ih hchain
    simp only [applyBlock, bind_eq_ok, pure_eq_ok] at hb
    obtain ⟨_, hrun, _, hcheck, rfl⟩ := hb
    have hstart : Chronicle ctx (fun _ _ ↦ True) s₀ past (some (SignedBlock.stages b ++ [])) t := by
      rw [List.append_nil]
      exact hpast.start b
    obtain ⟨recent, hrecent, hstages⟩ := hstart.runStages (fun _ _ _ ↦ trivial) hrun
    refine ⟨recent ++ past, hrecent.finish hcheck, ?_⟩
    have hopened : openedIds ctx.env recent = (b.transactions.map ctx.env.trxId).reverse := by
      rw [openedIds_of_stages hstages, filterMap_openedId_stages]
    calc openedIds ctx.env (recent ++ past)
        = openedIds ctx.env recent ++ openedIds ctx.env past := List.filterMap_append
      _ = (chainIds ctx.env ((t, b) :: chain)).reverse := by
        rw [hopened, hids, chainIds_cons, List.reverse_append]

/-! ## Replay protection -/

/-- An id that was applied on the main chain and is gone from the table fails the check of its
expiration. -/
theorem checkTransactionTime_of_remembers {trx : Transaction}
    (h : s.registry.Remembers (ctx.env.trxId trx) trx.expiration)
    (hgone : s.transactions.find? (ctx.env.trxId trx) = none) :
    s.dgp.headBlockNumber ≠ 0 ∧ trx.expiration < s.dgp.time ∧
      ∃ e, s.checkTransactionTime ctx trx = .error e := by
  obtain ⟨hhead, hexpired⟩ : s.dgp.headBlockNumber ≠ 0 ∧ trx.expiration < s.dgp.time := by
    refine h.resolve_left fun htable ↦ ?_
    rw [show s.registry.transactions (ctx.env.trxId trx) = none from hgone] at htable
    cases htable
  refine ⟨hhead, hexpired, ?_⟩
  cases hcheck : s.checkTransactionTime ctx trx with
  | error e => exact ⟨e, rfl⟩
  | ok _ =>
    rw [Database.checkTransactionTime, if_neg hhead] at hcheck
    simp only [bind_eq_ok, throwIf_eq_ok] at hcheck
    obtain ⟨_, _, _, _, hlater⟩ := hcheck
    exact absurd hexpired.le hlater

theorem no_transaction_applied_twice (hdupe : ctx.skip.transactionDupeCheck = false)
    (hid : ∀ trx trx' : Transaction, ctx.env.trxId trx = ctx.env.trxId trx' →
      trx.expiration = trx'.expiration) (h : MainChain ctx s₀ chain s) :
    (chainIds ctx.env chain).Nodup ∧
      ∀ b done rest s', SignedBlock.stages b = done ++ rest → runStages ctx done s = .ok s' →
        ∀ applied trx, (∃ entry ∈ chain, applied ∈ entry.2.transactions) ∨
            .openTransaction applied ∈ done →
          s'.transactions.find? (ctx.env.trxId applied) = none →
          ctx.env.trxId trx = ctx.env.trxId applied →
          s'.dgp.headBlockNumber ≠ 0 ∧ trx.expiration < s'.dgp.time ∧
            ∃ e, s'.checkTransactionTime ctx trx = .error e := by
  obtain ⟨past, hpast, hids⟩ := h.linked.chronicle
  refine ⟨?_, fun b done rest s' hb hrun applied trx happlied hgone heq ↦ ?_⟩
  · rw [← List.nodup_reverse, ← hids]
    exact hpast.openedIds_nodup hdupe hid
  · have hstart : Chronicle ctx (fun _ _ ↦ True) s₀ past (some (done ++ rest)) s :=
      hb ▸ hpast.start b
    obtain ⟨recent, hrecent, hstages⟩ := hstart.runStages (fun _ _ _ ↦ trivial) hrun
    have hopened : ctx.env.trxId trx ∈ openedIds ctx.env (recent ++ past) := by
      rw [heq, openedIds, List.filterMap_append, List.mem_append]
      rcases happlied with ⟨entry, hentry, hmem⟩ | hmem
      · refine .inr ?_
        change _ ∈ openedIds ctx.env past
        rw [hids, List.mem_reverse, chainIds]
        exact List.mem_map_of_mem (List.mem_flatMap.2 ⟨entry, List.mem_reverse.2 hentry, hmem⟩)
      · refine .inl ?_
        change _ ∈ openedIds ctx.env recent
        rw [openedIds_of_stages hstages, List.mem_reverse]
        exact List.mem_filterMap.2 ⟨_, hmem, rfl⟩
    exact checkTransactionTime_of_remembers (hrecent.remembers hdupe hid hopened) (heq ▸ hgone)

/-- The first block of a network, with a transfer that has already expired. -/
def expiredBlock : SignedBlock :=
  devBlock .null 1531512803
    [devTransaction 1531512801 8 (.transfer 1000 initMinerName ⟨1, sophiatxSymbol⟩ [])]

theorem expired_transfer_applied_once :
    ∃ s₀ s, initGenesis devGenesis = .ok s₀ ∧
      applyBlock (devContext devGenesis) s₀ expiredBlock = .ok s ∧
      s.transactions.find? 1531512801 = none ∧
      (chainIds devEnv [(s₀, expiredBlock)]).Nodup ∧
      ∃ e, s.checkTransactionTime (devContext devGenesis)
        (devTransaction 1531512801 8 (.transfer 1000 initMinerName ⟨1, sophiatxSymbol⟩ [])) =
          .error e := by
  have hok : okAnd (initGenesis devGenesis) (fun s₀ ↦
      okAnd (applyBlock (devContext devGenesis) s₀ expiredBlock) fun s ↦
        decide (s.transactions.find? 1531512801 = none)) = true := by decide +kernel
  obtain ⟨s₀, hgenesis, hs₀⟩ := exists_of_okAnd hok
  obtain ⟨s, hblock, hs⟩ := exists_of_okAnd hs₀
  have hgone : s.transactions.find? 1531512801 = none := of_decide_eq_true hs
  have hchain : MainChain (devContext devGenesis) s₀ [(s₀, expiredBlock)] s :=
    MainChain.genesis.apply hblock
  obtain ⟨hnodup, hlater⟩ := no_transaction_applied_twice rfl (fun _ _ heq ↦ heq) hchain
  have hcheck := hlater expiredBlock [] _ s (List.nil_append _).symm rfl
    (devTransaction 1531512801 8 (.transfer 1000 initMinerName ⟨1, sophiatxSymbol⟩ []))
    (devTransaction 1531512801 8 (.transfer 1000 initMinerName ⟨1, sophiatxSymbol⟩ []))
    (.inl ⟨_, List.mem_singleton.2 rfl, List.mem_singleton.2 rfl⟩) hgone rfl
  exact ⟨s₀, s, hgenesis, hblock, hgone, hnodup, hcheck.2.2⟩

end SophiaTX.Chain
