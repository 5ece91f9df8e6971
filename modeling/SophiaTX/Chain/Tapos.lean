import SophiaTX.Chain.Heights

/-!
# Transactions as proof of stake

A transaction names a block by the low half of its number and a word of its id, and is refused where
the latest block of such a number has another. So it is applied in histories that agree with the
one it was made for.
-/

namespace SophiaTX.Chain

open SophiaTX.Protocol SophiaTX.Lib
open Database (refBlockPrefix)

/-- `transaction::set_reference_block`. -/
def setReferenceBlock (trx : Transaction) (id : BlockId) : Transaction :=
  { trx with refBlockNum := id.num % 65536, refBlockPrefix := refBlockPrefix id }

/-- A transaction names one of the latest blocks of a chain, or says that no block of this number
has come yet. -/
def NamesBlock (ids : List BlockId) (trx : Transaction) : Prop :=
  (∃ n id, ids[n]? = some id ∧ (n + 1) % 65536 = trx.refBlockNum % 65536 ∧
    ids.length ≤ n + 65536 ∧ refBlockPrefix id = trx.refBlockPrefix) ∨
    trx.refBlockPrefix = 0 ∧ ∀ n, n < ids.length → (n + 1) % 65536 ≠ trx.refBlockNum % 65536

/-- Between the time of the head and the longest wait for a block. -/
def InTime (s : Database) (trx : Transaction) : Prop :=
  s.dgp.time < trx.expiration ∧ trx.expiration ≤ timeAdd s.dgp.time maxTimeUntilExpiration

variable {ctx : Context} {s₀ s s' : Database} {b : SignedBlock} {trx : Transaction}
  {ids : List BlockId} {chain chain' : List (Database × SignedBlock)}

theorem namesBlock_iff {ring : ℕ → BlockId}
    (h : SlotSays 65536 BlockId.null ids (trx.refBlockNum % 65536)
      (ring (trx.refBlockNum % 65536))) :
    NamesBlock ids trx ↔
      refBlockPrefix (ring (trx.refBlockNum % 65536)) = trx.refBlockPrefix := by
  constructor
  · rintro (⟨n, id, hid, hslot, hrecent, hword⟩ | ⟨hword, hunwritten⟩)
    · have hn := (List.getElem?_eq_some_iff.1 hid).1
      rcases h with ⟨m, hitem, hslot', hrecent'⟩ | ⟨_, hunwritten⟩
      · have hm := (List.getElem?_eq_some_iff.1 hitem).1
        obtain rfl : m = n := by omega
        rw [← hword, Option.some.inj (hitem.symm.trans hid)]
      · exact absurd hslot (hunwritten n hn)
    · rcases h with ⟨m, hitem, hslot', _⟩ | ⟨hnull, _⟩
      · exact absurd hslot' (hunwritten m (List.getElem?_eq_some_iff.1 hitem).1)
      · rw [hnull, hword]
        rfl
  · intro hword
    rcases h with ⟨n, hitem, hslot, hrecent⟩ | ⟨hnull, hunwritten⟩
    · exact .inl ⟨n, _, hitem, hslot, hrecent, hword⟩
    · refine .inr ⟨?_, hunwritten⟩
      rw [← hword, hnull]
      rfl

/-- A transaction made for a block is good in every chain that has reached that number, but no full
ring beyond, and has the same word there. -/
theorem namesBlock_setReferenceBlock {n : ℕ} {id : BlockId} (hid : id.num = n + 1)
    (hreached : n < ids.length) (hrecent : ids.length ≤ n + 65536) :
    NamesBlock ids (setReferenceBlock trx id) ↔
      ∃ id', ids[n]? = some id' ∧ refBlockPrefix id' = refBlockPrefix id := by
  have hslot : (setReferenceBlock trx id).refBlockNum % 65536 = (n + 1) % 65536 := by
    rw [setReferenceBlock, hid, Nat.mod_mod]
  constructor
  · rintro (⟨m, id', hid', hslot', hrecent', hword⟩ | ⟨_, hunwritten⟩)
    · have hm := (List.getElem?_eq_some_iff.1 hid').1
      obtain rfl : m = n := by omega
      exact ⟨id', hid', hword⟩
    · exact absurd hslot.symm (hunwritten n hreached)
  · rintro ⟨id', hid', hword⟩
    exact .inl ⟨n, id', hid', hslot.symm, hrecent, hword⟩

/-! ## Chains -/

theorem Headed.slots (hs₀ : s₀.blockSummaries = fun _ ↦ BlockId.null)
    (hheaded : Headed ctx.env [] s₀) (h : Linked ctx s₀ chain s) (k : ℕ) :
    SlotSays 65536 BlockId.null (mainIds ctx.env chain) k (s.blockSummaries k) := by
  induction chain generalizing s k with
  | nil =>
    obtain rfl : s = s₀ := h
    rw [hs₀]
    exact .empty _ _ _
  | cons entry chain ih =>
    obtain ⟨t, b⟩ := entry
    obtain ⟨hb, hchain⟩ := h
    obtain ⟨hprevious, hs⟩ := applyBlock_heading hb
    have hnum : b.blockNum = (mainIds ctx.env chain).length + 1 := by
      rw [length_mainIds, ← (hchain.headed hheaded).head_num, hprevious]
      rfl
    rw [mainIds_cons, show s.blockSummaries = _ from congrArg Heading.blockSummaries hs, hnum]
    exact SlotSays.write (by decide) (fun k ↦ ih hchain k) _ k

theorem checkTransactionTime_eq_ok (hskip : ctx.skip.taposCheck = false)
    (hhead : s.dgp.headBlockNumber ≠ 0) : s.checkTransactionTime ctx trx = .ok () ↔
      refBlockPrefix (s.blockSummaries (trx.refBlockNum % 65536)) = trx.refBlockPrefix ∧
        InTime s trx := by
  rw [Database.checkTransactionTime, if_neg hhead]
  simp only [bind_eq_ok, throwIf_eq_ok, hskip, true_and, exists_and_left, exists_const, not_lt,
    not_le, ne_eq, not_not, InTime]
  constructor
  · rintro ⟨hword, hlatest, htime⟩
    exact ⟨hword.symm, htime, hlatest⟩
  · rintro ⟨hword, htime, hlatest⟩
    exact ⟨hword.symm, hlatest, htime⟩

/-- The transactions of a block leave the head and its time. -/
theorem inTransaction_heading {stages : List Stage}
    (hstages : ∀ stage ∈ stages, stage.InTransaction)
    (h : runStages ctx stages s = .ok s') :
    s'.heading = s.heading ∧ s'.dgp.time = s.dgp.time := by
  refine foldlM_invariant (I := fun t ↦ t.heading = s.heading ∧ t.dgp.time = s.dgp.time) ?_ h
    ⟨rfl, rfl⟩
  intro s₁ stage s₂ hmem hrun hs₁
  have hinside := hstages stage hmem
  have hstep := Stage.talliesStep hrun
  have hkeeps : stage.KeepsHeading := by cases stage <;> trivial
  have htime : s₂.tallies.time = s₁.tallies.time := by
    cases stage with
    | openTransaction _ | operation _ _ | closeTransaction _ =>
      rw [show s₂.tallies = _ from hstep]
    | _ => cases hinside
  exact ⟨(hkeeps.heading_eq hrun).trans hs₁.1, htime.trans hs₁.2⟩

/-- Every transaction of a block was checked against the head that the block builds on. -/
theorem applyBlock_checkTransactionTime (h : applyBlock ctx s b = .ok s')
    (htrx : trx ∈ b.transactions) : ∃ s₁ : Database, s₁.heading = s.heading ∧
      s₁.dgp.time = s.dgp.time ∧ s₁.checkTransactionTime ctx trx = .ok () := by
  simp only [applyBlock, stages_eq, bind_eq_ok] at h
  obtain ⟨_, hrun, _⟩ := h
  rw [runStages, List.foldlM_cons, bind_eq_ok] at hrun
  obtain ⟨opened, hopen, hrun⟩ := hrun
  have hopened := (Stage.talliesStep hopen).2
  obtain ⟨front, back, hsplit⟩ := List.append_of_mem
    (show Stage.openTransaction trx ∈ b.transactions.flatMap transactionStages from
      List.mem_flatMap.2 ⟨trx, htrx, List.mem_cons_self⟩)
  have hinside : ∀ stage ∈ front, stage.InTransaction := by
    intro stage hmem
    have hmem' : stage ∈ b.transactions.flatMap transactionStages := by
      rw [hsplit]
      exact List.mem_append_left _ hmem
    exact inTransaction_of_mem hmem'
  rw [hsplit, List.append_assoc, List.foldlM_append, bind_eq_ok] at hrun
  obtain ⟨s₁, hfront, hrun⟩ := hrun
  rw [List.cons_append, List.foldlM_cons, bind_eq_ok] at hrun
  obtain ⟨s₂, htransaction, _⟩ := hrun
  obtain ⟨hheading, htime⟩ := inTransaction_heading hinside hfront
  simp only [Stage.run, Database.openTransaction, bind_eq_ok] at htransaction
  obtain ⟨_, _, _, _, _, _, _, hcheck, _⟩ := htransaction
  exact ⟨s₁, hheading.trans (congrArg Tallies.heading hopened),
    htime.trans (congrArg Tallies.time hopened), hcheck⟩

theorem initGenesis_blockSummaries {g : GenesisState} (h : initGenesis g = .ok s) :
    s.blockSummaries = fun _ ↦ BlockId.null := by
  simp only [initGenesis, bind_eq_ok, pure_eq_ok] at h
  obtain ⟨_, _, _, _, _, _, rfl⟩ := h
  rfl

/-- In every chain a transaction passes if and only if it names one of the latest blocks by number
and word and is in time, and every transaction of a block after the first one did. What is made for
a block of one chain passes in another, up to a full ring of blocks later, exactly if that has a
block of the same number with the same word. -/
theorem tapos_names_history (hskip : ctx.skip.taposCheck = false)
    (hgenesis : initGenesis ctx.genesis = .ok s₀) (h : MainChain ctx s₀ chain s)
    (h' : MainChain ctx s₀ chain' s') :
    (chain ≠ [] → ∀ trx, s.checkTransactionTime ctx trx = .ok () ↔
      NamesBlock (mainIds ctx.env chain) trx ∧ InTime s trx) ∧
      (∀ newer t b older, chain = newer ++ (t, b) :: older → older ≠ [] →
        ∀ trx ∈ b.transactions, NamesBlock (mainIds ctx.env older) trx ∧ InTime t trx) ∧
      ∀ n id trx, (mainIds ctx.env chain)[n]? = some id → n < chain'.length →
        chain'.length ≤ n + 65536 → s'.dgp.time < trx.expiration →
        trx.expiration ≤ timeAdd s'.dgp.time maxTimeUntilExpiration →
        (s'.checkTransactionTime ctx (setReferenceBlock trx id) = .ok () ↔
          ∃ id', (mainIds ctx.env chain')[n]? = some id' ∧
            refBlockPrefix id' = refBlockPrefix id) := by
  have hsummaries := initGenesis_blockSummaries hgenesis
  have hstart := initGenesis_headed ctx.env hgenesis
  have hiff : ∀ {chain s}, Linked ctx s₀ chain s → chain ≠ [] → ∀ trx,
      s.checkTransactionTime ctx trx = .ok () ↔
        NamesBlock (mainIds ctx.env chain) trx ∧ InTime s trx := by
    intro chain s hlinked hne trx
    have hhead : s.dgp.headBlockNumber ≠ 0 := by
      rw [(hlinked.headed hstart).number]
      exact fun hzero ↦ hne (List.length_eq_zero_iff.1 hzero)
    rw [checkTransactionTime_eq_ok hskip hhead,
      namesBlock_iff (Headed.slots hsummaries hstart hlinked _)]
  refine ⟨hiff h.linked, ?_, ?_⟩
  · rintro newer t b older rfl hne trx htrx
    have hlinked : ∀ newer s, Linked ctx s₀ (newer ++ (t, b) :: older) s →
        ∃ s₁, applyBlock ctx t b = .ok s₁ ∧ Linked ctx s₀ older t := by
      intro newer
      induction newer with
      | nil => exact fun s hs ↦ ⟨s, hs⟩
      | cons entry newer ih => exact fun s hs ↦ ih _ hs.2
    obtain ⟨s₁, hb, holder⟩ := hlinked newer s h.linked
    obtain ⟨s₂, hheading, htime, hcheck⟩ := applyBlock_checkTransactionTime hb htrx
    have hsame : s₂.checkTransactionTime ctx trx = t.checkTransactionTime ctx trx := by
      have hnumber : s₂.dgp.headBlockNumber = t.dgp.headBlockNumber :=
        congrArg Heading.headBlockNumber hheading
      have hring : s₂.blockSummaries = t.blockSummaries :=
        congrArg Heading.blockSummaries hheading
      rw [Database.checkTransactionTime, Database.checkTransactionTime, hnumber, hring, htime]
    exact (hiff holder hne trx).1 (hsame ▸ hcheck)
  · intro n id trx hid hreached hrecent hlater hlatest
    have hne : chain' ≠ [] := List.ne_nil_of_length_pos (by omega)
    have hnumber := (h.headed hgenesis).numbered n id hid
    have hlength : (mainIds ctx.env chain').length = chain'.length := length_mainIds ctx.env
    rw [hiff h'.linked hne, namesBlock_setReferenceBlock hnumber (by omega) (by omega)]
    exact and_iff_left ⟨hlater, hlatest⟩

/-- A first block, and a second one with a transfer made for the first. -/
def quietBlock : SignedBlock := devBlock .null 1531512803 []

def transferAfterQuiet : Transaction :=
  setReferenceBlock
    (devTransaction 1531512807 8 (.transfer 1000 initMinerName ⟨1, sophiatxSymbol⟩ []))
    (devEnv.blockId quietBlock)

def blockAfterQuiet : SignedBlock :=
  devBlock (devEnv.blockId quietBlock) 1531512806 [transferAfterQuiet]

theorem tapos_names_history_two_blocks :
    ∃ s₀ s₁ s, initGenesis devGenesis = .ok s₀ ∧
      MainChain (devContext devGenesis) s₀ [(s₁, blockAfterQuiet), (s₀, quietBlock)] s ∧
      NamesBlock (mainIds devEnv [(s₀, quietBlock)]) transferAfterQuiet ∧
      s.checkTransactionTime (devContext devGenesis) transferAfterQuiet = .ok () := by
  have hok : okAnd (initGenesis devGenesis) (fun s₀ ↦
      okAnd (applyBlock (devContext devGenesis) s₀ quietBlock) fun s₁ ↦
        okAnd (applyBlock (devContext devGenesis) s₁ blockAfterQuiet) fun s ↦
          decide (s.dgp.time = 1531512806)) = true := by decide +kernel
  obtain ⟨s₀, hgenesis, hs₀⟩ := exists_of_okAnd hok
  obtain ⟨s₁, hquiet, hs₁⟩ := exists_of_okAnd hs₀
  obtain ⟨s, hblock, hs⟩ := exists_of_okAnd hs₁
  have htime : s.dgp.time = 1531512806 := of_decide_eq_true hs
  have hchain : MainChain (devContext devGenesis) s₀ [(s₁, blockAfterQuiet), (s₀, quietBlock)] s :=
    (MainChain.genesis.apply hquiet).apply hblock
  obtain ⟨_, hblocks, hforks⟩ := tapos_names_history rfl hgenesis hchain hchain
  have hnames := hblocks [] s₁ blockAfterQuiet [(s₀, quietBlock)] rfl (List.cons_ne_nil _ _)
    transferAfterQuiet (List.mem_singleton.2 rfl)
  refine ⟨s₀, s₁, s, hgenesis, hchain, hnames.1, ?_⟩
  refine (hforks 0 (devEnv.blockId quietBlock) _ rfl (Nat.succ_pos 1) (by simp) ?_ ?_).2
    ⟨_, rfl, rfl⟩
  · rw [htime]
    decide
  · rw [htime]
    decide

end SophiaTX.Chain
