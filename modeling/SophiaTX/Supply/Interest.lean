import SophiaTX.Supply.Holdings
import Mathlib.Data.List.Infix

/-!
# Interest processing

When `process_interests` comes to an account after the delay, its considered holdings are within
the accumulated supply and the interests can be withdrawn, in every run that keeps clear of the
slips of the incremental sums: the factor two of `init_genesis`, the weight zero in the block of
an account's own turn, the vesting shares of the null account that are taken without a trace in
its holdings, and receipts that count for a block whose supply was recorded before them.
-/

namespace SophiaTX.Chain

open SophiaTX.Protocol SophiaTX.Lib

/-! ## Stages -/

/-- The stage does not touch the considered holdings by a rule of its own. -/
def Stage.Ordinary : Stage → Prop
  | .updateGlobalDynamicData _ | .processInterests | .clearNullAccountBalance | .recordBlock _ =>
    False
  | _ => True

theorem Stage.Ordinary.allows {stage : Stage} (h : stage.Ordinary) {m : Move}
    (hm : stage.Allows m) : m.Ordinary := by
  cases m with
  | advanceHead _ | recordBlock _ =>
    obtain ⟨b, rfl, _⟩ := hm
    exact h
  | payInterest _ _ | burnVesting _ =>
    obtain rfl := hm
    exact h
  | _ => trivial

theorem Stage.drift {ctx : Context} {stage : Stage} {s s' : Database} (hs : Sound s)
    (hvalid : stage.Valid ctx) (hstage : stage.Ordinary) (h : stage.run ctx s = .ok s') :
    Drift s s' :=
  (Stage.explained hs hvalid h).drift hs fun _ hm ↦ hstage.allows hm

/-- Without vesting shares to clear, the null account is debited like any other. -/
theorem Database.clearNullAccountBalance_drift {g : GenesisState} {s s' : Database} (hs : Sound s)
    (hnull : ∀ a, s.accounts.find? nullAccount = some a → a.vestingShares ≤ 0)
    (h : s.clearNullAccountBalance g = .ok s') : Drift s s' := by
  simp only [clearNullAccountBalance, getAccount, bind_eq_ok, orUnknownKey_eq_ok,
    Prod.exists] at h
  obtain ⟨a, ha, s₁, liquid, hliquid, s₂, total, hvesting, h⟩ := h
  -- Any ordinary stage will do to say which moves are made.
  have hs₁ : Explained g .clearExpiredTransactions (liquid, 0, 0) s s₁ :=
    (clearNullLiquid_explained ha hliquid).1
  have hordinary : Stage.clearExpiredTransactions.Ordinary := trivial
  have hdrift : Drift s s₁ := hs₁.drift hs fun _ hm ↦ hordinary.allows hm
  rw [clearNullVesting, if_neg (not_lt.2 (hnull a ha)), pure_eq_ok, Prod.mk.injEq] at hvesting
  obtain ⟨rfl, rfl⟩ := hvesting
  split at h
  · simp only [bind_eq_ok] at h
    obtain ⟨_, _, hsupply⟩ := h
    obtain ⟨_, hnonneg, rfl⟩ := adjustSupply_eq_ok hsupply
    exact hdrift.trans (.of_accounts rfl rfl (.refl _) fun _ ↦ hnonneg)
  · exact pure_eq_ok.1 h ▸ hdrift

/-! ## Turns still due -/

def Stage.isTurn : Stage → Bool
  | .processInterests => true
  | _ => false

def Stage.movesHead : Stage → Bool
  | .updateGlobalDynamicData _ => true
  | _ => false

/-- Whether the head has moved and the accounts on turn have not been paid. -/
def turnsDue : Option (List Stage) → Bool
  | some pending => pending.any Stage.isTurn && !pending.any Stage.movesHead
  | none => false

theorem turnsDue_stages (b : SignedBlock) : turnsDue (some (SignedBlock.stages b)) = false := by
  simp [turnsDue, stages_eq, Stage.movesHead]

theorem turnsDue_cons {stage : Stage} {rest : List Stage} (hturn : stage.isTurn = false)
    (hhead : stage.movesHead = false) : turnsDue (some (stage :: rest)) = turnsDue (some rest) := by
  simp [turnsDue, hturn, hhead]

theorem Position.suffix {b : SignedBlock} {s : Database} {stage : Stage} {rest : List Stage}
    (h : Position b s (stage :: rest)) (hopen : ∀ b, stage ≠ .openBlock b)
    (hhead : stage.movesHead = false) (htransaction : ¬ stage.InTransaction) :
    stage :: rest <:+ SignedBlock.stagesAfterHead b ∧ s.dgp.headBlockNumber = b.blockNum := by
  generalize hpending : stage :: rest = pending at h
  cases h with
  | opening =>
    rw [stages_eq, List.cons.injEq] at hpending
    exact absurd hpending.1 (hopen b)
  | @transactions stages hstages _ =>
    cases stages with
    | nil =>
      rw [List.nil_append, List.cons.injEq] at hpending
      simp [hpending.1, Stage.movesHead] at hhead
    | cons first stages =>
      rw [List.cons_append, List.cons.injEq] at hpending
      exact absurd (hpending.1 ▸ hstages first List.mem_cons_self) htransaction
  | afterHead hdone hnumber => exact ⟨⟨_, hdone.symm⟩, hnumber⟩

theorem Position.processInterests {b : SignedBlock} {s : Database} {rest : List Stage}
    (h : Position b s (.processInterests :: rest)) :
    turnsDue (some (.processInterests :: rest)) = true ∧ turnsDue (some rest) = false := by
  obtain ⟨hsuffix, _⟩ := h.suffix (by simp) rfl (by simp [Stage.InTransaction])
  simp [SignedBlock.stagesAfterHead, SignedBlock.stagesAfterCommit, List.suffix_cons_iff] at hsuffix
  subst hsuffix
  exact ⟨rfl, rfl⟩

theorem Position.recordBlock {b c : SignedBlock} {s : Database} {rest : List Stage}
    (h : Position b s (.recordBlock c :: rest)) :
    turnsDue (some rest) = false ∧ s.dgp.headBlockNumber = c.blockNum := by
  obtain ⟨hsuffix, hhead⟩ := h.suffix (by simp) rfl (by simp [Stage.InTransaction])
  simp [SignedBlock.stagesAfterHead, SignedBlock.stagesAfterCommit, List.suffix_cons_iff] at hsuffix
  obtain ⟨rfl, rfl⟩ := hsuffix
  exact ⟨rfl, hhead⟩

theorem Position.updateGlobalDynamicData {b c : SignedBlock} {s : Database} {rest : List Stage}
    (h : Position b s (.updateGlobalDynamicData c :: rest)) :
    turnsDue (some rest) = true ∧ s.dgp.headBlockNumber + 1 = c.blockNum := by
  generalize hpending : Stage.updateGlobalDynamicData c :: rest = pending at h
  cases h with
  | opening =>
    rw [stages_eq] at hpending
    cases hpending
  | @transactions stages hstages hhead =>
    cases stages with
    | nil =>
      cases hpending
      exact ⟨rfl, hhead⟩
    | cons first stages =>
      rw [List.cons_append, List.cons.injEq] at hpending
      have hfirst := hstages first List.mem_cons_self
      rw [← hpending.1] at hfirst
      exact hfirst.elim
  | @afterHead done _ hdone _ =>
    have hmem : Stage.updateGlobalDynamicData c ∈ SignedBlock.stagesAfterHead b := by
      rw [hdone, ← hpending]
      exact List.mem_append_right done List.mem_cons_self
    simp [SignedBlock.stagesAfterHead, SignedBlock.stagesAfterCommit] at hmem

/-! ## Runs -/

/-- A stage that keeps clear of the slips. -/
structure InterestSafe (ctx : Context) (s : Database) (stage : Stage) : Prop where
  turn : stage ≠ .processInterests → ∀ s', stage.run ctx s = .ok s' →
    TotalsKept ctx.genesis.interestDelay s s'
  null : stage = .clearNullAccountBalance →
    ∀ a, s.accounts.find? nullAccount = some a → a.vestingShares ≤ 0
  supply : ∀ b, stage = .updateGlobalDynamicData b → WithinSupply ctx.genesis.interestDelay s
  pools : stage = .processInterests → s.economics.Payable ctx.genesis

theorem InterestInvariant.stage {ctx : Context} {b : SignedBlock} {stage : Stage}
    {rest : List Stage} {s s' : Database} (hs : Sound s) (hpublic : s.dgp.privateNet = false)
    (hvalid : stage.Valid ctx) (hposition : Position b s (stage :: rest))
    (hsafe : InterestSafe ctx s stage) (hrun : stage.run ctx s = .ok s')
    (h : InterestInvariant ctx.genesis.interestDelay (fun _ ↦ turnsDue (some (stage :: rest))) s) :
    InterestInvariant ctx.genesis.interestDelay (fun _ ↦ turnsDue (some rest)) s' := by
  cases stage with
  | updateGlobalDynamicData c =>
    obtain ⟨hdue, hnext⟩ := hposition.updateGlobalDynamicData
    have hbefore : turnsDue (some (.updateGlobalDynamicData c :: rest)) = false := by
      simp [turnsDue, Stage.movesHead]
    obtain ⟨hhead, _, hframe⟩ := Database.updateGlobalDynamicData_eq_ok hrun
    rw [hbefore] at h
    rw [hdue]
    have hadvanced : InterestInvariant ctx.genesis.interestDelay (fun _ ↦ true)
        { s with dgp := { s.dgp with
          headBlockNumber := c.blockNum
          headBlockId := s'.dgp.headBlockId } } :=
      h.advanceHead (hsafe.supply c rfl) hnext.symm rfl
    have hmoney := hframe.sameMoney
    refine hadvanced.sameMoney ⟨hmoney.accounts, hmoney.escrows, hmoney.economics, ?_⟩
    have hcore := hmoney.dgp
    simp only [DynamicGlobalProperties.core, Prod.mk.injEq] at hcore ⊢
    simp [hcore, hhead]
  | processInterests =>
    obtain ⟨hbefore, hafter⟩ := hposition.processInterests
    rw [hbefore] at h
    rw [hafter]
    simp only [Stage.run, onPublicNet, hpublic, if_neg Bool.false_ne_true] at hrun
    exact h.processInterests hs hrun
  | clearNullAccountBalance =>
    rw [turnsDue_cons rfl rfl] at h
    refine h.drift ?_ fun _ _ ↦ hsafe.turn (by simp) s' hrun
    simp only [Stage.run, onPublicNet, hpublic, if_neg Bool.false_ne_true] at hrun
    exact Database.clearNullAccountBalance_drift hs (hsafe.null rfl) hrun
  | recordBlock c =>
    obtain ⟨hdue, hhead⟩ := hposition.recordBlock
    rw [turnsDue_cons rfl rfl, hdue] at h
    rw [hdue]
    simp only [Stage.run, onPublicNet, hpublic, if_neg Bool.false_ne_true] at hrun
    obtain ⟨economics, hrecord, rfl⟩ := Database.recordBlock_eq_ok hrun
    exact h.recordBlock (hhead ▸ hrecord)
  | _ =>
    rw [turnsDue_cons rfl rfl] at h
    exact h.drift (Stage.drift hs hvalid trivial hrun) fun _ _ ↦ hsafe.turn (by simp) s' hrun

theorem RunsFrom.interestInvariant {ctx : Context} (hskip : ctx.skip.validate = false)
    {s₀ s : Database} {pending : Option (List Stage)} (hs₀ : Sound s₀) (hid₀ : HeadNumbered s₀)
    (hpublic : s₀.dgp.privateNet = false)
    (hinvariant : InterestInvariant ctx.genesis.interestDelay (fun _ ↦ false) s₀)
    (h : RunsFrom ctx (InterestSafe ctx) s₀ pending s) : s.dgp.privateNet = false ∧
      InterestInvariant ctx.genesis.interestDelay (fun _ ↦ turnsDue pending) s := by
  induction h with
  | refl => exact ⟨hpublic, hinvariant⟩
  | start b _ ih => exact ⟨ih.1, turnsDue_stages b ▸ ih.2⟩
  | @stage s s' stage rest h hsafe hrun ih =>
    have hs := h.sound hskip hs₀
    have hvalid := (h.guarded hskip).head
    obtain ⟨b, hposition⟩ := (h.position hskip hs₀ hid₀).2 _ rfl
    refine ⟨?_, ih.2.stage hs ih.1 hvalid hposition hsafe hrun⟩
    rw [(Stage.explained hs hvalid hrun).privateNet_eq hs]
    exact ih.1
  | finish _ _ ih => exact ih

/-! ## Turns -/

/-- The states in which the loop of `process_interests` comes to an id. -/
inductive InTurn (g : GenesisState) (s : Database) : ℕ → Database → Prop
  | first : InTurn g s (s.dgp.headBlockNumber % interestBlocks) s
  | next {id : ℕ} {s₁ s₂ : Database} {name : AccountName} {a : Account} {interest : ShareType}
      (h : InTurn g s id s₁) (hfind : s₁.findAccountById id = some (name, a))
      (hpay : s₁.payInterest g name a = .ok (s₂, interest)) : InTurn g s (id + interestBlocks) s₂

/-- What holds each time the loop comes to an id. -/
structure TurnInvariant (g : GenesisState) (head id : ℕ) (s : Database) : Prop where
  sound : Sound s
  holdings : InterestInvariant g.interestDelay (InterestInvariant.fromId id) s
  pools : s.economics.Payable g
  batch : id % interestBlocks = head % interestBlocks
  head : s.dgp.headBlockNumber = head

namespace TurnInvariant

variable {g : GenesisState} {head id : ℕ} {s : Database} {name : AccountName} {a : Account}

/-- The considered holdings of an account on turn are within the accumulated supply. -/
theorem within (h : TurnInvariant g head id s) (hdelay : g.interestDelay < head)
    (hfind : s.findAccountById id = some (name, a)) : 0 ≤ a.holdingsConsideredForInterests ∧
      a.holdingsConsideredForInterests ≤ s.economics.accumulatedSupply := by
  obtain ⟨ha, rfl⟩ := Database.find?_of_findAccountById hfind
  have hturn : a.OnTurn head := h.batch
  have hleft : a.blocksLeft (InterestInvariant.fromId a.id a.id) head = 0 := by
    simp [AccountHoldings.blocksLeft, hturn, InterestInvariant.fromId]
  have hbounded := h.holdings.accounts name a ha
  simp only [AccountHoldings.Bounded, h.head, hleft, AccountHoldings.considered, Nat.cast_zero,
    mul_zero, sub_zero, add_zero] at hbounded
  obtain ⟨hlower, hupper⟩ := hbounded hdelay
  refine ⟨hlower, hupper.trans (le_trans ?_ h.holdings.accumulated)⟩
  exact windowSum_le_slots h.holdings.historic (by omega)

theorem withdraw (hcoinbase : g.coinbaseBlocks ≠ 0) (h : TurnInvariant g head id s)
    (hdelay : g.interestDelay < head) (hfind : s.findAccountById id = some (name, a)) :
    ∃ economics interest, s.economics.withdrawInterests g a.holdingsConsideredForInterests
      (min interestBlocks s.dgp.headBlockNumber) = .ok (economics, interest) ∧
        economics.Payable g := by
  obtain ⟨hlower, hupper⟩ := h.within hdelay hfind
  exact EconomicModel.withdrawInterests_ok hcoinbase h.pools hlower hupper h.sound.accumulated

theorem next {s' : Database} {interest : ShareType} (hcoinbase : g.coinbaseBlocks ≠ 0)
    (h : TurnInvariant g head id s) (hdelay : g.interestDelay < head)
    (hfind : s.findAccountById id = some (name, a))
    (hpay : s.payInterest g name a = .ok (s', interest)) :
    TurnInvariant g head (id + interestBlocks) s' := by
  obtain ⟨economics, paid, hwithdraw, hpools⟩ := h.withdraw hcoinbase hdelay hfind
  obtain ⟨ha, rfl⟩ := Database.find?_of_findAccountById hfind
  have hturn : a.OnTurn s.dgp.headBlockNumber := h.head.symm ▸ h.batch
  obtain ⟨_, _, _, _, hmoney⟩ := Database.payInterest_money ha h.sound.accumulated hpay
  have hstep : Explained g .processInterests (-interest, 0, -interest) s s' :=
    .single (m := .payInterest name interest) ⟨a, ha, hturn, hpay⟩ rfl
  refine ⟨hstep.sound h.sound, h.holdings.payInterest h.sound hturn ha hpay, ?_, ?_, ?_⟩
  · obtain ⟨economics', s₁, _, hwithdraw', hvotes, _, rfl⟩ := Database.payInterest_eq_ok hpay
    rw [if_pos (h.head.symm ▸ hdelay), hwithdraw] at hwithdraw'
    cases hwithdraw'
    have hs₁ : s₁.economics = economics := by
      split at hvotes
      · exact (Database.adjustProxiedWitnessVotes_frame hvotes).sameMoney.economics
      · exact pure_eq_ok.1 hvotes ▸ rfl
    exact hs₁ ▸ hpools
  · rw [Nat.add_mod_right]
    exact h.batch
  · exact hmoney.headBlockNumber.trans h.head

end TurnInvariant

/-- Where the first turn of an initial account is paid, its holdings are those of the blocks up
to it. The genesis state counts two blocks for every initial balance. -/
def FirstTurnsCounted (delay : ℕ) (s₀ : Database) : Prop :=
  s₀.accounts.Forall fun _ a ↦ delay < a.blocksLeft false 0 →
    a.considered (a.blocksLeft false 0) = 0

instance (delay : ℕ) (s₀ : Database) : Decidable (FirstTurnsCounted delay s₀) :=
  inferInstanceAs (Decidable (Table.Forall _ _))

theorem GenesisBooks.interestInvariant {g : GenesisState} {s : Database} (h : GenesisBooks g s)
    (hsupply : 0 ≤ s.dgp.currentSupply) (hfirst : FirstTurnsCounted g.interestDelay s) :
    InterestInvariant g.interestDelay (fun _ ↦ false) s := by
  refine ⟨hsupply, fun slot ↦ ?_, ?_, h.order, fun name a ha ↦ ?_⟩
  · rw [h.historic]
  · simp [h.historic, h.accumulated]
  · intro hpaid
    rw [h.head, zero_add] at hpaid
    simp only [h.head, h.historic]
    rw [hfirst name a ha hpaid]
    exact ⟨le_rfl, windowSum_nonneg (fun _ ↦ le_rfl) _ _⟩

/-- What a stage needs to be safe, beside the totals that it keeps. -/
def checkStage (ctx : Context) (s : Database) : Stage → Exec Unit
  | .clearNullAccountBalance =>
    fcAssert (s.accounts.Forall fun name a ↦ name = nullAccount → a.vestingShares ≤ 0)
      "no vesting shares to clear"
  | .updateGlobalDynamicData _ =>
    fcAssert (WithinSupply ctx.genesis.interestDelay s) "totals within the supply"
  | .processInterests => fcAssert (s.economics.Payable ctx.genesis) "pools to pay from"
  | _ => pure ()

/-- A stage that fails where it is not safe. -/
def safeStage (ctx : Context) (s : Database) (stage : Stage) : Exec Database := do
  let s' ← stage.run ctx s
  fcAssert (stage.isTurn = true ∨ TotalsKept ctx.genesis.interestDelay s s') "totals kept"
  checkStage ctx s stage
  pure s'

theorem safeStage_eq_ok {ctx : Context} {s s' : Database} {stage : Stage}
    (h : safeStage ctx s stage = .ok s') :
    InterestSafe ctx s stage ∧ stage.run ctx s = .ok s' := by
  simp only [safeStage, bind_eq_ok, fcAssert_eq_ok, pure_eq_ok] at h
  obtain ⟨s₁, hrun, _, hkept, _, hchecked, rfl⟩ := h
  refine ⟨⟨?_, ?_, ?_, ?_⟩, hrun⟩
  · intro hturn s' hrun'
    rw [hrun] at hrun'
    cases hrun'
    rcases hkept with hstage | hkept
    · cases stage <;> first | exact absurd rfl hturn | cases hstage
    · exact hkept
  · rintro rfl a ha
    exact fcAssert_eq_ok.1 hchecked nullAccount a ha rfl
  · rintro b rfl
    exact fcAssert_eq_ok.1 hchecked
  · rintro rfl
    exact fcAssert_eq_ok.1 hchecked

/-- The hourly network with accounts of ids up to 26, the last with a given balance. Interests are
paid from block 25 on. -/
def crowdedGenesis (last : ShareType) : GenesisState :=
  { hourlyGenesis with initialAccounts := ⟨1000, 8, 50⟩ ::
      (List.range 22).map fun i ↦ ⟨1001 + i, 8, if i = 21 then last else 0⟩ }

/-- Blocks of an hourly network after a block, one for each given list of transactions. -/
def hourlyBlocks : BlockId → Time → List (List Transaction) → List SignedBlock
  | _, _, [] => []
  | previous, time, transactions :: rest =>
    let b := devBlock previous time transactions
    b :: hourlyBlocks (devEnv.blockId b) (time + 3600) rest

/-- The blocks before the turn of the account of id 26, all but two of them empty. -/
def blocksBeforeTurn (first second : List Transaction) : List SignedBlock :=
  hourlyBlocks .null 1531515600 (first :: second :: List.replicate 23 [])

/-- The block of the turn. -/
def turnBlock : SignedBlock := devBlock ⟨25, 1531602000007⟩ 1531605600 []

end SophiaTX.Chain
