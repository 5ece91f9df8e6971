import SophiaTX.Chain.MainChain
import SophiaTX.Chain.Tallies
import SophiaTX.Lib.Ring

/-!
# The blocks of a main chain by height

A block is applied when it builds on the head. So the blocks of a main chain are numbered from 1,
each has the id of the one before as its previous id, and the ring of block summaries holds the ids
of the latest of them.
-/

namespace SophiaTX.Chain

open SophiaTX.Protocol SophiaTX.Lib

variable {ctx : Context} {s₀ s s' : Database} {b : SignedBlock}
  {chain : List (Database × SignedBlock)}

/-! ## One block -/

/-- The head, the last irreversible block and the ring of block summaries. -/
structure Heading where
  headBlockNumber : ℕ
  headBlockId : BlockId
  lastIrreversibleBlockNum : ℕ
  blockSummaries : ℕ → BlockId

def Tallies.heading (t : Tallies) : Heading where
  headBlockNumber := t.headBlockNumber
  headBlockId := t.headBlockId
  lastIrreversibleBlockNum := t.lastIrreversibleBlockNum
  blockSummaries := t.blockSummaries

def Database.heading (s : Database) : Heading := s.tallies.heading

/-- Stages that write none of this. -/
def Stage.KeepsHeading : Stage → Prop
  | .updateGlobalDynamicData _ => False
  | .updateLastIrreversibleBlock => False
  | .createBlockSummary _ => False
  | _ => True

theorem Stage.KeepsHeading.heading_eq {stage : Stage} (h : stage.KeepsHeading)
    (hrun : stage.run ctx s = .ok s') : s'.heading = s.heading := by
  have hstep := Stage.talliesStep hrun
  cases stage with
  | updateGlobalDynamicData b | updateLastIrreversibleBlock | createBlockSummary b => cases h
  | openBlock b => exact congrArg Tallies.heading hstep.2
  | _ => exact (congrArg Tallies.heading hstep).trans rfl

theorem runStages_append {front back : List Stage} :
    runStages ctx (front ++ back) s = runStages ctx front s >>= runStages ctx back :=
  List.foldlM_append

theorem runStages_heading_eq {stages : List Stage} (hkeep : ∀ stage ∈ stages, stage.KeepsHeading)
    (h : runStages ctx stages s = .ok s') : s'.heading = s.heading :=
  foldlM_invariant (I := fun t ↦ t.heading = s.heading)
    (fun _ _ _ hmem hrun ht ↦ ((hkeep _ hmem).heading_eq hrun).trans ht) h rfl

theorem keepsHeading_transactions (b : SignedBlock) :
    ∀ stage ∈ b.transactions.flatMap transactionStages, stage.KeepsHeading := by
  intro stage hmem
  have hinside := inTransaction_of_mem hmem
  cases stage <;> trivial

/-- Up to the commit a block opens on the head, and after its transactions becomes the head. -/
theorem beforeCommit_eq_ok
    (h : runStages ctx (SignedBlock.stagesBeforeCommit b) s = .ok s') :
    s.dgp.headBlockId = b.previous ∧ ∃ s₁ s₂ s₃ : Database, s₁.heading = s.heading ∧
      s₁.updateGlobalDynamicData ctx b = .ok s₂ ∧ s₃.heading = s₂.heading ∧
      Stage.updateLastIrreversibleBlock.run ctx s₃ = .ok s' := by
  rw [SignedBlock.stagesBeforeCommit, List.cons_append, runStages, List.foldlM_cons,
    bind_eq_ok] at h
  obtain ⟨opened, hopen, h⟩ := h
  obtain ⟨hprevious, hopened⟩ := Stage.talliesStep hopen
  have hopened' : opened.heading = s.heading := congrArg Tallies.heading hopened
  rw [List.foldlM_append, bind_eq_ok] at h
  obtain ⟨s₁, htransactions, h⟩ := h
  have hs₁ : s₁.heading = opened.heading :=
    runStages_heading_eq (keepsHeading_transactions b) htransactions
  simp only [List.foldlM_cons, List.foldlM_nil, bind_eq_ok, pure_eq_ok] at h
  obtain ⟨s₂, hhead, s₃, hsigning, s₄, hirreversible, rfl⟩ := h
  have hkeep : (Stage.updateSigningWitness b).KeepsHeading := trivial
  have hs₃ : s₃.heading = s₂.heading := hkeep.heading_eq hsigning
  exact ⟨hprevious, s₁, s₂, s₃, hs₁.trans hopened', hhead, hs₃, hirreversible⟩

theorem heading_beforeCommit
    (h : runStages ctx (SignedBlock.stagesBeforeCommit b) s = .ok s') :
    s.dgp.headBlockId = b.previous ∧ s'.heading =
      ⟨b.blockNum, ctx.env.blockId b, s'.dgp.lastIrreversibleBlockNum, s.blockSummaries⟩ := by
  obtain ⟨hprevious, s₁, s₂, s₃, hs₁, hhead, hs₃, hirreversible⟩ := beforeCommit_eq_ok h
  have hrun : (Stage.updateGlobalDynamicData b).run ctx s₁ = .ok s₂ := hhead
  have hs₂ : s₂.heading = ⟨b.blockNum, ctx.env.blockId b, s₁.heading.lastIrreversibleBlockNum,
      s₁.heading.blockSummaries⟩ := congrArg Tallies.heading (Stage.talliesStep hrun)
  have hs' : s'.heading = ⟨s₃.heading.headBlockNumber, s₃.heading.headBlockId,
      s'.dgp.lastIrreversibleBlockNum, s₃.heading.blockSummaries⟩ :=
    congrArg Tallies.heading (Stage.talliesStep hirreversible)
  refine ⟨hprevious, ?_⟩
  rw [hs', hs₃, hs₂, hs₁]
  rfl

/-- After the commit its summary is written. -/
theorem heading_afterCommit
    (h : runStages ctx (SignedBlock.stagesAfterCommit b) s = .ok s') :
    s'.heading = { s.heading with
      blockSummaries :=
        Function.update s.blockSummaries (b.blockNum % 65536) (ctx.env.blockId b) } := by
  rw [SignedBlock.stagesAfterCommit, runStages, List.foldlM_cons, bind_eq_ok] at h
  obtain ⟨s₁, hsummary, h⟩ := h
  have hs' : s'.heading = s₁.heading := by
    apply runStages_heading_eq _ h
    simp [Stage.KeepsHeading]
  exact hs'.trans (congrArg Tallies.heading (Stage.talliesStep hsummary))

theorem applyBlock_heading (h : applyBlock ctx s b = .ok s') :
    s.dgp.headBlockId = b.previous ∧ s'.heading = ⟨b.blockNum, ctx.env.blockId b,
      s'.dgp.lastIrreversibleBlockNum,
      Function.update s.blockSummaries (b.blockNum % 65536) (ctx.env.blockId b)⟩ := by
  simp only [applyBlock, SignedBlock.stages, runStages_append, bind_eq_ok, pure_eq_ok] at h
  obtain ⟨s₁, ⟨s₂, hbefore, hafter⟩, _, _, rfl⟩ := h
  obtain ⟨hprevious, hs₂⟩ := heading_beforeCommit hbefore
  have hs₁ := heading_afterCommit hafter
  have hring : s₂.blockSummaries = s.blockSummaries := congrArg Heading.blockSummaries hs₂
  have hirreversible : s₁.dgp.lastIrreversibleBlockNum = s₂.dgp.lastIrreversibleBlockNum :=
    congrArg Heading.lastIrreversibleBlockNum hs₁
  refine ⟨hprevious, ?_⟩
  rw [hs₁, hs₂, hring, hirreversible]

/-- What is irreversible is decided up to the commit. -/
theorem irreversible_of_beforeCommit {committed : Database}
    (hbefore : runStages ctx (SignedBlock.stagesBeforeCommit b) s = .ok committed)
    (h : applyBlock ctx s b = .ok s') :
    s'.dgp.lastIrreversibleBlockNum = committed.dgp.lastIrreversibleBlockNum := by
  simp only [applyBlock, SignedBlock.stages, runStages_append, bind_eq_ok, pure_eq_ok] at h
  obtain ⟨s₁, ⟨s₂, hbefore', hafter⟩, _, _, rfl⟩ := h
  obtain rfl : committed = s₂ := Except.ok.inj (hbefore.symm.trans hbefore')
  exact congrArg Heading.lastIrreversibleBlockNum (heading_afterCommit hafter)

/-! ## The ids of a chain -/

/-- The ids of the blocks of a chain, from block 1 on. -/
def mainIds (env : Env) (chain : List (Database × SignedBlock)) : List BlockId :=
  (chain.map fun entry ↦ env.blockId entry.2).reverse

@[simp]
theorem mainIds_nil (env : Env) : mainIds env [] = [] := rfl

theorem mainIds_cons (env : Env) (entry : Database × SignedBlock) :
    mainIds env (entry :: chain) = mainIds env chain ++ [env.blockId entry.2] := by
  rw [mainIds, List.map_cons, List.reverse_cons]
  rfl

@[simp]
theorem length_mainIds (env : Env) : (mainIds env chain).length = chain.length := by
  rw [mainIds, List.length_reverse, List.length_map]

theorem getElem?_mainIds_cons {env : Env} {entry : Database × SignedBlock} {n : ℕ} {id : BlockId}
    (hid : (mainIds env (entry :: chain))[n]? = some id) :
    (mainIds env chain)[n]? = some id ∨ n = chain.length ∧ id = env.blockId entry.2 := by
  rw [mainIds_cons, List.getElem?_append] at hid
  split at hid
  · exact .inl hid
  · rename_i hge
    rw [List.getElem?_singleton] at hid
    split at hid
    · rename_i hzero
      rw [length_mainIds] at hge hzero
      exact .inr ⟨by omega, (Option.some.inj hid).symm⟩
    · cases hid

/-- What the head of a chain and the ring of block summaries say. -/
structure Headed (env : Env) (chain : List (Database × SignedBlock)) (s : Database) : Prop where
  number : s.dgp.headBlockNumber = chain.length
  id : s.dgp.headBlockId = (mainIds env chain).getLast?.getD BlockId.null
  numbered : ∀ n id, (mainIds env chain)[n]? = some id → id.num = n + 1
  parents : ∀ n id, (mainIds env chain)[n]? = some id → ∃ b ∈ chain.map Prod.snd,
    env.blockId b = id ∧ b.previous = ((mainIds env chain).take n).getLast?.getD BlockId.null
  summaries : RingHolds 65536 BlockId.null (mainIds env chain) s.blockSummaries

theorem initGenesis_headed (env : Env) {g : GenesisState} (h : initGenesis g = .ok s) :
    Headed env [] s := by
  simp only [initGenesis, bind_eq_ok, pure_eq_ok] at h
  obtain ⟨_, _, _, _, _, _, rfl⟩ := h
  refine ⟨rfl, rfl, fun n id hid ↦ ?_, fun n id hid ↦ ?_, .empty _ _⟩ <;> cases hid

theorem Headed.head_num {env : Env} (h : Headed env chain s) :
    s.dgp.headBlockId.num = chain.length := by
  rw [h.id]
  cases hlast : (mainIds env chain).getLast? with
  | none =>
    have hempty := congrArg List.length (List.getLast?_eq_none_iff.1 hlast)
    rw [length_mainIds] at hempty
    exact hempty.symm
  | some id =>
    rw [List.getLast?_eq_getElem?, length_mainIds] at hlast
    have hnum := h.numbered _ _ hlast
    have hpos : 0 < chain.length := by
      apply Nat.pos_of_ne_zero
      intro hzero
      rw [List.length_eq_zero_iff.1 hzero] at hlast
      cases hlast
    rw [Option.getD_some]
    omega

theorem Headed.apply (h : Headed ctx.env chain s) (hb : applyBlock ctx s b = .ok s') :
    Headed ctx.env ((s, b) :: chain) s' := by
  obtain ⟨hprevious, hs'⟩ := applyBlock_heading hb
  have hnum : b.blockNum = chain.length + 1 := by
    rw [← h.head_num, hprevious]
    rfl
  have hlength : (mainIds ctx.env chain).length = chain.length := length_mainIds ctx.env
  refine ⟨?_, ?_, fun n id hid ↦ ?_, fun n id hid ↦ ?_, ?_⟩
  · calc s'.dgp.headBlockNumber
        = b.blockNum := congrArg Heading.headBlockNumber hs'
      _ = ((s, b) :: chain).length := hnum
  · calc s'.dgp.headBlockId
        = ctx.env.blockId b := congrArg Heading.headBlockId hs'
      _ = _ := by
        rw [mainIds_cons, List.getLast?_append, List.getLast?_singleton]
        rfl
  · rcases getElem?_mainIds_cons hid with hold | ⟨rfl, rfl⟩
    · exact h.numbered n id hold
    · exact hnum
  · rcases getElem?_mainIds_cons hid with hold | ⟨rfl, rfl⟩
    · have hlt := (List.getElem?_eq_some_iff.1 hold).1
      rw [mainIds_cons, List.take_append_of_le_length hlt.le]
      obtain ⟨old, hold, hid⟩ := h.parents n id hold
      exact ⟨old, List.mem_cons_of_mem _ hold, hid⟩
    · refine ⟨b, List.mem_cons_self, rfl, ?_⟩
      rw [mainIds_cons, List.take_append_of_le_length hlength.ge, ← hlength, List.take_length,
        ← h.id, hprevious]
  · have hring := h.summaries.write (ctx.env.blockId b)
    rw [hlength, ← hnum] at hring
    rw [mainIds_cons, show s'.blockSummaries = _ from congrArg Heading.blockSummaries hs']
    exact hring

theorem Linked.headed (h : Linked ctx s₀ chain s) (hs₀ : Headed ctx.env [] s₀) :
    Headed ctx.env chain s := by
  induction chain generalizing s with
  | nil =>
    obtain rfl : s = s₀ := h
    exact hs₀
  | cons entry chain ih => exact (ih h.2).apply h.1

/-- Popping blocks leaves a chain as well. -/
theorem MainChain.headed (h : MainChain ctx s₀ chain s)
    (hgenesis : initGenesis ctx.genesis = .ok s₀) : Headed ctx.env chain s :=
  h.linked.headed (initGenesis_headed _ hgenesis)

end SophiaTX.Chain
