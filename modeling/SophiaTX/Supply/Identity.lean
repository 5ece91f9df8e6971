import Mathlib.Tactic.Linarith
import SophiaTX.Chain.Genesis

/-!
# The supply and what backs it

The supply is what the accounts and escrows hold, in every state of every run. The supply and
the pools together are the total supply exactly in the runs in which nothing was left to burn on
the null account.
-/

namespace SophiaTX.Chain

open SophiaTX.Protocol SophiaTX.Lib

variable {ctx : Context}

/-- What the stages keep of the books. -/
theorem Stage.gaps_eq {stage : Stage} {s s' : Database} (hs : Sound s) (hvalid : stage.Valid ctx)
    (h : stage.run ctx s = .ok s') :
    s'.supplyGap = s.supplyGap ∧ s'.vestingGap = s.vestingGap ∧
      s'.supplyAndPools = s.supplyAndPools - stage.burned s := by
  have hgaps := (Stage.explained hs hvalid h).gaps_eq hs
  simpa only [Database.gaps, Prod.mk_add_mk, Prod.mk.injEq, add_zero, ← sub_eq_add_neg] using hgaps

theorem RunsFrom.books {C : Database → Stage → Prop} {s₀ s : Database}
    {pending : Option (List Stage)} (hskip : ctx.skip.validate = false)
    (h : RunsFrom ctx C s₀ pending s) (hs₀ : Sound s₀) :
    s.supplyGap = s₀.supplyGap ∧ s.vestingGap = s₀.vestingGap := by
  have hbooks := h.invariant (I := fun s ↦ Sound s ∧ s.supplyGap = s₀.supplyGap ∧
    s.vestingGap = s₀.vestingGap) hskip ?_ ⟨hs₀, rfl, rfl⟩
  · exact hbooks.2
  · rintro s stage s' - hvalid hrun ⟨hs, hsupply, hvesting⟩
    obtain ⟨hsupply', hvesting', _⟩ := Stage.gaps_eq hs hvalid hrun
    exact ⟨Stage.sound hs hvalid hrun, hsupply'.trans hsupply, hvesting'.trans hvesting⟩

/-- The supply identity, after every operation and every step of a block. -/
theorem supply_identity (hskip : ctx.skip.validate = false) {s : Database}
    (h : Reachable ctx s) :
    s.dgp.currentSupply = s.accountBalances + s.accountVestingShares + s.escrowBalances ∧
      s.dgp.totalVestingShares = s.accountVestingShares := by
  obtain ⟨s₀, pending, hgenesis, hruns⟩ := h
  have hs₀ := initGenesis_books hgenesis
  obtain ⟨hsupply, hvesting⟩ := hruns.books hskip hs₀.sound
  rw [hs₀.gaps_eq.1, Database.supplyGap] at hsupply
  rw [hs₀.gaps_eq.2, Database.vestingGap] at hvesting
  exact ⟨by linarith, by linarith⟩

/-- One block of the development network with a transfer between its accounts. -/
def transferBlock (receiver : AccountName) : SignedBlock :=
  devBlock .null 1531512803
    [devTransaction 1531512900 8 (.transfer 1000 receiver ⟨20, sophiatxSymbol⟩ [])]

theorem supply_identity_after_transfer :
    ∃ s, (initGenesis devGenesis >>= fun s₀ ↦
        applyBlock (devContext devGenesis) s₀ (transferBlock initMinerName)) = .ok s ∧
      s.dgp.currentSupply = s.accountBalances + s.accountVestingShares + s.escrowBalances ∧
        s.dgp.totalVestingShares = s.accountVestingShares := by
  have hok : okAnd (initGenesis devGenesis >>= fun s₀ ↦ applyBlock (devContext devGenesis) s₀
      (transferBlock initMinerName)) (fun _ ↦ true) = true := by decide +kernel
  obtain ⟨s, hs, _⟩ := exists_of_okAnd hok
  refine ⟨s, hs, ?_⟩
  obtain ⟨s₀, hgenesis, hblock⟩ := bind_eq_ok.1 hs
  exact supply_identity rfl
    ⟨s₀, none, hgenesis, RunsFrom.refl.applyBlock (fun _ _ _ ↦ trivial) hblock⟩

/-! ## The pools -/

/-- Nothing is on the null account when it is cleared. -/
def NullAccountEmpty (s : Database) (stage : Stage) : Prop :=
  stage = .clearNullAccountBalance → s.dgp.privateNet = false →
    ∀ a, s.accounts.find? nullAccount = some a → a.balance ≤ 0 ∧ a.vestingShares ≤ 0

theorem nullHoldings_nonneg (s : Database) : 0 ≤ s.nullHoldings := by
  unfold Database.nullHoldings
  split
  · exact add_nonneg (le_max_left _ _) (le_max_left _ _)
  · exact le_rfl

theorem nullHoldings_eq_zero_iff (s : Database) : s.nullHoldings = 0 ↔
    ∀ a, s.accounts.find? nullAccount = some a → a.balance ≤ 0 ∧ a.vestingShares ≤ 0 := by
  unfold Database.nullHoldings
  split
  · rename_i a ha
    rw [ha, add_eq_zero_iff_of_nonneg (le_max_left _ _) (le_max_left _ _), max_eq_left_iff,
      max_eq_left_iff]
    simp
  · rename_i hnone
    rw [hnone]
    simp

theorem Stage.burned_nonneg (s : Database) (stage : Stage) : 0 ≤ stage.burned s := by
  unfold burned
  split
  · split
    · exact le_rfl
    · exact nullHoldings_nonneg s
  · exact le_rfl

theorem Stage.burned_eq_zero_iff (s : Database) (stage : Stage) :
    stage.burned s = 0 ↔ NullAccountEmpty s stage := by
  cases stage with
  | clearNullAccountBalance =>
    cases hnet : s.dgp.privateNet with
    | true => simp [burned, NullAccountEmpty, hnet]
    | false => simp [burned, NullAccountEmpty, hnet, nullHoldings_eq_zero_iff]
  | _ => simp [burned, NullAccountEmpty]

namespace RunsFrom

variable {s₀ s : Database} {pending : Option (List Stage)}

theorem supplyAndPools_le (hskip : ctx.skip.validate = false) (hs₀ : Sound s₀)
    (h : RunsFrom ctx (fun _ _ ↦ True) s₀ pending s) :
    s.supplyAndPools ≤ s₀.supplyAndPools := by
  refine (h.invariant (I := fun s ↦ Sound s ∧ s.supplyAndPools ≤ s₀.supplyAndPools) hskip ?_
    ⟨hs₀, le_rfl⟩).2
  rintro s stage s' - hvalid hrun ⟨hs, hle⟩
  refine ⟨Stage.sound hs hvalid hrun, ?_⟩
  rw [(Stage.gaps_eq hs hvalid hrun).2.2]
  linarith [Stage.burned_nonneg s stage]

/-- A run that burns nothing keeps the supply and the pools together. -/
theorem supplyAndPools_eq (hskip : ctx.skip.validate = false) (hs₀ : Sound s₀)
    (h : RunsFrom ctx NullAccountEmpty s₀ pending s) :
    s.supplyAndPools = s₀.supplyAndPools := by
  refine (h.invariant (I := fun s ↦ Sound s ∧ s.supplyAndPools = s₀.supplyAndPools) hskip ?_
    ⟨hs₀, rfl⟩).2
  rintro s stage s' hnull hvalid hrun ⟨hs, heq⟩
  refine ⟨Stage.sound hs hvalid hrun, ?_⟩
  rw [(Stage.gaps_eq hs hvalid hrun).2.2, (Stage.burned_eq_zero_iff s stage).2 hnull, sub_zero,
    heq]

/-- A run that burned something never makes up for it. -/
theorem nullAccountEmpty (hskip : ctx.skip.validate = false) (hs₀ : Sound s₀)
    (h : RunsFrom ctx (fun _ _ ↦ True) s₀ pending s)
    (heq : s.supplyAndPools = s₀.supplyAndPools) :
    RunsFrom ctx NullAccountEmpty s₀ pending s := by
  induction h with
  | refl => exact .refl
  | start b _ ih => exact (ih heq).start b
  | finish _ hcheck ih => exact (ih heq).finish hcheck
  | @stage s s' stage rest h _ hrun ih =>
    have hgap := (Stage.gaps_eq (h.sound hskip hs₀) (h.guarded hskip).head hrun).2.2
    have hle := h.supplyAndPools_le hskip hs₀
    have hnone : stage.burned s = 0 :=
      le_antisymm (by linarith) (Stage.burned_nonneg s stage)
    rw [hnone, sub_zero] at hgap
    exact (ih (hgap.symm.trans heq)).stage ((Stage.burned_eq_zero_iff _ _).1 hnone) hrun

end RunsFrom

/-- In a run from a genesis state with the pool identity, it holds as long as the null account is
empty whenever it is cleared, and not a moment longer. -/
theorem pool_identity_iff (hskip : ctx.skip.validate = false) {s₀ s : Database}
    {pending : Option (List Stage)} (hgenesis : initGenesis ctx.genesis = .ok s₀)
    (hidentity : s₀.dgp.currentSupply + s₀.economics.poolTotal = ctx.genesis.totalSupply)
    (h : RunsFrom ctx (fun _ _ ↦ True) s₀ pending s) :
    s.dgp.currentSupply + s.economics.poolTotal = ctx.genesis.totalSupply ↔
      RunsFrom ctx NullAccountEmpty s₀ pending s := by
  have hs₀ := (initGenesis_books hgenesis).sound
  rw [← hidentity]
  exact ⟨h.nullAccountEmpty hskip hs₀, fun hempty ↦ hempty.supplyAndPools_eq hskip hs₀⟩

theorem pool_identity_iff_after_transfer :
    ∃ s₀ s, initGenesis devGenesis = .ok s₀ ∧
      applyBlock (devContext devGenesis) s₀ (transferBlock initMinerName) = .ok s ∧
      (s.dgp.currentSupply + s.economics.poolTotal = devGenesis.totalSupply ↔
        RunsFrom (devContext devGenesis) NullAccountEmpty s₀ none s) := by
  have hok : okAnd (initGenesis devGenesis) (fun s₀ ↦
      decide (s₀.dgp.currentSupply + s₀.economics.poolTotal = devGenesis.totalSupply) &&
      okAnd (applyBlock (devContext devGenesis) s₀ (transferBlock initMinerName)) fun _ ↦ true) =
        true := by decide +kernel
  obtain ⟨s₀, hgenesis, hs₀⟩ := exists_of_okAnd hok
  rw [Bool.and_eq_true, decide_eq_true_eq] at hs₀
  obtain ⟨s, hblock, _⟩ := exists_of_okAnd hs₀.2
  exact ⟨s₀, s, hgenesis, hblock,
    pool_identity_iff rfl hgenesis hs₀.1 (RunsFrom.refl.applyBlock (fun _ _ _ ↦ trivial) hblock)⟩

/-- A transfer to the null account leaves the supply with its block and reaches no pool: the
check at the end of the block fails, and with it the block. -/
theorem pool_identity_fails_after_burning :
    ∃ s₀ s, initGenesis devGenesis = .ok s₀ ∧ devGenesis.isPrivateNet = false ∧
      s₀.dgp.currentSupply + s₀.economics.poolTotal = devGenesis.totalSupply ∧
      Reachable (devContext devGenesis) s ∧
      s.dgp.currentSupply + s.economics.poolTotal ≠ devGenesis.totalSupply ∧
      applyBlock (devContext devGenesis) s₀ (transferBlock nullAccount) =
        .error (.assertion "difference in the total supply") := by
  have hok : okAnd (initGenesis devGenesis) (fun s₀ ↦
      decide (s₀.dgp.currentSupply + s₀.economics.poolTotal = devGenesis.totalSupply) &&
      okAnd (runStages (devContext devGenesis) (SignedBlock.stages (transferBlock nullAccount)) s₀)
        (fun s ↦ decide (s.dgp.currentSupply + s.economics.poolTotal ≠ devGenesis.totalSupply)) &&
      decide (errorOf (applyBlock (devContext devGenesis) s₀ (transferBlock nullAccount)) =
        some (.assertion "difference in the total supply"))) = true := by decide +kernel
  obtain ⟨s₀, hgenesis, hs₀⟩ := exists_of_okAnd hok
  simp only [Bool.and_eq_true, decide_eq_true_eq] at hs₀
  obtain ⟨⟨hidentity, hrun⟩, herror⟩ := hs₀
  obtain ⟨s, hs, hne⟩ := exists_of_okAnd hrun
  refine ⟨s₀, s, hgenesis, rfl, hidentity, ⟨s₀, some [], hgenesis, ?_⟩, of_decide_eq_true hne,
    eq_error_of_errorOf herror⟩
  refine RunsFrom.runStages ?_ (fun _ _ _ ↦ trivial) hs
  rw [List.append_nil]
  exact RunsFrom.refl.start _

end SophiaTX.Chain
