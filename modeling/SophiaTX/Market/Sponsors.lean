import SophiaTX.Market.Applications
import SophiaTX.Ownership.Debits

/-!
# Sponsors of fees

An account that sponsors another pays its fees. It takes that on by an operation of its own, while
nobody else does, and it or the sponsored account ends it again.
-/

namespace SophiaTX.Chain

open SophiaTX.Protocol SophiaTX.Lib

namespace Moment

/-- An account begins to sponsor another. -/
def Sponsors (moment : Moment) (sponsor sponsored : AccountName) : Prop :=
  moment.2.performed = some (.sponsorFees sponsor sponsored true) ∧ sponsor ≠ 0

/-- The sponsored account, in whose operation the sponsor is left empty, or its sponsor of the time
puts an end to it. -/
def EndsSponsorship (moment : Moment) (sponsored : AccountName) : Prop :=
  ∃ sponsor isSponsoring,
    moment.2.performed = some (.sponsorFees sponsor sponsored isSponsoring) ∧
      (sponsor = 0 ∨ isSponsoring = false ∧ moment.1.sponsors.find? sponsored = some sponsor)

end Moment

/-- The sponsor of an account, by the past. -/
def SponsoredBy (past : List Moment) (sponsored sponsor : AccountName) : Prop :=
  Since (fun moment _ ↦ moment.Sponsors sponsor sponsored)
    (fun moment ↦ ¬ moment.EndsSponsorship sponsored) past

variable {ctx : Context} {C : Database → Stage → Prop} {s₀ s s' : Database}
  {pending : Option (List Stage)} {past : List Moment} {sponsored sponsor : AccountName}

theorem sponsoredBy_cons {moment : Moment} : SponsoredBy (moment :: past) sponsored sponsor ↔
    moment.Sponsors sponsor sponsored ∨
      ¬ moment.EndsSponsorship sponsored ∧ SponsoredBy past sponsored sponsor := since_cons

theorem sponsors_of_operation {trx : Transaction} {fee : Asset} {p q : AccountName}
    {isSponsoring : Bool} (h : s.listings.OperationStep s.dgp.time (.sponsorFees p q isSponsoring)
      s'.listings) (sponsored sponsor : AccountName) :
    s'.sponsors.find? sponsored = some sponsor ↔
      Moment.Sponsors (s, .operation trx ⟨.sponsorFees p q isSponsoring, fee⟩) sponsor sponsored ∨
        ¬ Moment.EndsSponsorship
            (s, .operation trx ⟨.sponsorFees p q isSponsoring, fee⟩) sponsored ∧
          s.sponsors.find? sponsored = some sponsor := by
  have hbegins : Moment.Sponsors (s, .operation trx ⟨.sponsorFees p q isSponsoring, fee⟩) sponsor
      sponsored ↔ p = sponsor ∧ q = sponsored ∧ isSponsoring = true ∧ sponsor ≠ 0 := by
    simp [Moment.Sponsors, Stage.performed, and_assoc]
  have hends : Moment.EndsSponsorship (s, .operation trx ⟨.sponsorFees p q isSponsoring, fee⟩)
      sponsored ↔ q = sponsored ∧
        (p = 0 ∨ isSponsoring = false ∧ s.sponsors.find? sponsored = some p) := by
    constructor
    · rintro ⟨_, _, hother, hrest⟩
      cases hother
      exact ⟨rfl, hrest⟩
    · rintro ⟨rfl, hrest⟩
      exact ⟨p, isSponsoring, rfl, hrest⟩
  rw [hbegins, hends]
  simp only [Listings.OperationStep] at h
  split at h
  · rename_i hempty
    have hrows : s'.sponsors = s.sponsors.erase q := congrArg Listings.sponsors h.2
    subst hempty
    rw [hrows, Table.find?_erase]
    split
    · rename_i hsame
      subst hsame
      simp only [reduceCtorEq, true_and, true_or, not_true_eq_false, false_and, or_false, false_iff]
      rintro ⟨hzero, _, hne⟩
      exact hne hzero.symm
    · rename_i hother
      have hne : q ≠ sponsored := fun h ↦ hother h.symm
      simp [hne]
  · rename_i hp
    cases isSponsoring with
    | true =>
      rw [if_pos rfl] at h
      obtain ⟨rows, hrows, hl'⟩ := h
      rw [show s'.sponsors = rows from congrArg Listings.sponsors hl', Table.find?_emplace? hrows]
      split
      · rename_i hsame
        subst hsame
        have hfresh : s.sponsors.find? sponsored = none := (Table.emplace?_eq_some hrows).1
        simp only [Option.some.injEq, true_and, hfresh, reduceCtorEq, and_false, or_false]
        constructor
        · rintro rfl
          exact ⟨rfl, hp⟩
        · exact fun hboth ↦ hboth.1
      · rename_i hother
        have hne : q ≠ sponsored := fun h ↦ hother h.symm
        simp [hne, Database.listings]
    | false =>
      rw [if_neg Bool.false_ne_true] at h
      obtain ⟨hcurrent, hl'⟩ := h
      have hrows : s'.sponsors = s.sponsors.erase q := congrArg Listings.sponsors hl'
      rw [hrows, Table.find?_erase]
      split
      · rename_i hsame
        subst hsame
        simp [show s.sponsors.find? sponsored = some p from hcurrent]
      · rename_i hother
        have hne : q ≠ sponsored := fun h ↦ hother h.symm
        simp [hne]

theorem sponsors_of_stage {stage : Stage} (hrun : stage.run ctx s = .ok s')
    (sponsored sponsor : AccountName) : s'.sponsors.find? sponsored = some sponsor ↔
      Moment.Sponsors (s, stage) sponsor sponsored ∨
        ¬ Moment.EndsSponsorship (s, stage) sponsored ∧
          s.sponsors.find? sponsored = some sponsor := by
  have hstep := Stage.listingsStep hrun
  have hquiet : (∀ p q b, stage.performed ≠ some (.sponsorFees p q b)) →
      s'.sponsors = s.sponsors → (s'.sponsors.find? sponsored = some sponsor ↔
        Moment.Sponsors (s, stage) sponsor sponsored ∨
          ¬ Moment.EndsSponsorship (s, stage) sponsored ∧
            s.sponsors.find? sponsored = some sponsor) := by
    intro hother hsame
    simp [Moment.Sponsors, Moment.EndsSponsorship, hother, hsame]
  cases stage with
  | operation trx op =>
    obtain ⟨op, fee⟩ := op
    cases op with
    | sponsorFees p q isSponsoring => exact sponsors_of_operation hstep sponsored sponsor
    | applicationCreate _ _ _ _ _ =>
      obtain ⟨_, _, hl'⟩ := hstep
      exact hquiet (fun _ _ _ h ↦ by cases h) (congrArg Listings.sponsors hl')
    | applicationUpdate _ _ _ _ _ _ | applicationDelete _ _ =>
      obtain ⟨_, _, _, hl'⟩ := hstep
      exact hquiet (fun _ _ _ h ↦ by cases h) (congrArg Listings.sponsors hl')
    | buyApplication _ _ =>
      obtain ⟨_, _, _, _, _, hl'⟩ := hstep
      exact hquiet (fun _ _ _ h ↦ by cases h) (congrArg Listings.sponsors hl')
    | cancelApplicationBuying _ _ _ =>
      obtain ⟨_, _, _, _, hl'⟩ := hstep
      exact hquiet (fun _ _ _ h ↦ by cases h) (congrArg Listings.sponsors hl')
    | _ => exact hquiet (fun _ _ _ h ↦ by cases h) (congrArg Listings.sponsors hstep)
  | _ => exact hquiet (fun _ _ _ h ↦ by cases h) (congrArg Listings.sponsors hstep)

theorem initGenesis_sponsors {g : GenesisState} (h : initGenesis g = .ok s) :
    s.sponsors = .empty := by
  simp only [initGenesis, bind_eq_ok, pure_eq_ok] at h
  obtain ⟨_, _, _, _, _, _, rfl⟩ := h
  rfl

theorem Chronicle.sponsors (hgenesis : initGenesis ctx.genesis = .ok s₀)
    (h : Chronicle ctx C s₀ past pending s) (sponsored sponsor : AccountName) :
    s.sponsors.find? sponsored = some sponsor ↔ SponsoredBy past sponsored sponsor := by
  induction h with
  | refl =>
    rw [initGenesis_sponsors hgenesis]
    refine iff_of_false ?_ not_since_nil
    rintro ⟨⟩
  | start _ _ ih => exact ih
  | stage _ _ hrun ih => rw [sponsors_of_stage hrun, sponsoredBy_cons, ih]
  | finish _ _ ih => exact ih

/-- An account is sponsored by who took it on last, if neither of both has ended that since. The
fee of an operation lowers nobody but the fee payer that has no sponsor, or the sponsor of the one
that has. -/
theorem fees_fall_on_sponsors (hgenesis : initGenesis ctx.genesis = .ok s₀)
    (h : Chronicle ctx (fun _ _ ↦ True) s₀ past pending s) :
    (∀ sponsored sponsor, s.sponsors.find? sponsored = some sponsor ↔
      SponsoredBy past sponsored sponsor) ∧
      ∀ op s', s.processOperationFee ctx.genesis op = .ok s' → ∀ name,
        Lowers s s' name ↔ s.chargedFee ctx.genesis op ≠ 0 ∧
          (SponsoredBy past op.op.feePayer name ∨
            name = op.op.feePayer ∧ ∀ sponsor, ¬ SponsoredBy past op.op.feePayer sponsor) := by
  have hsponsors := h.sponsors hgenesis
  refine ⟨hsponsors, fun op s' hfee name ↦ ?_⟩
  obtain ⟨hnonneg, hbalance, hvesting, _⟩ := processOperationFee_holdings hfee
  have hpayer : name = s.sponsorOf op.op.feePayer ↔ SponsoredBy past op.op.feePayer name ∨
      name = op.op.feePayer ∧ ∀ sponsor, ¬ SponsoredBy past op.op.feePayer sponsor := by
    simp only [← hsponsors, Database.sponsorOf]
    cases s.sponsors.find? op.op.feePayer <;> simp [eq_comm]
  rw [← hpayer, Lowers, hbalance, hvesting, Pi.add_apply]
  by_cases hname : name = s.sponsorOf op.op.feePayer
  · rw [← hname, Pi.single_eq_same]
    have hpos : s.chargedFee ctx.genesis op ≠ 0 ↔ 0 < s.chargedFee ctx.genesis op :=
      ⟨fun hne ↦ lt_of_le_of_ne hnonneg hne.symm, ne_of_gt⟩
    simp [hpos]
  · rw [Pi.single_eq_of_ne hname]
    simp [hname]

/-- An account begins to sponsor the init miner. -/
def sponsorBlock : SignedBlock :=
  devBlock .null 1531512803 [devTransaction 1531512801 8 (.sponsorFees 1000 initMinerName true)]

/-- A transfer of the init miner for a fee of five. -/
def sponsoredTransfer : FeeOperation :=
  ⟨.transfer initMinerName 1000 ⟨1, sophiatxSymbol⟩ [], ⟨5, sophiatxSymbol⟩⟩

/-- The fee of the sponsored account lowers its sponsor and nobody else. -/
theorem fees_fall_on_sponsors_one_sponsor :
    ∃ s₀ past s s', Chronicle (devContext devGenesis) (fun _ _ ↦ True) s₀ past none s ∧
      SponsoredBy past initMinerName 1000 ∧
      s.processOperationFee devGenesis sponsoredTransfer = .ok s' ∧
      ∀ name, Lowers s s' name ↔ name = 1000 := by
  have hok : okAnd (initGenesis devGenesis) (fun s₀ ↦
      okAnd (recordBlocks (devContext devGenesis)
        (fun s stage ↦ stage.run (devContext devGenesis) s) [sponsorBlock] ([], s₀)) fun recorded ↦
          okAnd (recorded.2.processOperationFee devGenesis sponsoredTransfer) fun _ ↦
            decide (recorded.2.sponsors.find? initMinerName = some 1000 ∧
              recorded.2.chargedFee devGenesis sponsoredTransfer = 5)) = true := by
    decide +kernel
  obtain ⟨s₀, hgenesis, hs₀⟩ := exists_of_okAnd hok
  obtain ⟨recorded, hblocks, hs⟩ := exists_of_okAnd hs₀
  obtain ⟨s', hfee, hfacts⟩ := exists_of_okAnd hs
  obtain ⟨hfind, hcharged⟩ := of_decide_eq_true hfacts
  have hchronicle : Chronicle (devContext devGenesis) (fun _ _ ↦ True) s₀ recorded.1 none
      recorded.2 := Chronicle.recordBlocks (fun _ _ _ hrun ↦ ⟨trivial, hrun⟩) .refl hblocks
  obtain ⟨hsponsors, hlowers⟩ := fees_fall_on_sponsors hgenesis hchronicle
  have hsponsored : ∀ name, SponsoredBy recorded.1 initMinerName name ↔ name = 1000 := by
    intro name
    rw [← hsponsors, hfind, Option.some.injEq, eq_comm]
  refine ⟨s₀, recorded.1, recorded.2, s', hchronicle, (hsponsored 1000).2 rfl, hfee, fun name ↦ ?_⟩
  have hpayer : sponsoredTransfer.op.feePayer = initMinerName := rfl
  have hfive : recorded.2.chargedFee (devContext devGenesis).genesis sponsoredTransfer = 5 :=
    hcharged
  rw [hlowers sponsoredTransfer s' hfee name, hfive, hpayer]
  simp only [hsponsored]
  simp

end SophiaTX.Chain
