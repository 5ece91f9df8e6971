import SophiaTX.Chain.Chronicle
import SophiaTX.Chain.Tallies
import SophiaTX.Signing.Selection

/-!
# Fee-free bandwidth

After hardfork 1_2 the operations of a transaction that pay no fee are charged to the accounts
whose active or owner authority the transaction requires. A charge resets the counters of an
account when the last reset is long enough ago. Operations that are authorised otherwise require no
such account, and a transaction of these alone is charged to nobody.
-/

namespace SophiaTX.Chain

open SophiaTX.Protocol SophiaTX.Lib

/-! ## Charges -/

def Transaction.feeFreeOperations (trx : Transaction) : List FeeOperation :=
  trx.operations.filter fun op ↦ decide (op.fee.amount = 0)

/-- The accounts whose active or owner authority a transaction requires. -/
def Transaction.requiredAccounts (trx : Transaction) : List AccountName :=
  flatSet (trx.operations.flatMap fun op ↦
    op.op.requiredActiveAuthorities ++ op.op.requiredOwnerAuthorities)

/-- Fee-free operations of a transaction, charged to an account. -/
structure BandwidthCharge where
  blockNumber : ℕ
  size : ℕ
  count : ℕ
  /-- Whether the counters of the account are set anew. -/
  reset : Bool

/-- Whether the next charge sets the counters anew. -/
def resetsBandwidth (g : GenesisState) (headBlockNumber : ℕ) : Option AccountBandwidth → Bool
  | none => true
  | some abo =>
    decide (g.limitBandwidthBlocks < uint32Sub headBlockNumber abo.lastBlockNumReset)

/-- What the end of a transaction charges to an account. -/
def bandwidthCharge (ctx : Context) (s : Database) (trx : Transaction) (account : AccountName) :
    Option BandwidthCharge :=
  if s.hasHardfork 2 ∧ Transaction.feeFreeOperations trx ≠ [] ∧
      account ∈ Transaction.requiredAccounts trx then
    some {
      blockNumber := s.dgp.headBlockNumber
      size := ((Transaction.feeFreeOperations trx).map ctx.env.operationPackSize).sum
      count := (Transaction.feeFreeOperations trx).length
      reset := resetsBandwidth ctx.genesis s.dgp.headBlockNumber (s.bandwidths.find? account) }
  else none

def Moment.charge (ctx : Context) (account : AccountName) (moment : Moment) :
    Option BandwidthCharge :=
  match moment.2 with
  | .closeTransaction trx => bandwidthCharge ctx moment.1 trx account
  | _ => none

/-- The charges to an account, the newest first. -/
def charges (ctx : Context) (account : AccountName) (past : List Moment) : List BandwidthCharge :=
  past.filterMap (Moment.charge ctx account)

/-- The bandwidth object that charges lead to. -/
def meter (charges : List BandwidthCharge) : Option AccountBandwidth :=
  (charges.find? BandwidthCharge.reset).map fun last ↦ {
    actFeeFreeBandwidth := ((sinceLast BandwidthCharge.reset charges).map BandwidthCharge.size).sum
    actFeeFreeOpsCount := ((sinceLast BandwidthCharge.reset charges).map BandwidthCharge.count).sum
    lastBlockNumReset := last.blockNumber }

/-- Counters that do not exceed the limits. -/
structure WithinLimits (g : GenesisState) (abo : AccountBandwidth) : Prop where
  bandwidth : abo.actFeeFreeBandwidth ≤ g.maxAllowedBandwidth
  opsCount : abo.actFeeFreeOpsCount ≤ g.maxAllowedOps

variable {ctx : Context} {g : GenesisState} {C : Database → Stage → Prop} {s₀ s s' : Database}
  {pending : Option (List Stage)} {past : List Moment} {log : List BandwidthCharge}
  {trx : Transaction} {account : AccountName}

/-- A charge that resets or comes after a reset takes the meter one step on. -/
theorem meter_cons (c : BandwidthCharge)
    (hreset : c.reset = resetsBandwidth g c.blockNumber (meter log)) :
    meter (c :: log) =
      some (Database.nextBandwidth g c.blockNumber c.size c.count (meter log)) := by
  cases hmeter : meter log with
  | none =>
    have hc : c.reset = true := by rw [hreset, hmeter, resetsBandwidth]
    simp [meter, sinceLast, hc, Database.nextBandwidth]
  | some abo =>
    rw [hmeter, resetsBandwidth] at hreset
    by_cases hlate : g.limitBandwidthBlocks < uint32Sub c.blockNumber abo.lastBlockNumReset
    · have hc : c.reset = true := hreset.trans (decide_eq_true hlate)
      simp [meter, sinceLast, hc, Database.nextBandwidth, hlate]
    · have hc : c.reset = false := hreset.trans (decide_eq_false hlate)
      obtain ⟨last, hlast, rfl⟩ := Option.map_eq_some_iff.1 hmeter
      simp [meter, sinceLast, hc, Database.nextBandwidth, hlate, hlast, Nat.add_comm]

/-! ## The end of a transaction -/

namespace Database

theorem updateAccountBandwidth_eq_ok {bandwidth opsCount : ℕ}
    (h : updateAccountBandwidth g bandwidth opsCount s account = .ok s') :
    s'.dgp = s.dgp ∧ WithinLimits g (nextBandwidth g s.dgp.headBlockNumber bandwidth opsCount
      (s.bandwidths.find? account)) ∧
      ∀ name, s'.bandwidths.find? name = if name = account then
        some (nextBandwidth g s.dgp.headBlockNumber bandwidth opsCount (s.bandwidths.find? account))
        else s.bandwidths.find? name := by
  simp only [updateAccountBandwidth, bind_eq_ok, pure_eq_ok, throwIf_eq_ok, not_lt] at h
  obtain ⟨bandwidths, hrow, _, hbandwidth, _, hopsCount, rfl⟩ := h
  refine ⟨rfl, ⟨hbandwidth, hopsCount⟩, fun name ↦ ?_⟩
  split at hrow
  · exact Table.find?_emplace? (createRow_eq_ok.1 hrow) name
  · rename_i hsome
    rw [← pure_eq_ok.1 hrow, Table.find?_modify]
    split
    · rename_i hname
      cases hfind : s.bandwidths.find? account with
      | none => exact absurd (by rw [hfind]; rfl) hsome
      | some row => rw [hname, hfind, Option.map_some]
    · rfl

/-- Every account is charged once, by its counters from before. -/
theorem updateAccountsBandwidth_eq_ok {bandwidth opsCount : ℕ} {accounts : List AccountName}
    (hnodup : accounts.Nodup)
    (h : accounts.foldlM (updateAccountBandwidth g bandwidth opsCount) s = .ok s') :
    (∀ name ∈ accounts, WithinLimits g (nextBandwidth g s.dgp.headBlockNumber bandwidth opsCount
      (s.bandwidths.find? name))) ∧
    ∀ name, s'.bandwidths.find? name = if name ∈ accounts then
        some (nextBandwidth g s.dgp.headBlockNumber bandwidth opsCount (s.bandwidths.find? name))
        else s.bandwidths.find? name := by
  induction accounts generalizing s with
  | nil =>
    rw [List.foldlM_nil, pure_eq_ok] at h
    rw [h]
    exact ⟨fun _ hname ↦ absurd hname List.not_mem_nil, fun name ↦ rfl⟩
  | cons first accounts ih =>
    rw [List.foldlM_cons, bind_eq_ok] at h
    obtain ⟨s₁, hfirst, h⟩ := h
    obtain ⟨hnotMem, hnodup⟩ := List.nodup_cons.1 hnodup
    obtain ⟨hdgp, hlimits, hfind⟩ := updateAccountBandwidth_eq_ok hfirst
    obtain ⟨hlimits', hfind'⟩ := ih hnodup h
    rw [hdgp] at hlimits' hfind'
    have hothers : ∀ name ∈ accounts, s₁.bandwidths.find? name = s.bandwidths.find? name := by
      intro name hname
      have hne : name ≠ first := fun heq ↦ hnotMem (heq ▸ hname)
      rw [hfind, if_neg hne]
    constructor
    · intro name hname
      rcases List.mem_cons.1 hname with rfl | hname
      · exact hlimits
      · rw [← hothers name hname]
        exact hlimits' name hname
    · intro name
      rw [hfind' name]
      by_cases hname : name ∈ accounts
      · rw [if_pos hname, if_pos (List.mem_cons_of_mem first hname), hothers name hname]
      · rw [if_neg hname, hfind name]
        by_cases hfirst : name = first
        · rw [if_pos hfirst, if_pos (hfirst ▸ List.mem_cons_self), hfirst]
        · rw [if_neg hfirst, if_neg (List.not_mem_cons_of_ne_of_not_mem hfirst hname)]

/-- What the end of a transaction does to every bandwidth object. -/
theorem closeTransaction_bandwidths (h : s.closeTransaction ctx trx = .ok s') (name : AccountName) :
    match bandwidthCharge ctx s trx name with
    | some c => WithinLimits ctx.genesis (nextBandwidth ctx.genesis c.blockNumber c.size c.count
        (s.bandwidths.find? name)) ∧ s'.bandwidths.find? name = some (nextBandwidth ctx.genesis
          c.blockNumber c.size c.count (s.bandwidths.find? name))
    | none => s'.bandwidths.find? name = s.bandwidths.find? name := by
  simp only [closeTransaction] at h
  split at h
  · rename_i hcharged
    obtain ⟨hlimits, hfind⟩ := updateAccountsBandwidth_eq_ok (nodup_flatSet _) h
    by_cases hname : name ∈ Transaction.requiredAccounts trx
    · rw [bandwidthCharge, if_pos ⟨hcharged.1, hcharged.2, hname⟩]
      exact ⟨hlimits name hname, (hfind name).trans (if_pos hname)⟩
    · rw [bandwidthCharge, if_neg fun h ↦ hname h.2.2]
      exact (hfind name).trans (if_neg hname)
  · rename_i hcharged
    rw [bandwidthCharge, if_neg fun h ↦ hcharged ⟨h.1, h.2.1⟩, ← pure_eq_ok.1 h]

end Database

/-! ## The counters of one account -/

/-- The bandwidth object of an account counts its charges since the last reset, no limit has been
exceeded, and resets are far enough apart. -/
structure Metered (g : GenesisState) (log : List BandwidthCharge) (row : Option AccountBandwidth)
    (headBlockNumber : ℕ) : Prop where
  row_eq : row = meter log
  limits : ∀ c older, c :: older <:+ log → ∃ abo, meter (c :: older) = some abo ∧ WithinLimits g abo
  resets : (log.filter BandwidthCharge.reset).Pairwise fun c earlier ↦
    earlier.blockNumber + g.limitBandwidthBlocks < c.blockNumber
  head : ∀ c ∈ log, c.blockNumber ≤ headBlockNumber

namespace Metered

variable {row : Option AccountBandwidth} {headBlockNumber : ℕ}

theorem nil : Metered g [] none headBlockNumber where
  row_eq := rfl
  limits _ _ hsuffix := absurd (List.suffix_nil.1 hsuffix) (List.cons_ne_nil _ _)
  resets := List.Pairwise.nil
  head _ hc := absurd hc List.not_mem_nil

theorem mono {headBlockNumber' : ℕ} (hle : headBlockNumber ≤ headBlockNumber')
    (h : Metered g log row headBlockNumber) : Metered g log row headBlockNumber' :=
  { h with head := fun c hc ↦ (h.head c hc).trans hle }

/-- A reset is later than all before it. -/
theorem resets_cons (h : Metered g log row headBlockNumber)
    (hreset : resetsBandwidth g headBlockNumber row = true) :
    ∀ earlier ∈ log.filter BandwidthCharge.reset,
      earlier.blockNumber + g.limitBandwidthBlocks < headBlockNumber := by
  intro earlier hearlier
  cases hresets : log.filter BandwidthCharge.reset with
  | nil =>
    rw [hresets] at hearlier
    cases hearlier
  | cons last others =>
    have hlast : log.find? BandwidthCharge.reset = some last := by
      rw [← List.head?_filter, hresets, List.head?_cons]
    have hmem : last ∈ log := List.mem_of_find?_eq_some hlast
    have hlate : last.blockNumber + g.limitBandwidthBlocks < headBlockNumber := by
      have hle := h.head last hmem
      rw [h.row_eq, meter, hlast] at hreset
      have hlate : g.limitBandwidthBlocks < uint32Sub headBlockNumber last.blockNumber :=
        of_decide_eq_true hreset
      rw [uint32Sub] at hlate
      omega
    have hpairwise := h.resets
    rw [hresets] at hearlier hpairwise
    rcases List.mem_cons.1 hearlier with rfl | hearlier
    · exact hlate
    · have hbefore := (List.pairwise_cons.1 hpairwise).1 earlier hearlier
      omega

theorem charge (h : Metered g log row headBlockNumber) (c : BandwidthCharge)
    (hhead : c.blockNumber = headBlockNumber)
    (hreset : c.reset = resetsBandwidth g headBlockNumber row)
    (hlimits : WithinLimits g (Database.nextBandwidth g c.blockNumber c.size c.count row)) :
    Metered g (c :: log) (some (Database.nextBandwidth g c.blockNumber c.size c.count row))
      headBlockNumber := by
  have hmeter : meter (c :: log) =
      some (Database.nextBandwidth g c.blockNumber c.size c.count row) := by
    rw [h.row_eq]
    apply meter_cons
    rw [hreset, hhead, h.row_eq]
  refine ⟨hmeter.symm, ?_, ?_, ?_⟩
  · intro other older hsuffix
    rcases List.suffix_cons_iff.1 hsuffix with hall | holder
    · rw [hall]
      exact ⟨_, hmeter, hlimits⟩
    · exact h.limits other older holder
  · by_cases hc : c.reset = true
    · rw [List.filter_cons_of_pos hc, List.pairwise_cons, hhead]
      exact ⟨h.resets_cons (hreset ▸ hc), h.resets⟩
    · rw [List.filter_cons_of_neg hc]
      exact h.resets
  · intro other hother
    rcases List.mem_cons.1 hother with rfl | hother
    · exact hhead.le
    · exact h.head other hother

end Metered

/-! ## Runs -/

namespace Chronicle

theorem head_numbered (hs₀ : s₀.tallies.headBlockId.num = s₀.tallies.headBlockNumber)
    (h : Chronicle ctx C s₀ past pending s) :
    s.tallies.headBlockId.num = s.tallies.headBlockNumber := by
  induction h with
  | refl => exact hs₀
  | start _ _ ih => exact ih
  | @stage _ s s' stage _ _ _ hrun ih =>
    have hstep := Stage.talliesStep hrun
    by_cases hstage : ∀ b, stage ≠ .updateGlobalDynamicData b
    · obtain ⟨hnumber, hid⟩ := hstep.head_eq hstage
      rw [hnumber, hid, ih]
    · obtain ⟨b, rfl⟩ := not_forall_not.1 hstage
      rw [show s'.tallies = _ from hstep]
      rfl
  | finish _ _ ih => exact ih

/-- A block that is opened builds on the head. -/
theorem builds_on_head {b : SignedBlock} {stages : List Stage}
    (hs₀ : s₀.tallies.headBlockId.num = s₀.tallies.headBlockNumber)
    (h : Chronicle ctx C s₀ past (some stages) s) (hb : .updateGlobalDynamicData b ∈ stages) :
    .openBlock b ∈ stages ∨ s.tallies.headBlockNumber + 1 = b.blockNum := by
  generalize hpending : some stages = pending at h
  induction h generalizing stages with
  | refl => cases hpending
  | start b' _ _ =>
    cases hpending
    rw [stages_eq] at hb ⊢
    simp only [List.mem_cons, List.mem_append, reduceCtorEq, false_or] at hb
    rcases hb with hb | hb | hb
    · exact absurd (inTransaction_of_mem hb) (by simp [Stage.InTransaction])
    · cases hb
      exact .inl List.mem_cons_self
    · simp [SignedBlock.stagesAfterHead, SignedBlock.stagesAfterCommit] at hb
  | @stage past s s' stage rest h _ hrun ih =>
    cases hpending
    have hne : ∀ b', stage ≠ .updateGlobalDynamicData b' := by
      rintro b' rfl
      rw [h.at_head] at hb
      simp [SignedBlock.stagesAfterHead, SignedBlock.stagesAfterCommit] at hb
    have hstep := Stage.talliesStep hrun
    rw [(hstep.head_eq hne).1]
    rcases ih (List.mem_cons_of_mem _ hb) rfl with hopen | hhead
    · rcases List.mem_cons.1 hopen with rfl | hopen
      · right
        rw [← h.head_numbered hs₀, hstep.1]
        rfl
      · exact .inl hopen
    · exact .inr hhead
  | finish _ _ _ => cases hpending

/-- The head never goes back. -/
theorem head_le {stage : Stage} {rest : List Stage}
    (hs₀ : s₀.tallies.headBlockId.num = s₀.tallies.headBlockNumber)
    (h : Chronicle ctx C s₀ past (some (stage :: rest)) s) (hrun : stage.run ctx s = .ok s') :
    s.dgp.headBlockNumber ≤ s'.dgp.headBlockNumber := by
  have hstep := Stage.talliesStep hrun
  by_cases hstage : ∀ b, stage ≠ .updateGlobalDynamicData b
  · exact (hstep.head_eq hstage).1.ge
  · obtain ⟨b, rfl⟩ := not_forall_not.1 hstage
    have hnumber : s'.dgp.headBlockNumber = b.blockNum :=
      congrArg Tallies.headBlockNumber hstep
    rcases h.builds_on_head hs₀ List.mem_cons_self with hopen | hhead
    · rw [h.at_head] at hopen
      simp [SignedBlock.stagesAfterHead, SignedBlock.stagesAfterCommit] at hopen
    · have hhead : s.dgp.headBlockNumber + 1 = b.blockNum := hhead
      omega

/-- In every state of a run the bandwidth objects count what the past charged. -/
theorem metered (hs₀ : s₀.tallies.headBlockId.num = s₀.tallies.headBlockNumber)
    (hempty : s₀.bandwidths = Table.empty) (h : Chronicle ctx C s₀ past pending s)
    (account : AccountName) : Metered ctx.genesis (charges ctx account past)
      (s.bandwidths.find? account) s.dgp.headBlockNumber := by
  induction h with
  | refl =>
    rw [hempty]
    exact .nil
  | start _ _ ih => exact ih
  | @stage past s s' stage _ h _ hrun ih =>
    apply Metered.mono (h.head_le hs₀ hrun)
    by_cases hstage : ∀ trx, stage ≠ .closeTransaction trx
    · have hcharge : Moment.charge ctx account (s, stage) = none := by
        cases stage with
        | closeTransaction trx => exact absurd rfl (hstage trx)
        | _ => rfl
      rw [charges, List.filterMap_cons_none hcharge,
        (Stage.talliesStep hrun).bandwidths_eq hstage]
      exact ih
    · obtain ⟨trx, rfl⟩ := not_forall_not.1 hstage
      have hclose := Database.closeTransaction_bandwidths hrun account
      cases hcharge : Moment.charge ctx account (s, .closeTransaction trx) with
      | none =>
        rw [show bandwidthCharge ctx s trx account = none from hcharge] at hclose
        have hfind : s'.bandwidths.find? account = s.bandwidths.find? account := hclose
        rw [charges, List.filterMap_cons_none hcharge, hfind]
        exact ih
      | some c =>
        rw [show bandwidthCharge ctx s trx account = some c from hcharge] at hclose
        obtain ⟨hlimits, hfind⟩ := hclose
        have hc : c.blockNumber = s.dgp.headBlockNumber ∧ c.reset = resetsBandwidth ctx.genesis
            s.dgp.headBlockNumber (s.bandwidths.find? account) := by
          simp only [Moment.charge, bandwidthCharge] at hcharge
          split at hcharge
          · cases hcharge
            exact ⟨rfl, rfl⟩
          · cases hcharge
        rw [charges, List.filterMap_cons_some hcharge, hfind]
        exact ih.charge c hc.1 hc.2 hlimits
  | finish _ _ ih => exact ih

end Chronicle

/-! ## Limits -/

/-- The operations of a transaction that is opened. -/
def operationStages (trx : Transaction) : List Stage :=
  .openTransaction trx :: trx.operations.map (.operation trx)

/-- `_push_transaction`: what a transaction that throws has written is undone. -/
def Database.pushTransaction (ctx : Context) (s : Database) (trx : Transaction) : Database :=
  match runStages ctx (transactionStages trx) s with
  | .ok s' => s'
  | .error _ => s

/-- The charge of a transaction to some account goes beyond a limit. -/
def ExceedsLimits (ctx : Context) (s : Database) (trx : Transaction) : Prop :=
  ∃ account c, bandwidthCharge ctx s trx account = some c ∧ ¬ WithinLimits ctx.genesis
    (Database.nextBandwidth ctx.genesis c.blockNumber c.size c.count (s.bandwidths.find? account))

/-- Fee-free operations are limited between two resets, resets are far enough apart, transactions
that exceed a limit change no counter, and every other one with a fee-free operation is charged to
some account. -/
structure FeeFreeLimited (ctx : Context) (past : List Moment) (s : Database) : Prop where
  limited : ∀ account newer later first older,
    charges ctx account past = newer ++ later ++ first :: older →
    (∀ c ∈ later, c.reset = false) →
      ((later ++ [first]).map BandwidthCharge.size).sum ≤ ctx.genesis.maxAllowedBandwidth ∧
      ((later ++ [first]).map BandwidthCharge.count).sum ≤ ctx.genesis.maxAllowedOps
  resets : ∀ account, ((charges ctx account past).filter BandwidthCharge.reset).Pairwise
    fun c earlier ↦ earlier.blockNumber + ctx.genesis.limitBandwidthBlocks < c.blockNumber
  refused : ∀ trx s₁, runStages ctx (operationStages trx) s = .ok s₁ → ExceedsLimits ctx s₁ trx →
    ∀ account, (s.pushTransaction ctx trx).bandwidths.find? account = s.bandwidths.find? account
  charged : ∀ s trx, (s, Stage.closeTransaction trx) ∈ past → s.hasHardfork 2 →
    Transaction.feeFreeOperations trx ≠ [] → ∃ account, (bandwidthCharge ctx s trx account).isSome

theorem closeTransaction_of_exceedsLimits (h : ExceedsLimits ctx s trx) :
    ∃ e, s.closeTransaction ctx trx = .error e := by
  obtain ⟨account, c, hcharge, hlimits⟩ := h
  cases hclose : s.closeTransaction ctx trx with
  | error e => exact ⟨e, rfl⟩
  | ok s' =>
    have hwithin := Database.closeTransaction_bandwidths hclose account
    rw [hcharge] at hwithin
    exact absurd hwithin.1 hlimits

/-- What its operations have written is undone with a transaction that exceeds a limit. -/
theorem pushTransaction_of_exceedsLimits {s₁ : Database}
    (hrun : runStages ctx (operationStages trx) s = .ok s₁) (h : ExceedsLimits ctx s₁ trx) :
    s.pushTransaction ctx trx = s := by
  obtain ⟨e, he⟩ := closeTransaction_of_exceedsLimits h
  have hstages : runStages ctx (transactionStages trx) s = .error e := by
    calc runStages ctx (transactionStages trx) s
        = runStages ctx (operationStages trx) s >>= runStages ctx [.closeTransaction trx] :=
          List.foldlM_append
      _ = runStages ctx [.closeTransaction trx] s₁ := by rw [hrun, ok_bind]
      _ = .error e := by
        rw [runStages, List.foldlM_cons, Stage.run, he, error_bind]
  rw [Database.pushTransaction, hstages]

/-- Charges without a reset after the first of them do not add up to more than a limit. -/
theorem Metered.sum_le {row : Option AccountBandwidth} {headBlockNumber : ℕ}
    {newer later older : List BandwidthCharge} {first : BandwidthCharge}
    (h : Metered g (newer ++ later ++ first :: older) row headBlockNumber)
    (hlater : ∀ c ∈ later, c.reset = false) :
    ((later ++ [first]).map BandwidthCharge.size).sum ≤ g.maxAllowedBandwidth ∧
      ((later ++ [first]).map BandwidthCharge.count).sum ≤ g.maxAllowedOps := by
  have hsuffix : later ++ first :: older <:+ newer ++ later ++ first :: older := by
    rw [List.append_assoc]
    exact List.suffix_append _ _
  obtain ⟨abo, hmeter, hlimits⟩ : ∃ abo, meter (later ++ first :: older) = some abo ∧
      WithinLimits g abo := by
    cases later with
    | nil => exact h.limits first older hsuffix
    | cons c later => exact h.limits c _ hsuffix
  obtain ⟨last, _, rfl⟩ := Option.map_eq_some_iff.1 hmeter
  have hprefix : later ++ [first] <+:
      sinceLast BandwidthCharge.reset (later ++ first :: older) := prefix_sinceLast hlater
  obtain ⟨rest, hrest⟩ := hprefix
  have hle : ∀ amount : BandwidthCharge → ℕ, ((later ++ [first]).map amount).sum ≤
      ((sinceLast BandwidthCharge.reset (later ++ first :: older)).map amount).sum := by
    intro amount
    rw [← hrest]
    calc ((later ++ [first]).map amount).sum
        ≤ ((later ++ [first]).map amount).sum + (rest.map amount).sum := Nat.le_add_right _ _
      _ = ((later ++ [first] ++ rest).map amount).sum := by
        rw [← List.sum_append, ← List.map_append]
  exact ⟨(hle _).trans hlimits.bandwidth, (hle _).trans hlimits.opsCount⟩

theorem feeFreeOperations_ne_nil_iff :
    Transaction.feeFreeOperations trx ≠ [] ↔ ∃ op ∈ trx.operations, op.fee.amount = 0 := by
  simp [Transaction.feeFreeOperations, List.filter_eq_nil_iff]

/-- A transaction is charged to somebody when it requires the authority of some account. -/
theorem exists_charge_iff (hfork : s.hasHardfork 2)
    (hfree : Transaction.feeFreeOperations trx ≠ []) :
    (∃ account, (bandwidthCharge ctx s trx account).isSome) ↔
      ∃ op ∈ trx.operations, op.op.requiredActiveAuthorities ≠ [] ∨
        op.op.requiredOwnerAuthorities ≠ [] := by
  have hcharge : ∀ account, (bandwidthCharge ctx s trx account).isSome ↔
      account ∈ Transaction.requiredAccounts trx := by
    intro account
    rw [bandwidthCharge]
    split
    · rename_i h
      exact iff_of_true rfl h.2.2
    · rename_i h
      exact iff_of_false Bool.false_ne_true fun hmem ↦ h ⟨hfork, hfree, hmem⟩
  calc (∃ account, (bandwidthCharge ctx s trx account).isSome)
      ↔ ∃ account, account ∈ Transaction.requiredAccounts trx := exists_congr hcharge
    _ ↔ ∃ account, ∃ op ∈ trx.operations,
        account ∈ op.op.requiredActiveAuthorities ++ op.op.requiredOwnerAuthorities := by
      simp only [Transaction.requiredAccounts, mem_flatSet, List.mem_flatMap]
    _ ↔ ∃ op ∈ trx.operations,
        op.op.requiredActiveAuthorities ++ op.op.requiredOwnerAuthorities ≠ [] := by
      rw [exists_comm]
      simp only [exists_and_left, ne_eq, List.eq_nil_iff_forall_not_mem, not_forall, not_not]
    _ ↔ ∃ op ∈ trx.operations, op.op.requiredActiveAuthorities ≠ [] ∨
        op.op.requiredOwnerAuthorities ≠ [] := by
      simp only [ne_eq, List.append_eq_nil_iff, not_and_or]

theorem initGenesis_tallies (h : initGenesis g = .ok s) :
    s.tallies.headBlockId.num = s.tallies.headBlockNumber ∧ s.bandwidths = Table.empty := by
  simp only [initGenesis, bind_eq_ok, pure_eq_ok] at h
  obtain ⟨_, _, _, _, _, _, rfl⟩ := h
  exact ⟨rfl, rfl⟩

/-- The limits hold in every run, and every transaction is charged if none of them is authorised
by other means alone. -/
theorem fee_free_limited_iff (hgenesis : initGenesis ctx.genesis = .ok s₀)
    (h : Chronicle ctx (fun _ _ ↦ True) s₀ past pending s) :
    FeeFreeLimited ctx past s ↔ ∀ s trx, (s, Stage.closeTransaction trx) ∈ past →
      s.hasHardfork 2 → (∃ op ∈ trx.operations, op.fee.amount = 0) →
      ∃ op ∈ trx.operations, op.op.requiredActiveAuthorities ≠ [] ∨
        op.op.requiredOwnerAuthorities ≠ [] := by
  obtain ⟨hhead, hempty⟩ := initGenesis_tallies hgenesis
  have hmetered := h.metered hhead hempty
  constructor
  · intro hlimited s trx hmem hfork hfree
    have hfree := feeFreeOperations_ne_nil_iff.2 hfree
    exact (exists_charge_iff hfork hfree).1 (hlimited.charged s trx hmem hfork hfree)
  · intro haccountable
    refine ⟨?_, fun account ↦ (hmetered account).resets, ?_, ?_⟩
    · intro account newer later first older hcharges hlater
      have haccount := hmetered account
      rw [hcharges] at haccount
      exact haccount.sum_le hlater
    · intro trx s₁ hrun hexceeds account
      rw [pushTransaction_of_exceedsLimits hrun hexceeds]
    · intro s trx hmem hfork hfree
      have hoperation := haccountable s trx hmem hfork (feeFreeOperations_ne_nil_iff.1 hfree)
      exact (exists_charge_iff hfork hfree).2 hoperation

/-- A network that starts with all hardforks. -/
def forkedGenesis : GenesisState := { devGenesis with genesisTime := 1551182400 }

/-- An account votes without a fee. -/
def feeFreeVote : Transaction :=
  devTransaction 1551182403 8 (.accountWitnessVote 1000 initMinerName true)

/-- Whether a stage, if it ends a transaction, ends one that requires an active authority. -/
def Stage.requiresActive : Stage → Bool
  | .closeTransaction trx => trx.operations.any fun op ↦ !op.op.requiredActiveAuthorities.isEmpty
  | _ => true

theorem fee_free_limited_vote :
    ∃ s₀ past s, Chronicle (devContext forkedGenesis) (fun _ _ ↦ True) s₀ past none s ∧
      (charges (devContext forkedGenesis) 1000 past).length = 1 ∧
      FeeFreeLimited (devContext forkedGenesis) past s := by
  have hok : okAnd (initGenesis forkedGenesis) (fun s₀ ↦
      okAnd (recordBlocks (devContext forkedGenesis)
        (fun s stage ↦ stage.run (devContext forkedGenesis) s)
        [devBlock .null 1551182403 [feeFreeVote]] ([], s₀)) fun recorded ↦
          decide ((charges (devContext forkedGenesis) 1000 recorded.1).length = 1 ∧
            recorded.1.all (fun moment ↦ Stage.requiresActive moment.2) = true)) = true := by
    decide +kernel
  obtain ⟨s₀, hgenesis, hs₀⟩ := exists_of_okAnd hok
  obtain ⟨recorded, hblocks, hs⟩ := exists_of_okAnd hs₀
  obtain ⟨hcharges, hactive⟩ := of_decide_eq_true hs
  have hchronicle : Chronicle (devContext forkedGenesis) (fun _ _ ↦ True) s₀ recorded.1 none
      recorded.2 := Chronicle.recordBlocks (fun _ _ _ hrun ↦ ⟨trivial, hrun⟩) .refl hblocks
  refine ⟨s₀, recorded.1, recorded.2, hchronicle, hcharges, ?_⟩
  apply (fee_free_limited_iff hgenesis hchronicle).2
  intro s trx hmem _ _
  have hrequires := List.all_eq_true.1 hactive _ hmem
  obtain ⟨op, hop, hne⟩ := List.any_eq_true.1 hrequires
  exact ⟨op, hop, .inl (by simpa using hne)⟩

/-- A witness sets its properties, signed by its signing key. -/
def signedProperties : Transaction :=
  devTransaction 1551182403 7
    (.witnessSetProperties initMinerName ⟨some 7, none, none, none, none, none⟩)

/-- Whether a stage ends a given transaction after hardfork 1_2. -/
def Moment.closes (trx : Transaction) (moment : Moment) : Bool :=
  match moment.2 with
  | .closeTransaction trx' => decide (trx' = trx ∧ moment.1.hasHardfork 2)
  | _ => false

/-- Properties that a witness signs with its signing key are charged to nobody. -/
theorem signed_properties_not_charged :
    ∃ s₀ past s, initGenesis forkedGenesis = .ok s₀ ∧
      Chronicle (devContext forkedGenesis) (fun _ _ ↦ True) s₀ past none s ∧
      ¬ FeeFreeLimited (devContext forkedGenesis) past s := by
  have hok : okAnd (initGenesis forkedGenesis) (fun s₀ ↦
      okAnd (recordBlocks (devContext forkedGenesis)
        (fun s stage ↦ stage.run (devContext forkedGenesis) s)
        [devBlock .null 1551182403 [signedProperties]] ([], s₀)) fun recorded ↦
          recorded.1.any (Moment.closes signedProperties)) = true := by decide +kernel
  obtain ⟨s₀, hgenesis, hs₀⟩ := exists_of_okAnd hok
  obtain ⟨recorded, hblocks, hs⟩ := exists_of_okAnd hs₀
  obtain ⟨⟨s, stage⟩, hmem, hcloses⟩ := List.any_eq_true.1 hs
  have hchronicle : Chronicle (devContext forkedGenesis) (fun _ _ ↦ True) s₀ recorded.1 none
      recorded.2 := Chronicle.recordBlocks (fun _ _ _ hrun ↦ ⟨trivial, hrun⟩) .refl hblocks
  refine ⟨s₀, recorded.1, recorded.2, hgenesis, hchronicle, fun hlimited ↦ ?_⟩
  cases stage with
  | closeTransaction trx =>
    obtain ⟨rfl, hfork⟩ := of_decide_eq_true hcloses
    have hfree : Transaction.feeFreeOperations signedProperties ≠ [] := by decide
    have hcharged := hlimited.charged s signedProperties hmem hfork hfree
    revert hcharged
    rw [exists_charge_iff hfork hfree]
    decide
  | _ => cases hcloses

end SophiaTX.Chain
