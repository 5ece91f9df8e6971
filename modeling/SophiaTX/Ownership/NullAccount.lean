import SophiaTX.Chain.AuthoritySteps
import SophiaTX.Ownership.Custody

/-!
# The null account

The authorities of the null account name nobody, and there is no way to put other ones in their
place: an update and a deletion need them, its reset account is the null account itself, and a
recovery needs an entry in the history. In a run in which the transactions in its name are verified
the null account does nothing.
-/

namespace SophiaTX.Chain

open SophiaTX.Protocol SophiaTX.Lib

/-- Nobody can act for the null account. -/
structure NullLocked (s : Database) : Prop where
  authorities : ∃ last,
    s.authorities.find? nullAccount = some ⟨Authority.nobody, Authority.nobody, last⟩
  resetter : ∃ recoverer, s.registry.guardians nullAccount = some (recoverer, nullAccount)
  histories : ∀ hist ∈ s.registry.histories, hist.account ≠ nullAccount

/-- An operation needs an authority of the null account. -/
def Operation.NeedsNull (op : Operation) : Prop :=
  nullAccount ∈ op.requiredActiveAuthorities ∨ nullAccount ∈ op.requiredOwnerAuthorities

instance (op : Operation) : Decidable (Operation.NeedsNull op) :=
  inferInstanceAs (Decidable (_ ∨ _))

/-- Transactions in the name of the null account are verified where they are opened. -/
def NullVerified (ctx : Context) (s : Database) : Stage → Prop
  | .openTransaction trx => (∃ op ∈ trx.operations, Operation.NeedsNull op.op) → s.Verifies ctx trx
  | _ => True

variable {ctx : Context} {s s' s₀ : Database} {past : List Moment} {pending : Option (List Stage)}

/-! ## Signatures -/

theorem Database.not_signed_nobody {trx : Transaction} : ¬ s.Signed ctx trx Authority.nobody := by
  rintro ⟨_, _, hsatisfied⟩
  exact not_satisfied_nobody hsatisfied

/-- A verified transaction does nothing in the name of the null account. -/
theorem NullLocked.not_needsNull (hs : NullLocked s) {trx : Transaction} {op : FeeOperation}
    (h : s.Verifies ctx trx) (hop : op ∈ trx.operations) : ¬ Operation.NeedsNull op.op := by
  obtain ⟨last, hnull⟩ := hs.authorities
  have howner : s.ownerOf nullAccount = some Authority.nobody := by
    rw [Database.ownerOf, hnull, Option.map_some]
  have hactive : s.activeOf nullAccount = Authority.nobody := by
    rw [Database.activeOf, hnull, Option.map_some, Option.getD_some]
  have hnotOwner : ∀ owner, s.ownerOf nullAccount = some owner → ¬ s.Signed ctx trx owner := by
    intro owner hfind
    rw [howner, Option.some.injEq] at hfind
    exact hfind ▸ Database.not_signed_nobody
  rintro (hneeds | hneeds)
  · rcases Database.Verifies.active_signed h hop hneeds with htemp | hsigned |
      ⟨owner, hfind, hsigned⟩
    · exact absurd htemp (by decide)
    · exact Database.not_signed_nobody (hactive ▸ hsigned)
    · exact hnotOwner owner hfind hsigned
  · obtain ⟨owner, hfind, hsigned⟩ := Database.Verifies.owner_signed h hop hneeds
    exact hnotOwner owner hfind hsigned

/-! ## Steps -/

/-- No operation that is accepted writes the authorities of the null account. -/
theorem NullLocked.rekeyed_ne (hs : NullLocked s) {r' : Registry} {op : FeeOperation}
    (hneeds : ¬ Operation.NeedsNull op.op) (h : s.registry.OperationStep ctx.env op.op r') :
    Operation.rekeyed ctx.env op.op ≠ some nullAccount := by
  obtain ⟨last, hnull⟩ := hs.authorities
  obtain ⟨recoverer, hresetter⟩ := hs.resetter
  have howner : s.registry.owner nullAccount = some (Authority.nobody, last) := by
    simp only [Database.registry, hnull, Option.map_some]
  intro hrekeyed
  obtain ⟨op, fee⟩ := op
  cases op with
  | accountCreate _ nameSeed _ _ _ _ =>
    have hname : ctx.env.makeRandomFixedString nameSeed = nullAccount := Option.some.inj hrekeyed
    have hfresh := h.1
    rw [hname, howner] at hfresh
    cases hfresh
  | accountUpdate account owner active _ _ =>
    have hname : account = nullAccount := Option.some.inj hrekeyed
    refine hneeds ?_
    simp only [Operation.NeedsNull, Operation.requiredActiveAuthorities,
      Operation.requiredOwnerAuthorities, hname]
    cases owner <;> cases active <;> simp
  | accountDelete account =>
    have hname : account = nullAccount := Option.some.inj hrekeyed
    refine hneeds (.inr ?_)
    rw [hname]
    exact List.mem_singleton_self _
  | recoverAccount account _ _ =>
    have hname : account = nullAccount := Option.some.inj hrekeyed
    obtain ⟨_, _, _, _, _, _, ⟨hist, hmem, haccount, _⟩, _⟩ := h
    exact hs.histories hist hmem (haccount.trans hname)
  | resetAccount resetter account _ =>
    have hname : account = nullAccount := Option.some.inj hrekeyed
    obtain ⟨_, _, _, _, hguardians, _⟩ := h
    rw [hname, hresetter, Option.some.injEq, Prod.mk.injEq] at hguardians
    refine hneeds (.inl ?_)
    rw [← hguardians.2]
    exact List.mem_singleton_self _
  | _ => cases hrekeyed

/-- A replacement of an owner authority writes the authorities of that account. -/
theorem rekeyed_of_replacesOwner {trx : Transaction} {op : FeeOperation} {name : AccountName}
    (h : ReplacesOwner name (.operation trx op)) :
    Operation.rekeyed ctx.env op.op = some name := by
  obtain ⟨op, fee⟩ := op
  cases op with
  | accountUpdate _ owner _ _ _ => exact congrArg some h.1
  | accountDelete _ | recoverAccount _ _ _ | resetAccount _ _ _ => exact congrArg some h
  | _ => cases h

/-- The authorities of the null account stay where they are. -/
theorem NullLocked.authorities_stage (hs : NullLocked s) {stage : Stage}
    (hneeds : ∀ trx op, stage = .operation trx op → ¬ Operation.NeedsNull op.op)
    (hrun : stage.run ctx s = .ok s') :
    s'.authorities.find? nullAccount = s.authorities.find? nullAccount := by
  have hstep := Stage.registry_step hrun
  cases stage with
  | operation trx op =>
    have hne := hs.rekeyed_ne (hneeds trx op rfl) hstep
    simp only [Stage.run, Database.applyOperation, bind_eq_ok] at hrun
    obtain ⟨s₁, hfee, heval⟩ := hrun
    have hpaid : s₁.authorities = s.authorities :=
      (Database.processOperationFee_commerce hfee).authorities
    cases hname : Operation.rekeyed ctx.env op.op with
    | none => rw [Database.evaluate_authorities heval hname, hpaid]
    | some name =>
      have hother : nullAccount ≠ name := fun hsame ↦ hne (hsame ▸ hname)
      rw [(Database.evaluate_rewritten heval hname).other nullAccount hother, hpaid]
  | _ => rw [Stage.authorities_eq hrun (by simp)]

theorem NullLocked.stage (hs : NullLocked s) {stage : Stage}
    (hneeds : ∀ trx op, stage = .operation trx op → ¬ Operation.NeedsNull op.op)
    (hrun : stage.run ctx s = .ok s') : NullLocked s' := by
  have hstep := Stage.registry_step hrun
  refine ⟨?_, ?_, fun hist hhist ↦ ?_⟩
  · rw [hs.authorities_stage hneeds hrun]
    exact hs.authorities
  · obtain ⟨recoverer, hresetter⟩ := hs.resetter
    obtain ⟨recoverer', resetter', hguardians, hsame | ⟨_, trx, fee, hset⟩, _⟩ :=
      hstep.guardians hresetter
    · exact ⟨recoverer', hsame ▸ hguardians⟩
    · refine absurd (.inr ?_) (hneeds trx _ hset)
      simp only [Operation.requiredOwnerAuthorities]
      rw [if_pos (by decide)]
      exact List.mem_singleton_self _
  · rcases hstep.histories with hsame | ⟨name, old, last, _, hreplaces, hadded⟩ | ⟨_, hsettled⟩
    · exact hs.histories hist (hsame ▸ hhist)
    · rw [hadded, List.mem_append, List.mem_singleton] at hhist
      rcases hhist with hold | rfl
      · exact hs.histories hist hold
      · rintro rfl
        cases stage with
        | operation trx op =>
          exact hs.rekeyed_ne (hneeds trx op rfl) hstep (rekeyed_of_replacesOwner hreplaces)
        | _ => cases hreplaces
    · rw [hsettled] at hhist
      exact hs.histories hist (List.dropWhile_sublist _ |>.subset hhist)

/-! ## Genesis -/

/-- The null account as genesis creates it. -/
def GenesisAccounts.NullCreated (t : GenesisAccounts) : Prop :=
  t.authorities.find? nullAccount = some ⟨Authority.nobody, Authority.nobody, 0⟩ ∧
    ∃ recoverer, (t.accounts.find? nullAccount).map Account.guardians =
      some (recoverer, nullAccount)

theorem GenesisAccounts.NullCreated.create {t t' : GenesisAccounts} {name : AccountName}
    {a : Account} {owner active : Authority} (ht : t.NullCreated)
    (h : t.create name a owner active = .ok t') : t'.NullCreated := by
  simp only [GenesisAccounts.create, bind_eq_ok, createRow_eq_ok, pure_eq_ok] at h
  obtain ⟨_, _, accounts, haccounts, authorities, hauthorities, rfl⟩ := h
  have hne : nullAccount ≠ name := by
    rintro rfl
    have hfresh := (Table.emplace?_eq_some hauthorities).1
    rw [ht.1] at hfresh
    cases hfresh
  refine ⟨?_, ?_⟩
  · rw [Table.find?_emplace? hauthorities, if_neg hne]
    exact ht.1
  · rw [Table.find?_emplace? haccounts, if_neg hne]
    exact ht.2

theorem initGenesis_nullLocked {g : GenesisState} (h : initGenesis g = .ok s) : NullLocked s := by
  simp only [initGenesis, bind_eq_ok, pure_eq_ok] at h
  obtain ⟨_, _, initial, hinitial, _, _, rfl⟩ := h
  simp only [genesisAccounts, genesisAccount, bind_eq_ok, pure_eq_ok] at hinitial
  obtain ⟨t₁, hminer, t₂, hnull, t₃, htemp, _, ⟨_, _, rfl⟩, t₄, hinit, hfold⟩ := hinitial
  have ht₂ : t₂.NullCreated := by
    simp only [GenesisAccounts.create, bind_eq_ok, createRow_eq_ok, pure_eq_ok] at hnull
    obtain ⟨_, _, accounts, haccounts, authorities, hauthorities, rfl⟩ := hnull
    refine ⟨?_, 0, ?_⟩
    · rw [Table.find?_emplace? hauthorities, if_pos rfl]
      rfl
    · rw [Table.find?_emplace? haccounts, if_pos rfl]
      rfl
  have hinitial : initial.NullCreated := by
    refine foldlM_invariant (I := GenesisAccounts.NullCreated) ?_ hfold
      ((ht₂.create htemp).create hinit)
    intro t acc t' _ hround ht
    simp only [GenesisAccounts.createInitial, genesisAccount, bind_eq_ok, pure_eq_ok] at hround
    obtain ⟨_, ⟨_, _, rfl⟩, hcreate⟩ := hround
    exact ht.create hcreate
  exact ⟨⟨0, hinitial.1⟩, hinitial.2, fun hist hhist ↦ absurd hhist List.not_mem_nil⟩

/-! ## Runs -/

/-- Along a run the null account stays locked, and no operation acts for it. -/
theorem Chronicle.nullLocked (hs₀ : NullLocked s₀)
    (h : Chronicle ctx (NullVerified ctx) s₀ past pending s) :
    NullLocked s ∧ (∀ moment ∈ past, NullLocked moment.1) ∧
      ∀ moment ∈ past, ∀ trx op, moment.2 = .operation trx op → ¬ Operation.NeedsNull op.op := by
  induction h with
  | refl => exact ⟨hs₀, by simp, by simp⟩
  | start _ _ ih => exact ih
  | @stage past s s' stage rest h _ hrun ih =>
    obtain ⟨hs, hpast, hquiet⟩ := ih
    have hneeds : ∀ trx op, stage = .operation trx op → ¬ Operation.NeedsNull op.op := by
      rintro trx op rfl hneeds
      obtain ⟨hop, opening, ⟨newer, _, older, hsplit, rfl, _⟩, hverified, _⟩ := h.opened
      have hmem : (opening, Stage.openTransaction trx) ∈ past := by
        rw [hsplit]
        exact List.mem_append_right _ List.mem_cons_self
      exact (hpast _ hmem).not_needsNull (hverified ⟨op, hop, hneeds⟩) hop hneeds
    refine ⟨hs.stage hneeds hrun, ?_, ?_⟩
    · exact List.forall_mem_cons.2 ⟨hs, hpast⟩
    · exact List.forall_mem_cons.2 ⟨hneeds, hquiet⟩
  | finish _ _ ih => exact ih

end SophiaTX.Chain
