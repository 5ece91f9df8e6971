import SophiaTX.Chain.Genesis
import SophiaTX.Ownership.Control

/-!
# Requests and histories in the past of a run

What the registry holds about the control over accounts has its reason in the past. A request
that is still there was made and signed in the past, and has been neither cancelled nor replaced.
An entry of the history was the owner authority until its time. Both are removed in time.
-/

namespace SophiaTX.Chain

open SophiaTX.Protocol SophiaTX.Lib

variable {ctx : Context} {C : Database → Stage → Prop} {s₀ s s' : Database}
  {pending : Option (List Stage)} {past : List Moment} {name : AccountName}

/-! ## Removal in time -/

/-- Recoveries have been processed since the head moved, or it is still to move. -/
def Settled (pending : Option (List Stage)) : Prop :=
  ∀ stages, pending = some stages →
    (∃ b, .updateGlobalDynamicData b ∈ stages) ∨ .accountRecoveryProcessing ∉ stages

theorem Chronicle.settled_of_operation {trx : Transaction} {op : FeeOperation} {rest : List Stage}
    (h : Chronicle ctx C s₀ past (some (.operation trx op :: rest)) s) :
    Settled (some (.operation trx op :: rest)) := by
  rintro stages hstages
  cases hstages
  obtain ⟨b, recent, older, _, hb⟩ := h.recent
  have hmem : .updateGlobalDynamicData b ∈ SignedBlock.stages b := by
    rw [stages_eq]
    simp
  rw [hb, List.mem_append] at hmem
  rcases hmem with hdone | hrest
  · -- Behind the move of the head there are no operations.
    obtain ⟨before, after, hsplit⟩ := List.append_of_mem hdone
    rw [hsplit, List.append_assoc, List.cons_append] at hb
    have hafter := (stages_at_head hb).2
    have hop : .operation trx op ∈ SignedBlock.stagesAfterHead b :=
      hafter ▸ List.mem_append_right after List.mem_cons_self
    exact absurd hop (not_operation_mem_stagesAfterHead b trx op)
  · exact .inl ⟨b, hrest⟩

/-- A bound on the time that the processing of recoveries establishes holds whenever recoveries
are settled. -/
theorem Chronicle.settled_bound {stage : Stage} {rest : List Stage} {bound : Time}
    (h : Chronicle ctx C s₀ past (some (stage :: rest)) s) (hrun : stage.run ctx s = .ok s')
    (hbound : Settled (some (stage :: rest)) → s.registry.time ≤ bound)
    (hprocessing : stage = .accountRecoveryProcessing → s.registry.time ≤ bound)
    (hsettled : Settled (some rest)) : s'.registry.time ≤ bound := by
  have hne : ∀ b, stage ≠ .updateGlobalDynamicData b := by
    rintro b rfl
    rw [h.at_head] at hsettled
    rcases hsettled _ rfl with ⟨b', hb'⟩ | hprocessed
    · simp [SignedBlock.stagesAfterHead, SignedBlock.stagesAfterCommit] at hb'
    · simp [SignedBlock.stagesAfterHead, SignedBlock.stagesAfterCommit] at hprocessed
  rw [(Stage.registry_step hrun).time_eq hne]
  by_cases hstage : stage = .accountRecoveryProcessing
  · exact hprocessing hstage
  · refine hbound fun stages hstages ↦ ?_
    cases hstages
    rcases hsettled _ rfl with ⟨b, hb⟩ | hprocessed
    · exact .inl ⟨b, List.mem_cons_of_mem _ hb⟩
    · rw [List.mem_cons, not_or]
      exact .inr ⟨Ne.symm hstage, hprocessed⟩

/-! ## Signatures -/

/-- A transaction in progress is signed with the owner authority an account had when it was
opened. -/
def OwnerSigned (ctx : Context) (past : List Moment) (trx : Transaction) (name : AccountName)
    (owner : Authority) : Prop :=
  ∃ opening, Opened past trx opening ∧ opening.ownerOf name = some owner ∧
    opening.Signed ctx trx owner

/-- A transaction in progress is signed with the active authority of an account, or with its owner
authority. The temp account needs no signature. -/
def ActiveSigned (ctx : Context) (past : List Moment) (trx : Transaction) (name : AccountName) :
    Prop :=
  ∃ opening, Opened past trx opening ∧ (name = tempAccount ∨
    opening.Signed ctx trx (opening.activeOf name) ∨
    ∃ owner, opening.ownerOf name = some owner ∧ opening.Signed ctx trx owner)

/-- Transactions are accepted by `verify_authority` where they are opened. -/
def Authorised (ctx : Context) (s : Database) : Stage → Prop
  | .openTransaction trx => s.Verifies ctx trx
  | _ => True

/-- The time a request to change a recovery account becomes effective fits 32 bits. -/
def EffectiveInTime (s : Database) : Stage → Prop
  | .operation _ ⟨.changeRecoveryAccount _ _, _⟩ =>
    s.dgp.time + ownerAuthRecoveryPeriod < 4294967296
  | _ => True

/-- What a run has to meet for control over accounts to be kept. -/
def Accepted (ctx : Context) (s : Database) (stage : Stage) : Prop :=
  Authorised ctx s stage ∧ EffectiveInTime s stage

section Signatures

variable {trx : Transaction} {op : FeeOperation} {rest : List Stage}

theorem Chronicle.owner_signed
    (h : Chronicle ctx (Accepted ctx) s₀ past (some (.operation trx op :: rest)) s)
    (hname : name ∈ op.op.requiredOwnerAuthorities) :
    ∃ owner, OwnerSigned ctx past trx name owner := by
  obtain ⟨hop, opening, hopened, ⟨hverifies, _⟩, _⟩ := h.opened
  obtain ⟨owner, howner, hsigned⟩ := Database.Verifies.owner_signed hverifies hop hname
  exact ⟨owner, opening, hopened, howner, hsigned⟩

theorem Chronicle.active_signed
    (h : Chronicle ctx (Accepted ctx) s₀ past (some (.operation trx op :: rest)) s)
    (hname : name ∈ op.op.requiredActiveAuthorities) : ActiveSigned ctx past trx name := by
  obtain ⟨hop, opening, hopened, ⟨hverifies, _⟩, _⟩ := h.opened
  exact ⟨opening, hopened, Database.Verifies.active_signed hverifies hop hname⟩

end Signatures

theorem ownerOf_eq (s : Database) (name : AccountName) :
    s.ownerOf name = (s.registry.owner name).map Prod.fst := by
  simp only [Database.ownerOf, Database.registry, Option.map_map]
  rfl

/-- Within a transaction the owner authority of an account is the one it was opened with, or one
that was set just now. -/
theorem Chronicle.owner_since_opening {trx : Transaction} {opening : Database}
    (h : Chronicle ctx C s₀ past pending s) (hopened : Opened past trx opening) :
    s.registry.time = opening.registry.time ∧
      ∀ name prev, opening.registry.owner name = some prev → s.registry.owner name = some prev ∨
        ∃ auth, s.registry.owner name = some (auth, s.registry.time) := by
  induction h with
  | refl => exact absurd hopened not_since_nil
  | start _ _ ih => exact ih hopened
  | finish _ _ ih => exact ih hopened
  | @stage past s s' stage rest h _ hrun ih =>
    have hstep := Stage.registry_step hrun
    rcases since_cons.1 hopened with hnow | ⟨⟨op, hop⟩, hbefore⟩
    · cases hnow
      refine ⟨hstep.time_eq (by simp), fun name prev hprev ↦ .inl ?_⟩
      exact (congrFun (hstep.control_eq (by simp) (by simp)).1 name).trans hprev
    · obtain rfl : stage = .operation trx op := hop
      obtain ⟨htime, howner⟩ := ih hbefore
      have htime' : s'.registry.time = s.registry.time := hstep.time_eq (by simp)
      refine ⟨htime'.trans htime, fun name prev hprev ↦ ?_⟩
      rw [htime']
      rcases howner name prev hprev with hsame | ⟨auth, hset⟩
      · rcases hstep.owner hsame with hsame | ⟨new, hnew, _⟩
        · exact .inl hsame
        · exact .inr ⟨new, hnew⟩
      · rcases hstep.owner hset with hset | ⟨new, hnew, _⟩
        · exact .inr ⟨auth, hset⟩
        · exact .inr ⟨new, hnew⟩

/-! ## Names -/

/-- No account has the empty name, and none has it for a reset account. -/
def Named (guardians : AccountName → Option (AccountName × AccountName)) : Prop :=
  guardians 0 = none ∧ ∀ name recoverer resetter,
    guardians name = some (recoverer, resetter) → resetter ≠ 0

theorem Named.create {t t' : GenesisAccounts} {a : Account} {owner active : Authority}
    (ht : Named fun name ↦ (t.accounts.find? name).map Account.guardians) (hname : name ≠ 0)
    (ha : a.resetAccount ≠ 0) (h : t.create name a owner active = .ok t') :
    Named fun name ↦ (t'.accounts.find? name).map Account.guardians := by
  simp only [GenesisAccounts.create, bind_eq_ok, createRow_eq_ok, pure_eq_ok] at h
  obtain ⟨_, _, accounts, haccounts, _, _, rfl⟩ := h
  refine ⟨?_, fun other recoverer resetter hother ↦ ?_⟩
  · dsimp only
    rw [Table.find?_emplace? haccounts, if_neg hname.symm]
    exact ht.1
  · dsimp only at hother
    rw [Table.find?_emplace? haccounts] at hother
    split_ifs at hother
    · simp only [Option.map_some, Account.guardians, Option.some.injEq, Prod.mk.injEq] at hother
      exact hother.2 ▸ ha
    · exact ht.2 other recoverer resetter hother

theorem initGenesis_named {g : GenesisState} (hnames : ∀ acc ∈ g.initialAccounts, acc.name ≠ 0)
    (h : initGenesis g = .ok s) : Named s.registry.guardians := by
  simp only [initGenesis, bind_eq_ok, pure_eq_ok] at h
  obtain ⟨_, _, initial, hinitial, _, _, rfl⟩ := h
  simp only [genesisAccounts, genesisAccount, bind_eq_ok, pure_eq_ok] at hinitial
  obtain ⟨t₁, hminer, t₂, hnull, t₃, htemp, _, ⟨_, _, rfl⟩, t₄, hinit, hfold⟩ := hinitial
  have hempty : Named fun name ↦ ((Table.empty : Table AccountName Account).find? name).map
      Account.guardians := ⟨rfl, fun _ _ _ hrow ↦ by cases hrow⟩
  have hnullAccount : nullAccount ≠ 0 := by decide
  have hinitMiner : initMinerName ≠ 0 := by decide
  have ht₁ := hempty.create (by decide) hnullAccount hminer
  have ht₂ := ht₁.create hnullAccount hnullAccount hnull
  have ht₃ := ht₂.create (by decide) hnullAccount htemp
  have ht₄ := ht₃.create hinitMiner hnullAccount hinit
  refine foldlM_invariant (I := fun t : GenesisAccounts ↦
    Named fun name ↦ (t.accounts.find? name).map Account.guardians) ?_ hfold ht₄
  intro t acc t' hacc hround ht
  simp only [GenesisAccounts.createInitial, genesisAccount, bind_eq_ok, pure_eq_ok] at hround
  obtain ⟨_, ⟨_, _, rfl⟩, hcreate⟩ := hround
  exact ht.create (hnames acc hacc) hinitMiner hcreate

theorem Named.step {r r' : Registry} {stage : Stage}
    (henv : ∀ nameSeed, ctx.env.makeRandomFixedString nameSeed ≠ 0) (hr : Named r.guardians)
    (h : r.Step ctx stage r') : Named r'.guardians := by
  refine ⟨?_, fun name recoverer resetter hname ↦ ?_⟩
  · rcases h.guardians_none hr.1 with hnone | ⟨nameSeed, _, hseed, _⟩
    · exact hnone
    · exact absurd hseed.symm (henv nameSeed)
  · cases hbefore : r.guardians name with
    | none =>
      rcases h.guardians_none hbefore with hnone | ⟨_, recoverer', _, hcreated⟩
      · rw [hnone] at hname
        cases hname
      · rw [hcreated, Option.some.injEq, Prod.mk.injEq] at hname
        rw [← hname.2]
        decide
    | some guardians =>
      obtain ⟨recoverer', resetter', hafter, hresetter, _⟩ := h.guardians hbefore
      rw [hafter, Option.some.injEq, Prod.mk.injEq] at hname
      obtain ⟨rfl, rfl⟩ := hname
      rcases hresetter with rfl | ⟨hexists, _⟩
      · exact hr.2 name guardians.1 guardians.2 hbefore
      · rintro rfl
        rw [hr.1] at hexists
        cases hexists

theorem Chronicle.named (henv : ∀ nameSeed, ctx.env.makeRandomFixedString nameSeed ≠ 0)
    (hs₀ : Named s₀.registry.guardians) (h : Chronicle ctx C s₀ past pending s) :
    Named s.registry.guardians := by
  induction h with
  | refl => exact hs₀
  | start _ _ ih => exact ih
  | stage _ _ hrun ih => exact ih.step henv (Stage.registry_step hrun)
  | finish _ _ ih => exact ih

/-! ## Requests -/

/-- Who may request the recovery of an account: its recovery account, or the top witness for an
account without one. -/
def Database.RecoveryPartner (s : Database) (name partner : AccountName) : Prop :=
  ∃ a, s.accounts.find? name = some a ∧
    if a.recoveryAccount ≠ 0 then a.recoveryAccount = partner
    else s.witnessesByVote.head?.map Prod.fst = some partner

/-- A moment at which the recovery partner of an account, as it is after the fee, requests a new
owner authority for it. -/
def RequestMade (ctx : Context) (name : AccountName) (new : Authority) (moment : Moment)
    (older : List Moment) : Prop :=
  ∃ trx partner fee s₁,
    moment.2 = .operation trx ⟨.requestAccountRecovery partner name new, fee⟩ ∧
    ActiveSigned ctx older trx partner ∧
    moment.1.processOperationFee ctx.genesis ⟨.requestAccountRecovery partner name new, fee⟩ =
      .ok s₁ ∧ s₁.RecoveryPartner name partner

theorem Chronicle.request_made {trx : Transaction} {partner : AccountName} {new : Authority}
    {fee : Asset} {rest : List Stage}
    (h : Chronicle ctx (Accepted ctx) s₀ past
      (some (.operation trx ⟨.requestAccountRecovery partner name new, fee⟩ :: rest)) s)
    (hrun : Stage.run ctx s (.operation trx ⟨.requestAccountRecovery partner name new, fee⟩) =
      .ok s') :
    RequestMade ctx name new
      (s, .operation trx ⟨.requestAccountRecovery partner name new, fee⟩) past := by
  simp only [Stage.run, Database.applyOperation, bind_eq_ok] at hrun
  obtain ⟨s₁, hfee, heval⟩ := hrun
  refine ⟨trx, partner, fee, s₁, rfl, h.active_signed ?_, hfee, ?_⟩
  · simp [Operation.requiredActiveAuthorities, Operation.feePayer]
  · simp only [Database.evaluate, Database.requestAccountRecoveryEvaluator, Database.getAccount,
      Database.assertRecoveryAccount, bind_eq_ok, orUnknownKey_eq_ok] at heval
    obtain ⟨a, ha, _, hpartner, _⟩ := heval
    refine ⟨a, ha, ?_⟩
    split_ifs at hpartner ⊢ with hrecovery
    · exact fcAssert_eq_ok.1 hpartner
    · exact fcAssert_eq_ok.1 hpartner

/-- A request in the registry was made in the past and stands, and is removed after a day. -/
theorem Chronicle.request_standing {request : AccountRecoveryRequest}
    (hs₀ : s₀.registry.requests name = none)
    (h : Chronicle ctx (Accepted ctx) s₀ past pending s)
    (hrequest : s.registry.requests name = some request) :
    Since (fun moment older ↦ RequestMade ctx name request.newOwnerAuthority moment older ∧
        request.expires =
          timeAdd moment.1.registry.time accountRecoveryRequestExpirationPeriod ∧
        (Settled pending → s.registry.time ≤
          moment.1.registry.time + accountRecoveryRequestExpirationPeriod))
      (fun later ↦ ¬ RequestsRecovery name later.2) past := by
  induction h with
  | refl =>
    rw [hs₀] at hrequest
    cases hrequest
  | start b h ih =>
    refine (ih hrequest).mono fun moment older _ ⟨hmade, hexpires, hbound⟩ ↦
      ⟨hmade, hexpires, fun _ ↦ hbound fun _ hnone ↦ by cases hnone⟩
  | finish h _ ih =>
    refine (ih hrequest).mono fun moment older _ ⟨hmade, hexpires, hbound⟩ ↦
      ⟨hmade, hexpires, fun _ ↦ hbound fun stages hstages ↦ ?_⟩
    cases hstages
    exact .inr List.not_mem_nil
  | @stage past s s' stage rest h hC hrun ih =>
    rcases (Stage.registry_step hrun).requests hrequest with
      ⟨hbefore, hstands, hprocessing⟩ | ⟨trx, partner, fee, rfl, hexpires⟩
    · refine Since.step hstands ((ih hbefore).mono fun moment older _ ⟨hmade, hexpires, hbound⟩ ↦
        ⟨hmade, hexpires, fun hsettled ↦ h.settled_bound hrun hbound (fun hstage ↦ ?_) hsettled⟩)
      -- What is kept has not expired.
      have hlater := hprocessing hstage
      rw [hexpires] at hlater
      exact hlater.le.trans (Nat.mod_le _ _)
    · refine Since.now ⟨h.request_made hrun, hexpires, fun _ ↦ ?_⟩
      rw [(Stage.registry_step hrun).time_eq (by simp)]
      exact Nat.le_add_right _ _

/-- A moment at which the owner of an account requests another recovery account. -/
def ChangeMade (ctx : Context) (name recoverer : AccountName) (moment : Moment)
    (older : List Moment) : Prop :=
  ∃ trx fee owner, moment.2 = .operation trx ⟨.changeRecoveryAccount name recoverer, fee⟩ ∧
    OwnerSigned ctx older trx name owner

theorem Chronicle.change_standing {change : ChangeRecoveryAccountRequest}
    (hs₀ : s₀.registry.changes name = none)
    (h : Chronicle ctx (Accepted ctx) s₀ past pending s)
    (hchange : s.registry.changes name = some change) :
    Since (fun moment older ↦ ChangeMade ctx name change.recoveryAccount moment older ∧
        change.effectiveOn = moment.1.registry.time + ownerAuthRecoveryPeriod)
      (fun later ↦ ¬ ChangesRecovery name later.2) past := by
  induction h with
  | refl =>
    rw [hs₀] at hchange
    cases hchange
  | start _ _ ih => exact ih hchange
  | finish _ _ ih => exact ih hchange
  | @stage past s s' stage rest h hC hrun ih =>
    rcases (Stage.registry_step hrun).changes hchange with
      ⟨hbefore, hstands⟩ | ⟨trx, fee, rfl, heffective⟩
    · exact Since.step hstands (ih hbefore)
    · have hrequired : name ∈
          (Operation.changeRecoveryAccount name change.recoveryAccount).requiredOwnerAuthorities :=
        List.mem_singleton.2 rfl
      obtain ⟨owner, hsigned⟩ := h.owner_signed hrequired
      refine Since.now ⟨⟨trx, fee, owner, rfl, hsigned⟩, heffective.trans ?_⟩
      exact Nat.mod_eq_of_lt hC.2

/-! ## Histories -/

theorem mem_settle_histories {r : Registry} {hist : OwnerAuthorityHistory}
    (h : hist ∈ r.settle.histories) : hist ∈ r.histories :=
  (List.dropWhile_suffix _).mem h

/-- An entry of the history was the owner authority of its account until its time. -/
theorem Chronicle.history_genuine {hist : OwnerAuthorityHistory}
    (hs₀ : s₀.registry.histories = []) (h : Chronicle ctx C s₀ past pending s)
    (hhist : hist ∈ s.registry.histories) :
    ∃ moment ∈ past, ReplacesOwner hist.account moment.2 ∧
      moment.1.ownerOf hist.account = some hist.previousOwnerAuthority ∧
      moment.1.registry.time = hist.lastValidTime := by
  have hearlier : ∀ {past : List Moment} {first : Moment}, (∃ moment ∈ past,
      ReplacesOwner hist.account moment.2 ∧
      moment.1.ownerOf hist.account = some hist.previousOwnerAuthority ∧
      moment.1.registry.time = hist.lastValidTime) → ∃ moment ∈ first :: past,
      ReplacesOwner hist.account moment.2 ∧
      moment.1.ownerOf hist.account = some hist.previousOwnerAuthority ∧
      moment.1.registry.time = hist.lastValidTime :=
    fun ⟨moment, hmem, hmoment⟩ ↦ ⟨moment, List.mem_cons_of_mem _ hmem, hmoment⟩
  induction h with
  | refl =>
    rw [hs₀] at hhist
    cases hhist
  | start _ _ ih => exact ih hhist
  | finish _ _ ih => exact ih hhist
  | @stage past s s' stage rest h _ hrun ih =>
    rcases (Stage.registry_step hrun).histories with
      hsame | ⟨name, old, last, howner, hreplaces, happend⟩ | ⟨_, hsettle⟩
    · exact hearlier (ih (hsame ▸ hhist))
    · rw [happend, List.mem_append, List.mem_singleton] at hhist
      rcases hhist with hhist | rfl
      · exact hearlier (ih hhist)
      · refine ⟨(s, stage), List.mem_cons_self, hreplaces, ?_, rfl⟩
        rw [ownerOf_eq, howner, Option.map_some]
    · exact hearlier (ih (mem_settle_histories (hsettle ▸ hhist)))

theorem Chronicle.histories_sorted (hs₀ : s₀.registry.histories = [])
    (h : Chronicle ctx C s₀ past pending s) :
    s.registry.histories.Pairwise fun a b ↦ a.lastValidTime ≤ b.lastValidTime := by
  induction h with
  | refl =>
    rw [hs₀]
    exact .nil
  | start _ _ ih => exact ih
  | finish _ _ ih => exact ih
  | @stage past s s' stage rest h _ hrun ih =>
    rcases (Stage.registry_step hrun).histories with
      hsame | ⟨name, old, last, _, _, happend⟩ | ⟨_, hsettle⟩
    · exact hsame ▸ ih
    · rw [happend, List.pairwise_append]
      refine ⟨ih, List.pairwise_singleton _ _, fun a ha b hb ↦ ?_⟩
      obtain ⟨moment, hmem, _, _, htime⟩ := h.history_genuine hs₀ ha
      rw [List.mem_singleton.1 hb, ← htime]
      exact h.time_le hmem
    · rw [hsettle]
      exact ih.sublist (List.dropWhile_sublist _)

/-- What the processing of recoveries keeps of a sorted history is not older than a month. -/
theorem settle_histories_recent {r : Registry} {hist : OwnerAuthorityHistory}
    (hsorted : r.histories.Pairwise fun a b ↦ a.lastValidTime ≤ b.lastValidTime)
    (hhist : hist ∈ r.settle.histories) :
    r.time ≤ hist.lastValidTime + ownerAuthRecoveryPeriod := by
  have hkept : r.settle.histories.Pairwise fun a b ↦ a.lastValidTime ≤ b.lastValidTime :=
    hsorted.sublist (List.dropWhile_sublist _)
  have hhead : ∀ h, ¬ timeAdd (r.settle.histories.head h).lastValidTime ownerAuthRecoveryPeriod <
      r.time := fun h ↦ of_decide_eq_false
    (List.head_dropWhile_not (fun hist : OwnerAuthorityHistory ↦
      decide (timeAdd hist.lastValidTime ownerAuthRecoveryPeriod < r.time)) h)
  cases hlist : r.settle.histories with
  | nil =>
    rw [hlist] at hhist
    cases hhist
  | cons oldest newer =>
    simp only [hlist] at hhist hkept hhead
    have holdest : r.time ≤ timeAdd oldest.lastValidTime ownerAuthRecoveryPeriod :=
      not_lt.1 (hhead (List.cons_ne_nil _ _))
    have hle : oldest.lastValidTime ≤ hist.lastValidTime := by
      rcases List.mem_cons.1 hhist with rfl | hnewer
      · exact le_rfl
      · exact List.rel_of_pairwise_cons hkept hnewer
    calc r.time ≤ timeAdd oldest.lastValidTime ownerAuthRecoveryPeriod := holdest
      _ ≤ oldest.lastValidTime + ownerAuthRecoveryPeriod := Nat.mod_le _ _
      _ ≤ hist.lastValidTime + ownerAuthRecoveryPeriod := Nat.add_le_add_right hle _

theorem Chronicle.history_recent {hist : OwnerAuthorityHistory}
    (hs₀ : s₀.registry.histories = []) (h : Chronicle ctx C s₀ past pending s)
    (hsettled : Settled pending) (hhist : hist ∈ s.registry.histories) :
    s.registry.time ≤ hist.lastValidTime + ownerAuthRecoveryPeriod := by
  induction h with
  | refl =>
    rw [hs₀] at hhist
    cases hhist
  | start _ _ ih => exact ih (fun _ hnone ↦ by cases hnone) hhist
  | finish _ _ ih =>
    refine ih (fun stages hstages ↦ ?_) hhist
    cases hstages
    exact .inr List.not_mem_nil
  | @stage past s s' stage rest h _ hrun ih =>
    have hold : hist ∈ s.registry.histories →
        s'.registry.time ≤ hist.lastValidTime + ownerAuthRecoveryPeriod := by
      refine fun hmem ↦ h.settled_bound hrun (fun hbefore ↦ ih hbefore hmem) (fun hstage ↦ ?_)
        hsettled
      subst hstage
      have hstep : s'.registry = s.registry.settle := Stage.registry_step hrun
      exact settle_histories_recent (h.histories_sorted hs₀) (hstep ▸ hhist)
    rcases (Stage.registry_step hrun).histories with
      hsame | ⟨name, old, last, _, hreplaces, happend⟩ | ⟨rfl, hsettle⟩
    · exact hold (hsame ▸ hhist)
    · rw [happend, List.mem_append, List.mem_singleton] at hhist
      rcases hhist with hhist | rfl
      · exact hold hhist
      · have hne : ∀ b, stage ≠ .updateGlobalDynamicData b := by
          rintro b rfl
          exact hreplaces
        rw [(Stage.registry_step hrun).time_eq hne]
        exact Nat.le_add_right _ _
    · exact hold (mem_settle_histories (hsettle ▸ hhist))

end SophiaTX.Chain
