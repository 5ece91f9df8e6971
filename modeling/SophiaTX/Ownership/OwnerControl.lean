import SophiaTX.Ownership.Custody
import SophiaTX.Ownership.Debits

/-!
# Owner control

Along every run the owner authority of an account is replaced by its owner, by its reset account or
by a recovery, the reset account is changed by the owner, and the recovery account changes a month
after the owner has requested that.
-/

namespace SophiaTX.Chain

open SophiaTX.Protocol SophiaTX.Lib

/-- The operations that may replace an owner authority, with what authorises them. -/
inductive MayReplaceOwner (ctx : Context) (past : List Moment) (s : Database) (name : AccountName)
    (old : Authority) : Stage → Prop
  | update {trx : Transaction} {new : Authority} {active : Option Authority} {memoKey : PublicKey}
      {jsonMetadata : Bytes} {fee : Asset} (hsigned : OwnerSigned ctx past trx name old) :
      MayReplaceOwner ctx past s name old
        (.operation trx ⟨.accountUpdate name (some new) active memoKey jsonMetadata, fee⟩)
  | delete {trx : Transaction} {fee : Asset} (hsigned : OwnerSigned ctx past trx name old) :
      MayReplaceOwner ctx past s name old (.operation trx ⟨.accountDelete name, fee⟩)
  | reset {trx : Transaction} {resetter : AccountName} {new : Authority} {fee : Asset} {a : Account}
      (hfind : s.accounts.find? name = some a) (hstored : a.resetAccount = resetter)
      (hsigned : ActiveSigned ctx past trx resetter) :
      MayReplaceOwner ctx past s name old (.operation trx ⟨.resetAccount resetter name new, fee⟩)
  | recover {trx : Transaction} {new recent : Authority} {fee : Asset}
      (hrequest : Since (fun moment older ↦ RequestMade ctx name new moment older ∧
          s.dgp.time ≤ moment.1.dgp.time + accountRecoveryRequestExpirationPeriod)
        (fun later ↦ ¬ RequestsRecovery name later.2) past)
      (hrecent : ∃ moment ∈ past, ReplacesOwner name moment.2 ∧
        moment.1.ownerOf name = some recent ∧
        s.dgp.time ≤ moment.1.dgp.time + ownerAuthRecoveryPeriod) :
      MayReplaceOwner ctx past s name old (.operation trx ⟨.recoverAccount name new recent, fee⟩)

/-- What a stage may do to the control over an account. -/
structure ControlKept (ctx : Context) (past : List Moment) (s : Database) (stage : Stage)
    (s' : Database) (name : AccountName) : Prop where
  owner : ∀ old, s.ownerOf name = some old → s'.ownerOf name ≠ some old →
    MayReplaceOwner ctx past s name old stage ∧ ⟨name, old, s.dgp.time⟩ ∈ s'.ownerHistories
  resetAccount : ∀ a a', s.accounts.find? name = some a → s'.accounts.find? name = some a' →
    a'.resetAccount ≠ a.resetAccount → ∃ trx fee owner,
      stage = .operation trx ⟨.setResetAccount name a.resetAccount a'.resetAccount, fee⟩ ∧
        OwnerSigned ctx past trx name owner
  recoveryAccount : ∀ a a', s.accounts.find? name = some a → s'.accounts.find? name = some a' →
    a'.recoveryAccount ≠ a.recoveryAccount → stage = .accountRecoveryProcessing ∧
      Since (fun moment older ↦ ChangeMade ctx name a'.recoveryAccount moment older ∧
          moment.1.dgp.time + ownerAuthRecoveryPeriod ≤ s.dgp.time)
        (fun later ↦ ¬ ChangesRecovery name later.2) past

variable {ctx : Context} {s₀ s s' : Database} {stage : Stage} {rest : List Stage}
  {past : List Moment} {name : AccountName}

/-! ## Who replaces an owner authority -/

/-- A request that must not follow another replacement too soon is signed with the owner authority
that is replaced. -/
theorem Chronicle.current_owner_signed {trx : Transaction} {op : FeeOperation} {old : Authority}
    {last : Time}
    (h : Chronicle ctx (Accepted ctx) s₀ past (some (.operation trx op :: rest)) s)
    (hname : name ∈ op.op.requiredOwnerAuthorities)
    (howner : s.registry.owner name = some (old, last))
    (hlimit : last + ownerUpdateLimit < s.registry.time) : OwnerSigned ctx past trx name old := by
  obtain ⟨owner, opening, hopened, hopening, hsigned⟩ := h.owner_signed hname
  obtain ⟨_, hsince⟩ := h.owner_since_opening hopened
  rw [ownerOf_eq] at hopening
  obtain ⟨⟨_, time⟩, hbefore, rfl⟩ := Option.map_eq_some_iff.1 hopening
  rcases hsince name _ hbefore with hsame | ⟨auth, hset⟩
  · rw [howner, Option.some.injEq] at hsame
    cases hsame
    exact ⟨opening, hopened, (ownerOf_eq _ _).trans hopening, hsigned⟩
  · -- An authority that was set just now is not replaced again.
    rw [howner, Option.some.injEq, Prod.mk.injEq] at hset
    rw [hset.2] at hlimit
    exact absurd hlimit (not_lt.2 (Nat.le_add_right _ _))

theorem Chronicle.mayReplaceOwner {old : Authority} (hrequests : s₀.registry.requests name = none)
    (hhistories : s₀.registry.histories = [])
    (h : Chronicle ctx (Accepted ctx) s₀ past (some (stage :: rest)) s)
    (hrun : stage.run ctx s = .ok s') (howner : s.ownerOf name = some old)
    (hreplaces : ReplacesOwner name stage) : MayReplaceOwner ctx past s name old stage := by
  have hstep := Stage.registry_step hrun
  rw [ownerOf_eq] at howner
  obtain ⟨⟨_, last⟩, hrow, rfl⟩ := Option.map_eq_some_iff.1 howner
  cases stage with
  | operation trx op =>
    obtain ⟨op, fee⟩ := op
    cases op with
    | accountUpdate account new active memoKey jsonMetadata =>
      obtain ⟨rfl, hnew⟩ := hreplaces
      obtain ⟨new, rfl⟩ := Option.isSome_iff_exists.1 hnew
      obtain ⟨old', last', howner', hlimit, _⟩ := hstep
      rw [hrow, Option.some.injEq, Prod.mk.injEq] at howner'
      obtain ⟨rfl, rfl⟩ := howner'
      exact .update (h.current_owner_signed (List.mem_singleton.2 rfl) hrow hlimit)
    | accountDelete account =>
      obtain rfl : account = name := hreplaces
      obtain ⟨old', last', howner', hlimit, _⟩ := hstep
      rw [hrow, Option.some.injEq, Prod.mk.injEq] at howner'
      obtain ⟨rfl, rfl⟩ := howner'
      exact .delete (h.current_owner_signed (List.mem_singleton.2 rfl) hrow hlimit)
    | resetAccount resetter account new =>
      obtain rfl : account = name := hreplaces
      obtain ⟨_, _, recoverer, _, hguardians, _⟩ := hstep
      obtain ⟨a, ha, hstored⟩ := Option.map_eq_some_iff.1 hguardians
      refine .reset ha (congrArg Prod.snd hstored) (h.active_signed ?_)
      simp [Operation.requiredActiveAuthorities, Operation.feePayer]
    | recoverAccount account new recent =>
      obtain rfl : account = name := hreplaces
      obtain ⟨_, _, request, _, hrequest, rfl, ⟨hist, hhist, rfl, rfl⟩, _⟩ := hstep
      have hsettled := h.settled_of_operation
      refine .recover ((h.request_standing hrequests hrequest).mono
        fun moment older _ hstands ↦ ⟨hstands.1, hstands.2.2 hsettled⟩) ?_
      obtain ⟨moment, hmem, hmoment, hprevious, htime⟩ := h.history_genuine hhistories hhist
      refine ⟨moment, hmem, hmoment, hprevious, ?_⟩
      calc s.registry.time ≤ hist.lastValidTime + ownerAuthRecoveryPeriod :=
            h.history_recent hhistories hsettled hhist
        _ = moment.1.registry.time + ownerAuthRecoveryPeriod := by rw [htime]
    | _ => exact hreplaces.elim
  | _ => exact hreplaces.elim

/-! ## Control along a run -/

theorem guardians_eq {a : Account} (ha : s.accounts.find? name = some a) :
    s.registry.guardians name = some (a.recoveryAccount, a.resetAccount) := by
  simp only [Database.registry, ha, Option.map_some, Account.guardians]

/-- A recovery account that has become due was requested by the owner a month ago. -/
theorem Chronicle.due_requested {recoverer : AccountName} {pending : Option (List Stage)}
    (hchanges : s₀.registry.changes name = none)
    (h : Chronicle ctx (Accepted ctx) s₀ past pending s)
    (hdue : s.registry.due name = some recoverer) :
    Since (fun moment older ↦ ChangeMade ctx name recoverer moment older ∧
        moment.1.dgp.time + ownerAuthRecoveryPeriod ≤ s.dgp.time)
      (fun later ↦ ¬ ChangesRecovery name later.2) past := by
  simp only [Registry.due] at hdue
  split at hdue
  · rename_i change hchange
    split_ifs at hdue with heffective
    cases hdue
    refine (h.change_standing hchanges hchange).mono fun moment older _ hstands ↦ ⟨hstands.1, ?_⟩
    calc moment.1.registry.time + ownerAuthRecoveryPeriod = change.effectiveOn := hstands.2.symm
      _ ≤ s.registry.time := heffective
  · cases hdue

theorem owner_control (hnames : ∀ acc ∈ ctx.genesis.initialAccounts, acc.name ≠ 0)
    (henv : ∀ nameSeed, ctx.env.makeRandomFixedString nameSeed ≠ 0)
    (hgenesis : initGenesis ctx.genesis = .ok s₀)
    (h : Chronicle ctx (Accepted ctx) s₀ past (some (stage :: rest)) s)
    (hrun : stage.run ctx s = .ok s') (name : AccountName) :
    ControlKept ctx past s stage s' name := by
  have hempty : s₀.registry.requests name = none ∧ s₀.registry.changes name = none ∧
      s₀.registry.histories = [] := by
    simp only [initGenesis, bind_eq_ok, pure_eq_ok] at hgenesis
    obtain ⟨_, _, initial, _, _, _, rfl⟩ := hgenesis
    exact ⟨rfl, rfl, rfl⟩
  obtain ⟨hrequests, hchanges, hhistories⟩ := hempty
  have hnamed := h.named henv (initGenesis_named hnames hgenesis)
  have hstep := Stage.registry_step hrun
  refine ⟨fun old hold hchanged ↦ ?_, fun a a' ha ha' hne ↦ ?_, fun a a' ha ha' hne ↦ ?_⟩
  · have hbefore := hold
    rw [ownerOf_eq] at hbefore hchanged
    obtain ⟨⟨_, last⟩, hrow, rfl⟩ := Option.map_eq_some_iff.1 hbefore
    rcases hstep.owner hrow with hsame | ⟨new, _, hreplaces, hhist⟩
    · exact absurd (by rw [hsame, Option.map_some]) hchanged
    · refine ⟨h.mayReplaceOwner hrequests hhistories hrun hold hreplaces, ?_⟩
      have hlast : (⟨name, _, s.registry.time⟩ : OwnerAuthorityHistory) ∈ s'.registry.histories :=
        hhist ▸ List.mem_append_right _ (List.mem_singleton.2 rfl)
      exact hlast
  · obtain ⟨_, _, hafter, hresetter, _⟩ := hstep.guardians (guardians_eq ha)
    rw [guardians_eq ha', Option.some.injEq, Prod.mk.injEq] at hafter
    obtain ⟨rfl, rfl⟩ := hafter
    obtain ⟨_, trx, fee, rfl⟩ := hresetter.resolve_left hne
    -- A stored reset account is not empty, so the owner authority is required.
    have hcurrent : a.resetAccount ≠ 0 := hnamed.2 name _ _ (guardians_eq ha)
    have hrequired : name ∈
        (Operation.setResetAccount name a.resetAccount
          a'.resetAccount).requiredOwnerAuthorities := by
      simp [Operation.requiredOwnerAuthorities, hcurrent]
    obtain ⟨owner, hsigned⟩ := h.owner_signed hrequired
    exact ⟨trx, fee, owner, rfl, hsigned⟩
  · obtain ⟨_, _, hafter, _, hrecoverer⟩ := hstep.guardians (guardians_eq ha)
    rw [guardians_eq ha', Option.some.injEq, Prod.mk.injEq] at hafter
    obtain ⟨rfl, rfl⟩ := hafter
    obtain ⟨hprocessing, hdue⟩ := hrecoverer.resolve_left hne
    exact ⟨hprocessing, h.due_requested hchanges hdue⟩

/-! ## Runs on a development network -/

/-- Runs a stage in which transactions have to be authorised. -/
def authorisedStage (ctx : Context) (s : Database) (stage : Stage) : Exec Database :=
  match stage with
  | .openTransaction trx => do
    let keys ← ctx.env.signatureKeys (decide (s.hasHardfork 1)) trx
    verifyAuthority trx.operations keys (fun name ↦ do pure (← s.getAuthority name).active)
      (fun name ↦ do pure (← s.getAuthority name).owner)
    stage.run ctx s
  | _ => stage.run ctx s

theorem authorisedStage_eq_ok (h : authorisedStage ctx s stage = .ok s') :
    Authorised ctx s stage ∧ stage.run ctx s = .ok s' := by
  cases stage with
  | openTransaction trx =>
    simp only [authorisedStage, bind_eq_ok] at h
    obtain ⟨keys, hkeys, _, hverify, hrun⟩ := h
    exact ⟨⟨keys, hkeys, hverify⟩, hrun⟩
  | _ => exact ⟨trivial, h⟩

/-- The owner of an account replaces the owner authority by another key. -/
def replaceKey : FeeOperation :=
  ⟨.accountUpdate 1000 (some ⟨1, [], [(9, 1)]⟩) none 8 [], ⟨0, sophiatxSymbol⟩⟩

theorem owner_control_of_update :
    ∃ s₀ past rest s s', initGenesis devGenesis = .ok s₀ ∧
      Chronicle (devContext devGenesis) (Accepted (devContext devGenesis)) s₀ past
        (some (.operation ⟨0, 0, 1531512900, [replaceKey], [8]⟩ replaceKey :: rest)) s ∧
      Stage.run (devContext devGenesis) s
        (.operation ⟨0, 0, 1531512900, [replaceKey], [8]⟩ replaceKey) = .ok s' ∧
      s.ownerOf 1000 = some ⟨1, [], [(8, 1)]⟩ ∧ s'.ownerOf 1000 = some ⟨1, [], [(9, 1)]⟩ ∧
      ∀ name, ControlKept (devContext devGenesis) past s
        (.operation ⟨0, 0, 1531512900, [replaceKey], [8]⟩ replaceKey) s' name := by
  have hok : okAnd (initGenesis devGenesis) (fun s₀ ↦
      okAnd (((SignedBlock.stages (firstBlock replaceKey 8)).take 2).foldlM
          (authorisedStage (devContext devGenesis)) s₀) fun s ↦
        decide (s.ownerOf 1000 = some ⟨1, [], [(8, 1)]⟩) &&
        okAnd (Stage.run (devContext devGenesis) s
          (.operation ⟨0, 0, 1531512900, [replaceKey], [8]⟩ replaceKey)) fun s' ↦
            decide (s'.ownerOf 1000 = some ⟨1, [], [(9, 1)]⟩)) = true := by decide +kernel
  obtain ⟨s₀, hgenesis, hs₀⟩ := exists_of_okAnd hok
  obtain ⟨s, hstages, hs⟩ := exists_of_okAnd hs₀
  rw [Bool.and_eq_true, decide_eq_true_eq] at hs
  obtain ⟨s', hrun, hs'⟩ := exists_of_okAnd hs.2
  obtain ⟨s₁, hopenBlock, hstages⟩ := bind_eq_ok.1 hstages
  obtain ⟨s₂, hopenTransaction, hdone⟩ := bind_eq_ok.1 hstages
  obtain rfl : s₂ = s := pure_eq_ok.1 hdone
  obtain ⟨hblock, hopenBlock⟩ := authorisedStage_eq_ok hopenBlock
  obtain ⟨htransaction, hopenTransaction⟩ := authorisedStage_eq_ok hopenTransaction
  have hstart : Chronicle (devContext devGenesis) (Accepted (devContext devGenesis)) s₀ []
      (some (SignedBlock.stages (firstBlock replaceKey 8))) s₀ := Chronicle.refl.start _
  have hchronicle := (hstart.stage ⟨hblock, trivial⟩ hopenBlock).stage ⟨htransaction, trivial⟩
    hopenTransaction
  have hnames : ∀ acc ∈ (devContext devGenesis).genesis.initialAccounts, acc.name ≠ 0 := by
    decide
  have henv : ∀ nameSeed, (devContext devGenesis).env.makeRandomFixedString nameSeed ≠ 0 := by
    intro nameSeed
    exact ne_of_gt (Nat.add_pos_left (by decide) _)
  exact ⟨s₀, _, _, s₂, s', hgenesis, hchronicle, hrun, hs.1, of_decide_eq_true hs',
    owner_control hnames henv hgenesis hchronicle hrun⟩

/-- Time does not go behind the start of a run. -/
theorem Chronicle.start_le {C : Database → Stage → Prop} {pending : Option (List Stage)}
    (h : Chronicle ctx C s₀ past pending s) :
    s₀.registry.time ≤ s.registry.time ∧
      ∀ moment ∈ past, s₀.registry.time ≤ moment.1.registry.time := by
  induction h with
  | refl => exact ⟨le_rfl, fun _ hmem ↦ absurd hmem List.not_mem_nil⟩
  | start _ _ ih => exact ih
  | finish _ _ ih => exact ih
  | stage h _ hrun ih =>
    refine ⟨ih.1.trans (h.time_le_of_stage hrun), fun moment hmem ↦ ?_⟩
    rcases List.mem_cons.1 hmem with rfl | hmem
    · exact ih.1
    · exact ih.2 moment hmem

/-- A network that starts five minutes before the clock of 32 bits is used up. -/
def lastGenesis : GenesisState := { devGenesis with genesisTime := 4294966998 }

/-- Its first block, in which an account requests another recovery account. -/
def lastBlock : SignedBlock :=
  devBlock .null 4294967001
    [devTransaction 4294967100 8 (.changeRecoveryAccount 1000 nullAccount)]

theorem recovery_account_changed_at_once :
    ∃ s₀ past rest s s' a a', initGenesis lastGenesis = .ok s₀ ∧
      Chronicle (devContext lastGenesis) (Authorised (devContext lastGenesis)) s₀ past
        (some (.accountRecoveryProcessing :: rest)) s ∧
      Stage.run (devContext lastGenesis) s .accountRecoveryProcessing = .ok s' ∧
      s.accounts.find? 1000 = some a ∧ s'.accounts.find? 1000 = some a' ∧
      a'.recoveryAccount ≠ a.recoveryAccount ∧
      s.dgp.time < s₀.dgp.time + ownerAuthRecoveryPeriod ∧
      ¬ ControlKept (devContext lastGenesis) past s .accountRecoveryProcessing s' 1000 := by
  have hok : okAnd (initGenesis lastGenesis) (fun s₀ ↦
      okAnd (((SignedBlock.stages lastBlock).take 15).foldlM
          (authorisedStage (devContext lastGenesis)) s₀) fun s ↦
        decide (s.dgp.time < s₀.dgp.time + ownerAuthRecoveryPeriod) &&
        okAnd (Stage.run (devContext lastGenesis) s .accountRecoveryProcessing) fun s' ↦
          decide ((s.accounts.find? 1000).isSome ∧ (s'.accounts.find? 1000).isSome ∧
            (s'.accounts.find? 1000).map Account.recoveryAccount ≠
              (s.accounts.find? 1000).map Account.recoveryAccount)) = true := by decide +kernel
  obtain ⟨s₀, hgenesis, hs₀⟩ := exists_of_okAnd hok
  obtain ⟨s, hstages, hs⟩ := exists_of_okAnd hs₀
  rw [Bool.and_eq_true, decide_eq_true_eq] at hs
  obtain ⟨hsoon, hs⟩ := hs
  obtain ⟨s', hrun, hs'⟩ := exists_of_okAnd hs
  have hstart : RunsFrom (devContext lastGenesis) (Authorised (devContext lastGenesis)) s₀
      (some (SignedBlock.stages lastBlock)) s₀ := RunsFrom.refl.start _
  rw [← List.take_append_drop 15 (SignedBlock.stages lastBlock)] at hstart
  obtain ⟨past, hpast⟩ :=
    (hstart.checkedStages (fun _ _ _ ↦ authorisedStage_eq_ok) hstages).chronicle
  rw [decide_eq_true_eq] at hs'
  obtain ⟨hfind, hfind', hne⟩ := hs'
  obtain ⟨a, ha⟩ := Option.isSome_iff_exists.1 hfind
  obtain ⟨a', ha'⟩ := Option.isSome_iff_exists.1 hfind'
  rw [ha, ha', Option.map_some, Option.map_some, ne_eq, Option.some.injEq] at hne
  refine ⟨s₀, past, _, s, s', a, a', hgenesis, hpast, hrun, ha, ha', hne, hsoon, fun hkept ↦ ?_⟩
  obtain ⟨_, newer, moment, older, hsplit, ⟨_, hmonth⟩, _⟩ :=
    hkept.recoveryAccount a a' ha ha' hne
  have hmem : moment ∈ past := hsplit ▸ List.mem_append_right _ List.mem_cons_self
  have hle : s₀.dgp.time ≤ moment.1.dgp.time := hpast.start_le.2 moment hmem
  exact absurd hsoon (not_lt.2 ((Nat.add_le_add_right hle _).trans hmonth))

end SophiaTX.Chain
