import SophiaTX.Signing.Traversal

/-!
# Selecting signatures

`minimize_required_signatures` collects the available keys that checks of the required authorities
meet, and drops keys as long as the rest is accepted. A key that no check meets is left unused by
`verify_authority`, which refuses it with an exception that is not caught. Where the recursion limit
cuts nothing off, keys that were met are met again when fewer are provided.
-/

namespace SophiaTX.Protocol

open SophiaTX.Lib SignState

theorem mem_flatSet {names : List ℕ} {name : ℕ} : name ∈ flatSet names ↔ name ∈ names := by
  rw [flatSet, List.mem_insertionSort, List.mem_dedup]

theorem nodup_flatSet (names : List ℕ) : (flatSet names).Nodup :=
  (List.perm_insertionSort _ _).nodup_iff.2 (List.nodup_dedup names)

variable {active owner : AccountName → Authority} {keys keys' : Finset PublicKey}
  {operations : List FeeOperation} {maxRecursion : ℕ}

/-- Keys satisfy all that operations require, owner authorities standing in for active ones. -/
structure Authorised (active owner : AccountName → Authority) (operations : List FeeOperation)
    (keys : Finset PublicKey) : Prop where
  requiredOther : ∀ auth ∈ (requiredAuthorities operations).2.2, Satisfied keys active auth
  requiredActive : ∀ name ∈ (requiredAuthorities operations).1, (name = tempAccount ∨
    Satisfied keys active (active name)) ∨ Satisfied keys active (owner name)
  requiredOwner : ∀ name ∈ (requiredAuthorities operations).2.1,
    Satisfied keys active (owner name)

theorem Authorised.mono (hkeys : keys ⊆ keys') (h : Authorised active owner operations keys) :
    Authorised active owner operations keys' where
  requiredOther auth hauth := (h.requiredOther auth hauth).mono hkeys
  requiredActive name hname := (h.requiredActive name hname).imp
    (Or.imp_right fun hactive ↦ hactive.mono hkeys) fun howner ↦ howner.mono hkeys
  requiredOwner name hname := (h.requiredOwner name hname).mono hkeys

/-- The keys that checks of the required authorities meet, without owner authorities in place of
active ones. -/
inductive Collected (active owner : AccountName → Authority) (operations : List FeeOperation)
    (keys : Finset PublicKey) (key : PublicKey) : Prop
  | other (auth : Authority) (hauth : auth ∈ (requiredAuthorities operations).2.2)
      (hmet : Met keys active auth key)
  | active (name : AccountName) (hname : name ∈ (requiredAuthorities operations).1)
      (hne : name ≠ tempAccount) (hmet : Met keys active (active name) key)
  | owner (name : AccountName) (hname : name ∈ (requiredAuthorities operations).2.1)
      (hmet : Met keys active (owner name) key)

theorem Collected.mem {key : PublicKey} (h : Collected active owner operations keys key) :
    key ∈ keys := by
  cases h with
  | other _ _ hmet => exact hmet.mem
  | active _ _ _ hmet => exact hmet.mem
  | owner _ _ hmet => exact hmet.mem

theorem Collected.mono {key : PublicKey} (hkeys : keys ⊆ keys') (hkey : key ∈ keys)
    (h : Collected active owner operations keys' key) :
    Collected active owner operations keys key := by
  cases h with
  | other auth hauth hmet => exact .other auth hauth (hmet.mono hkeys hkey)
  | active name hname hne hmet => exact .active name hname hne (hmet.mono hkeys hkey)
  | owner name hname hmet => exact .owner name hname (hmet.mono hkeys hkey)

/-- The recursion limit cuts nothing off from the checks of what operations require with these keys.
Owner authorities are checked in place of active ones that are not satisfied. -/
structure WithinLimit (active owner : AccountName → Authority) (maxRecursion : ℕ)
    (operations : List FeeOperation) (keys : Finset PublicKey) : Prop where
  requiredOther : ∀ auth ∈ (requiredAuthorities operations).2.2, Uncut keys active maxRecursion auth
  requiredActive : ∀ name ∈ (requiredAuthorities operations).1, name ≠ tempAccount →
    Uncut keys active maxRecursion (active name) ∧
      (¬ Satisfied keys active (active name) → Uncut keys active maxRecursion (owner name))
  requiredOwner : ∀ name ∈ (requiredAuthorities operations).2.1,
    Uncut keys active maxRecursion (owner name)

/-- The same for whichever of the keys are chosen to sign. -/
def WithinLimits (active owner : AccountName → Authority) (maxRecursion : ℕ)
    (operations : List FeeOperation) (keys : Finset PublicKey) : Prop :=
  ∀ signing ⊆ keys, Authorised active owner operations signing →
    WithinLimit active owner maxRecursion operations signing

/-! ## What a verification reports -/

/-- The errors that `minimize_required_signatures` catches. -/
def MissingAuthority : ChainError → Prop
  | .missingOwnerAuth _ | .missingActiveAuth _ | .missingOtherAuth => True
  | _ => False

/-- A verification that reports no missing authority. -/
def NoneMissing (result : Exec Unit) : Prop := ∀ e, result = .error e → ¬ MissingAuthority e

/-- A verification goes on after a step that only fails for a missing authority. -/
theorem NoneMissing.of_bind {α : Type} {x : Exec α} {f : α → Exec Unit}
    (hx : ∀ e, x = .error e → MissingAuthority e) (h : NoneMissing (x >>= f)) :
    ∃ a, x = .ok a ∧ NoneMissing (f a) := by
  cases x with
  | error e => exact absurd (hx e rfl) (h e rfl)
  | ok a => exact ⟨a, rfl, h⟩

theorem verify_loop_error {α : Type} {verify : SignState → α → Exec SignState}
    (hverify : ∀ st a e, verify st a = .error e → MissingAuthority e) {l : List α}
    {st : SignState} {e : ChainError} (h : l.foldlM verify st = .error e) :
    MissingAuthority e := by
  induction l generalizing st with
  | nil => cases h
  | cons a rest ih =>
    rw [List.foldlM_cons, bind_eq_error] at h
    rcases h with hfirst | ⟨st', _, hrest⟩
    · exact hverify st a e hfirst
    · exact ih hrest

/-- A check of an authority decides. -/
theorem checkAuthority_ne_error {levels : ℕ} {auth : Authority} {st : SignState} {e : ChainError} :
    checkAuthority (fun name ↦ .ok (active name)) levels auth st ≠ .error e := by
  obtain ⟨st', ok, hcheck, _⟩ := checkAuthority_spec active levels auth st
  rw [hcheck]
  exact fun h ↦ by cases h

theorem verifyOther_error {st : SignState} {auth : Authority} {e : ChainError}
    (h : verifyOther (fun name ↦ .ok (active name)) maxRecursion st auth = .error e) :
    MissingAuthority e := by
  simp only [verifyOther, bind_eq_error] at h
  rcases h with hcheck | ⟨⟨st', ok⟩, _, h⟩
  · exact absurd hcheck checkAuthority_ne_error
  · cases ok with
    | true => cases h
    | false =>
      cases h
      trivial

theorem verifyOwner_error {st : SignState} {name : AccountName} {e : ChainError}
    (h : verifyOwner (fun name ↦ .ok (active name)) (fun name ↦ .ok (owner name)) maxRecursion st
      name = .error e) : MissingAuthority e := by
  simp only [verifyOwner, bind_eq_error] at h
  rcases h with howner | ⟨_, _, hcheck | ⟨⟨st', ok⟩, _, h⟩⟩
  · cases howner
  · exact absurd hcheck checkAuthority_ne_error
  · cases ok with
    | true => cases h
    | false =>
      cases h
      trivial

theorem verifyActive_error {st : SignState} {name : AccountName} {e : ChainError}
    (h : verifyActive (fun name ↦ .ok (active name)) (fun name ↦ .ok (owner name)) maxRecursion st
      name = .error e) : MissingAuthority e := by
  simp only [verifyActive, bind_eq_error] at h
  rcases h with hcheck | ⟨⟨st', ok⟩, _, h⟩
  · obtain ⟨_, _, hrun, _⟩ := AuthorityCall.run_spec active maxRecursion st (.account name)
    rw [AuthorityCall.run, hcheck] at hrun
    cases hrun
  · cases ok with
    | true => cases h
    | false =>
      simp only [Bool.false_eq_true, if_false, bind_eq_error] at h
      rcases h with howner | ⟨_, _, hcheck | ⟨⟨st'', ok'⟩, _, h⟩⟩
      · cases howner
      · exact absurd hcheck checkAuthority_ne_error
      · cases ok' with
        | true => cases h
        | false =>
          cases h
          trivial

/-- Where nothing is reported missing, all that is required has a derivation. -/
theorem authorised_of_noneMissing {sigs : List PublicKey}
    (h : NoneMissing (verifyAuthorityAt (fun name ↦ .ok (active name))
      (fun name ↦ .ok (owner name)) maxRecursion operations sigs)) :
    Authorised active owner operations sigs.toFinset := by
  unfold verifyAuthorityAt at h
  obtain ⟨st₁, hother, h⟩ := NoneMissing.of_bind
    (fun _ ↦ verify_loop_error fun _ _ _ ↦ verifyOther_error) h
  obtain ⟨st₂, hactive, h⟩ := NoneMissing.of_bind
    (fun _ ↦ verify_loop_error fun _ _ _ ↦ verifyActive_error) h
  obtain ⟨st₃, howner, _⟩ := NoneMissing.of_bind
    (fun _ ↦ verify_loop_error fun _ _ _ ↦ verifyOwner_error) h
  obtain ⟨hothers, hactives, howners⟩ := satisfied_of_verify_loops hother hactive howner
  exact ⟨hothers, fun name hname ↦ or_assoc.2 (hactives name hname), howners⟩

/-! ## Loops over required authorities -/

/-- A loop of checks that marks the keys met by each. -/
theorem check_loop_advances {α : Type} (check : SignState → α → Exec SignState)
    (met : α → PublicKey → Prop) {l : List α} {st : SignState}
    (hcheck : ∀ a ∈ l, ∀ st, Good active st → st.keys = keys →
      ∃ st', check st a = .ok st' ∧ Advances active st st' (met a))
    (hgood : Good active st) (hkeys : st.keys = keys) :
    ∃ st', l.foldlM check st = .ok st' ∧
      Advances active st st' fun key ↦ ∃ a ∈ l, met a key := by
  induction l generalizing st with
  | nil => exact ⟨st, rfl, rfl, hgood, fun key ↦ by simp⟩
  | cons a rest ih =>
    obtain ⟨st₁, hfirst, hadvances⟩ := hcheck a List.mem_cons_self st hgood hkeys
    obtain ⟨st', hloop, hadvances'⟩ := ih (fun b hb ↦ hcheck b (List.mem_cons_of_mem _ hb))
      hadvances.good (hadvances.keys.trans hkeys)
    refine ⟨st', ?_, hadvances'.keys.trans hadvances.keys, hadvances'.good, fun key ↦ ?_⟩
    · rw [List.foldlM_cons, hfirst]
      exact hloop
    · rw [hadvances'.uses, hadvances.uses, or_assoc]
      simp

theorem checkAccount_advances {name : AccountName} {st : SignState}
    (huncut : name ≠ tempAccount → Uncut st.keys active maxRecursion (active name))
    (hgood : Good active st) :
    ∃ st' ok, checkAccount (fun name ↦ .ok (active name)) maxRecursion name st = .ok (st', ok) ∧
      (ok = true ↔ name = tempAccount ∨ Satisfied st.keys active (active name)) ∧
      Advances active st st' fun key ↦
        name ≠ tempAccount ∧ Met st.keys active (active name) key := by
  unfold checkAccount
  split_ifs with hmem
  · refine ⟨st, true, rfl, ⟨fun _ ↦ ?_, fun _ ↦ rfl⟩, rfl, hgood, fun key ↦ ?_⟩
    · exact or_iff_not_imp_left.2 fun hne ↦ (hgood.approved name hmem hne).1
    · refine ⟨.inl, fun h ↦ h.elim id fun ⟨hne, hmet⟩ ↦ ?_⟩
      exact (hgood.approved name hmem hne).2 key hmet
  · have hne : name ≠ tempAccount := fun h ↦ hmem (h ▸ hgood.temp)
    obtain ⟨st', ok, hcheck, hok, hadvances⟩ := checkAuthority_advances (huncut hne) hgood
    refine ⟨st', ok, hcheck, ?_, hadvances.keys, hadvances.good, fun key ↦ ?_⟩
    · rw [hok]
      exact ⟨.inr, fun h ↦ h.resolve_left hne⟩
    · rw [hadvances.uses]
      exact or_congr_right ⟨fun h ↦ ⟨hne, h⟩, fun h ↦ h.2⟩

theorem verifyOther_advances {auth : Authority} {st : SignState}
    (huncut : Uncut keys active maxRecursion auth) (hsatisfied : Satisfied keys active auth)
    (hgood : Good active st) (hkeys : st.keys = keys) :
    ∃ st', verifyOther (fun name ↦ .ok (active name)) maxRecursion st auth = .ok st' ∧
      Advances active st st' (Met keys active auth) := by
  subst hkeys
  obtain ⟨st', ok, hcheck, hok, hadvances⟩ := checkAuthority_advances huncut hgood
  refine ⟨st', ?_, hadvances⟩
  rw [verifyOther, hcheck]
  exact if_pos (hok.2 hsatisfied)

theorem verifyOwner_advances {name : AccountName} {st : SignState}
    (huncut : Uncut keys active maxRecursion (owner name))
    (hsatisfied : Satisfied keys active (owner name)) (hgood : Good active st)
    (hkeys : st.keys = keys) :
    ∃ st', verifyOwner (fun name ↦ .ok (active name)) (fun name ↦ .ok (owner name)) maxRecursion
        st name = .ok st' ∧ Advances active st st' (Met keys active (owner name)) := by
  subst hkeys
  obtain ⟨st', ok, hcheck, hok, hadvances⟩ := checkAuthority_advances huncut hgood
  refine ⟨st', ?_, hadvances⟩
  simp only [verifyOwner, ok_bind, hcheck]
  exact if_pos (hok.2 hsatisfied)

/-- The keys met where an active authority is required: those of the owner authority only where the
active authority is not satisfied. -/
def MetForActive (active owner : AccountName → Authority) (keys : Finset PublicKey)
    (name : AccountName) (key : PublicKey) : Prop :=
  (name ≠ tempAccount ∧ Met keys active (active name) key) ∨
    (¬ (name = tempAccount ∨ Satisfied keys active (active name)) ∧
      Met keys active (owner name) key)

theorem verifyActive_advances {name : AccountName} {st : SignState}
    (huncut : name ≠ tempAccount → Uncut keys active maxRecursion (active name) ∧
      (¬ Satisfied keys active (active name) → Uncut keys active maxRecursion (owner name)))
    (hsatisfied : (name = tempAccount ∨ Satisfied keys active (active name)) ∨
      Satisfied keys active (owner name)) (hgood : Good active st) (hkeys : st.keys = keys) :
    ∃ st', verifyActive (fun name ↦ .ok (active name)) (fun name ↦ .ok (owner name)) maxRecursion
        st name = .ok st' ∧ Advances active st st' (MetForActive active owner keys name) := by
  subst hkeys
  obtain ⟨st₁, ok, hcheck, hok, hadvances⟩ := checkAccount_advances (fun hne ↦ (huncut hne).1) hgood
  simp only [verifyActive, hcheck, ok_bind]
  cases ok with
  | true =>
    refine ⟨st₁, rfl, hadvances.keys, hadvances.good, fun key ↦ ?_⟩
    rw [hadvances.uses, MetForActive]
    exact or_congr_right ⟨.inl, fun h ↦ h.resolve_right fun h' ↦ h'.1 (hok.1 rfl)⟩
  | false =>
    have hnot : ¬ (name = tempAccount ∨ Satisfied st.keys active (active name)) :=
      fun h ↦ Bool.false_ne_true (hok.2 h)
    have howner := (huncut fun h ↦ hnot (.inl h)).2 fun h ↦ hnot (.inr h)
    rw [← hadvances.keys] at howner
    obtain ⟨st₂, ok', hcheck', hok', hadvances'⟩ :=
      checkAuthority_advances howner hadvances.good
    rw [hadvances.keys] at hok' hadvances'
    simp only [Bool.false_eq_true, if_false, hcheck', ok_bind]
    refine ⟨st₂, if_pos (hok'.2 (hsatisfied.resolve_left hnot)),
      hadvances'.keys.trans hadvances.keys, hadvances'.good, fun key ↦ ?_⟩
    rw [hadvances'.uses, hadvances.uses, MetForActive, or_assoc]
    exact or_congr_right (or_congr_right ⟨fun h ↦ ⟨hnot, h⟩, fun h ↦ h.2⟩)

/-! ## Verification -/

theorem good_initial {sigs : List PublicKey} (hnodup : sigs.Nodup) (available : List PublicKey) :
    Good active (initial sigs available) := by
  refine ⟨?_, List.mem_singleton.2 rfl, fun name hname hne ↦ ?_⟩
  · have hsame : ((initial sigs available).providedSignatures.map Prod.fst) = sigs := by
      simp [initial, Function.comp_def]
    rwa [hsame]
  · exact absurd (List.mem_singleton.1 hname) hne

theorem not_uses_initial {sigs available : List PublicKey} {key : PublicKey} :
    ¬ (initial sigs available).Uses key := by
  simp [Uses, initial]

/-- No signature is left over where every key is used. -/
theorem removeUnusedSignatures_of_uses {st : SignState} (hgood : Good active st)
    (h : ∀ key ∈ st.keys, st.Uses key) : st.removeUnusedSignatures.2 = false := by
  have hunused : st.unusedSignatures = [] := by
    rw [unusedSignatures, List.map_eq_nil_iff, List.filter_eq_nil_iff]
    rintro ⟨key, used⟩ hsig
    cases used with
    | true => simp
    | false =>
      have hkey : key ∈ st.keys :=
        Finset.mem_union_left _ (List.mem_toFinset.2 (List.mem_map_of_mem hsig))
      have heq := List.inj_on_of_nodup_map hgood.nodup hsig (h key hkey) rfl
      cases heq
  simp [removeUnusedSignatures, hunused]

/-- `verify_authority` accepts keys that satisfy what is required and are all collected. -/
theorem verifyAuthorityAt_within {sigs : List PublicKey} (hnodup : sigs.Nodup)
    (hlimit : WithinLimit active owner maxRecursion operations sigs.toFinset)
    (h : Authorised active owner operations sigs.toFinset)
    (hcollected : ∀ key ∈ sigs, Collected active owner operations sigs.toFinset key) :
    verifyAuthorityAt (fun name ↦ .ok (active name)) (fun name ↦ .ok (owner name))
      maxRecursion operations sigs = .ok () := by
  have hkeys : (initial sigs []).keys = sigs.toFinset := by rw [keys_initial, List.append_nil]
  have hinitial : Good active (initial sigs []) := good_initial hnodup []
  obtain ⟨st₁, hother, hadvances₁⟩ := check_loop_advances
    (verifyOther (fun name ↦ .ok (active name)) maxRecursion) (Met sigs.toFinset active)
    (fun auth hauth st hgood hkeys ↦ verifyOther_advances (hlimit.requiredOther auth hauth)
      (h.requiredOther auth hauth) hgood hkeys)
    hinitial hkeys
  obtain ⟨st₂, hactive, hadvances₂⟩ := check_loop_advances
    (verifyActive (fun name ↦ .ok (active name)) (fun name ↦ .ok (owner name)) maxRecursion)
    (MetForActive active owner sigs.toFinset)
    (fun name hname st hgood hkeys ↦ verifyActive_advances (hlimit.requiredActive name hname)
      (h.requiredActive name hname) hgood hkeys)
    hadvances₁.good (hadvances₁.keys.trans hkeys)
  obtain ⟨st₃, howner, hadvances₃⟩ := check_loop_advances
    (verifyOwner (fun name ↦ .ok (active name)) (fun name ↦ .ok (owner name)) maxRecursion)
    (fun name key ↦ Met sigs.toFinset active (owner name) key)
    (fun name hname st hgood hkeys ↦ verifyOwner_advances (hlimit.requiredOwner name hname)
      (h.requiredOwner name hname) hgood hkeys)
    hadvances₂.good (hadvances₂.keys.trans (hadvances₁.keys.trans hkeys))
  have hunused : st₃.removeUnusedSignatures.2 = false := by
    refine removeUnusedSignatures_of_uses hadvances₃.good fun key hkey ↦ ?_
    rw [hadvances₃.keys, hadvances₂.keys, hadvances₁.keys, hkeys, List.mem_toFinset] at hkey
    rw [hadvances₃.uses, hadvances₂.uses, hadvances₁.uses]
    cases hcollected key hkey with
    | other auth hauth hmet => exact .inl (.inl (.inr ⟨auth, hauth, hmet⟩))
    | active name hname hne hmet => exact .inl (.inr ⟨name, hname, .inl ⟨hne, hmet⟩⟩)
    | owner name hname hmet => exact .inr ⟨name, hname, hmet⟩
  simp only [verifyAuthorityAt, hother, hactive, howner, ok_bind, hunused]
  rfl

/-- `verify_authority` reports a missing authority for keys that do not satisfy what is required. -/
theorem verifyAuthorityAt_missing {sigs : List PublicKey}
    (h : ¬ Authorised active owner operations sigs.toFinset) :
    ∃ e, MissingAuthority e ∧ verifyAuthorityAt (fun name ↦ .ok (active name))
      (fun name ↦ .ok (owner name)) maxRecursion operations sigs = .error e := by
  have hsome : ¬ NoneMissing (verifyAuthorityAt (fun name ↦ .ok (active name))
      (fun name ↦ .ok (owner name)) maxRecursion operations sigs) :=
    fun hnone ↦ h (authorised_of_noneMissing hnone)
  simp only [NoneMissing, not_forall, not_not] at hsome
  obtain ⟨e, herror, hmissing⟩ := hsome
  exact ⟨e, hmissing, herror⟩

/-! ## Collecting keys -/

theorem mem_removeUnusedSignatures {st : SignState} {key : PublicKey} (hgood : Good active st) :
    key ∈ st.removeUnusedSignatures.1.providedSignatures.map Prod.fst ↔ st.Uses key := by
  simp only [removeUnusedSignatures, unusedSignatures, List.mem_map, List.mem_filter]
  constructor
  · rintro ⟨⟨_, used⟩, ⟨hsig, hkept⟩, rfl⟩
    cases used with
    | true => exact hsig
    | false =>
      refine absurd (List.mem_map_of_mem ?_) (of_decide_eq_true hkept)
      exact List.mem_filter.2 ⟨hsig, rfl⟩
  · refine fun huses ↦ ⟨(key, true), ⟨huses, decide_eq_true fun hunused ↦ ?_⟩, rfl⟩
    obtain ⟨sig, hsig, hfst⟩ := List.mem_map.1 hunused
    obtain ⟨hsig, hunused⟩ := List.mem_filter.1 hsig
    rw [List.inj_on_of_nodup_map hgood.nodup hsig huses hfst] at hunused
    cases hunused

/-- `get_required_signatures` returns the keys that are collected. -/
theorem getRequiredSignatures_within (available : List PublicKey)
    (hlimit : WithinLimit active owner maxRecursion operations available.toFinset) :
    ∃ s, getRequiredSignatures (fun name ↦ .ok (active name)) (fun name ↦ .ok (owner name))
        maxRecursion operations [] available = .ok s ∧ s.Nodup ∧
      ∀ key, key ∈ s ↔ Collected active owner operations available.toFinset key := by
  have hkeys : (initial [] available).keys = available.toFinset := by
    rw [keys_initial, List.nil_append]
  have hcheck : ∀ {auth : Authority} {st : SignState},
      Uncut available.toFinset active maxRecursion auth → Good active st →
      st.keys = available.toFinset → ∃ st' ok, checkAuthority (fun name ↦ .ok (active name))
        maxRecursion auth st = .ok (st', ok) ∧
        Advances active st st' (Met available.toFinset active auth) := by
    intro auth st huncut hgood hkeys
    rw [← hkeys] at huncut ⊢
    obtain ⟨st', ok, hcheck, _, hadvances⟩ := checkAuthority_advances huncut hgood
    exact ⟨st', ok, hcheck, hadvances⟩
  obtain ⟨st₁, hloop₁, hadvances₁⟩ := check_loop_advances
    (collectAuthority (fun name ↦ .ok (active name)) maxRecursion)
    (fun auth key ↦ Met available.toFinset active auth key)
    (fun auth hauth st hgood hkeys ↦ by
      obtain ⟨st', ok, hcheck, hadvances⟩ := hcheck (hlimit.requiredOther auth hauth) hgood hkeys
      exact ⟨st', bind_eq_ok.2 ⟨_, hcheck, rfl⟩, hadvances⟩)
    (good_initial List.nodup_nil available) hkeys
  obtain ⟨st₂, hloop₂, hadvances₂⟩ := check_loop_advances
    (collectOwner (fun name ↦ .ok (active name)) (fun name ↦ .ok (owner name))
      maxRecursion)
    (fun name key ↦ Met available.toFinset active (owner name) key)
    (fun name hname st hgood hkeys ↦ by
      obtain ⟨st', ok, hcheck, hadvances⟩ := hcheck (hlimit.requiredOwner name hname) hgood hkeys
      exact ⟨st', bind_eq_ok.2 ⟨_, rfl, bind_eq_ok.2 ⟨_, hcheck, rfl⟩⟩, hadvances⟩)
    hadvances₁.good (hadvances₁.keys.trans hkeys)
  obtain ⟨st₃, hloop₃, hadvances₃⟩ := check_loop_advances
    (collectActive (fun name ↦ .ok (active name)) maxRecursion)
    (fun name key ↦ name ≠ tempAccount ∧ Met available.toFinset active (active name) key)
    (fun name hname st hgood hkeys ↦ by
      have huncut := fun hne ↦ (hlimit.requiredActive name hname hne).1
      rw [← hkeys] at huncut ⊢
      obtain ⟨st', ok, hcheck, _, hadvances⟩ := checkAccount_advances huncut hgood
      exact ⟨st', bind_eq_ok.2 ⟨_, hcheck, rfl⟩, hadvances⟩)
    hadvances₂.good (hadvances₂.keys.trans (hadvances₁.keys.trans hkeys))
  refine ⟨flatSet ((st₃.removeUnusedSignatures.1.providedSignatures.map Prod.fst).filter
    fun key ↦ decide (key ∈ available)), ?_, nodup_flatSet _, fun key ↦ ?_⟩
  · unfold getRequiredSignatures
    exact bind_eq_ok.2 ⟨st₁, hloop₁, bind_eq_ok.2 ⟨st₂, hloop₂, bind_eq_ok.2 ⟨st₃, hloop₃, rfl⟩⟩⟩
  · rw [mem_flatSet, List.mem_filter, decide_eq_true_eq,
      mem_removeUnusedSignatures hadvances₃.good, hadvances₃.uses, hadvances₂.uses,
      hadvances₁.uses]
    constructor
    · rintro ⟨((huses | ⟨auth, hauth, hmet⟩) | ⟨name, hname, hmet⟩) | ⟨name, hname, hne, hmet⟩, -⟩
      · exact absurd huses not_uses_initial
      · exact .other auth hauth hmet
      · exact .owner name hname hmet
      · exact .active name hname hne hmet
    · refine fun h ↦ ⟨?_, List.mem_toFinset.1 h.mem⟩
      rcases h with ⟨auth, hauth, hmet⟩ | ⟨name, hname, hne, hmet⟩ | ⟨name, hname, hmet⟩
      · exact .inl (.inl (.inr ⟨auth, hauth, hmet⟩))
      · exact .inr ⟨name, hname, hne, hmet⟩
      · exact .inl (.inr ⟨name, hname, hmet⟩)

/-! ## Dropping keys -/

section Minimize

variable {result : List PublicKey}

/-- What is tried, for keys that are all collected. -/
theorem tryWithout_within
    (hlimits : WithinLimits active owner maxRecursion operations result.toFinset)
    (hnodup : result.Nodup)
    (hcollected : ∀ sigs : List PublicKey, sigs ⊆ result → ∀ key ∈ sigs,
      Collected active owner operations sigs.toFinset key) {key : PublicKey} (hkey : key ∈ result) :
    ∃ result', tryWithout (fun name ↦ .ok (active name)) (fun name ↦ .ok (owner name))
        maxRecursion operations result key = .ok result' ∧ result'.Nodup ∧
      (Authorised active owner operations (result.erase key).toFinset →
        result' = result.erase key) ∧
      (¬ Authorised active owner operations (result.erase key).toFinset →
        ∀ k, k ∈ result' ↔ k ∈ result) := by
  have hnodup' : (result.erase key).Nodup := hnodup.erase key
  have hfewer : (result.erase key).toFinset ⊆ result.toFinset := by
    intro k hk
    exact List.mem_toFinset.2 (List.mem_of_mem_erase (List.mem_toFinset.1 hk))
  have hinsert : ∀ k, k ∈ (result.erase key).orderedInsert (· ≤ ·) key ↔ k ∈ result := by
    intro k
    rw [List.mem_orderedInsert, hnodup.mem_erase_iff]
    by_cases hk : k = key
    · simp [hk, hkey]
    · simp [hk]
  by_cases hauthorised : Authorised active owner operations (result.erase key).toFinset
  · have hok := verifyAuthorityAt_within hnodup' (hlimits _ hfewer hauthorised) hauthorised
      (hcollected _ List.erase_subset)
    refine ⟨result.erase key, ?_, hnodup', fun _ ↦ rfl, fun h ↦ absurd hauthorised h⟩
    simp only [tryWithout, hok]
    rfl
  · obtain ⟨e, he, herror⟩ := @verifyAuthorityAt_missing _ _ _ maxRecursion _ hauthorised
    refine ⟨(result.erase key).orderedInsert (· ≤ ·) key, ?_, ?_,
      fun h ↦ absurd h hauthorised, fun _ ↦ hinsert⟩
    · simp only [tryWithout, herror]
      cases e <;> first | rfl | exact absurd he not_false
    · refine ((List.perm_orderedInsert _ _ _).nodup_iff).2 (List.nodup_cons.2 ⟨?_, hnodup'⟩)
      exact fun h ↦ (hnodup.mem_erase_iff.1 h).1 rfl

/-- The loop over collected keys ends with keys of which none can be dropped. -/
theorem tryWithout_loop
    (hlimits : WithinLimits active owner maxRecursion operations result.toFinset)
    {rest : List PublicKey} (hrest : rest.Nodup) (hnodup : result.Nodup) (hsubset : rest ⊆ result)
    (hcollected : ∀ sigs : List PublicKey, sigs ⊆ result → ∀ key ∈ sigs,
      Collected active owner operations sigs.toFinset key)
    (hneeded : ∀ key ∈ result, key ∉ rest →
      ¬ Authorised active owner operations (result.erase key).toFinset) :
    ∃ result', rest.foldlM (tryWithout (fun name ↦ .ok (active name))
        (fun name ↦ .ok (owner name)) maxRecursion operations) result = .ok result' ∧
      result'.Nodup ∧ result' ⊆ result ∧
      (Authorised active owner operations result.toFinset →
        Authorised active owner operations result'.toFinset) ∧
      ∀ key ∈ result', ¬ Authorised active owner operations (result'.erase key).toFinset := by
  induction rest generalizing result with
  | nil =>
    exact ⟨result, rfl, hnodup, List.Subset.refl _, id,
      fun key hkey ↦ hneeded key hkey List.not_mem_nil⟩
  | cons key rest ih =>
    obtain ⟨hkey, hrest⟩ := List.nodup_cons.1 hrest
    obtain ⟨result₁, hfirst, hnodup₁, hdropped, hkept⟩ :=
      tryWithout_within hlimits hnodup hcollected (hsubset List.mem_cons_self)
    have hsubset₁ : result₁ ⊆ result := by
      intro k hk
      by_cases hauthorised : Authorised active owner operations (result.erase key).toFinset
      · exact List.mem_of_mem_erase (hdropped hauthorised ▸ hk)
      · exact (hkept hauthorised k).1 hk
    have hlimits₁ : WithinLimits active owner maxRecursion operations result₁.toFinset := by
      intro signing hsigning
      apply hlimits signing
      exact hsigning.trans fun k hk ↦ List.mem_toFinset.2 (hsubset₁ (List.mem_toFinset.1 hk))
    have herase : ∀ k, (result₁.erase k).toFinset ⊆ (result.erase k).toFinset := by
      intro k a ha
      rw [List.mem_toFinset, hnodup₁.mem_erase_iff] at ha
      rw [List.mem_toFinset, hnodup.mem_erase_iff]
      exact ⟨ha.1, hsubset₁ ha.2⟩
    have hrest₁ : rest ⊆ result₁ := by
      intro k hk
      have hne : k ≠ key := fun h ↦ hkey (h ▸ hk)
      by_cases hauthorised : Authorised active owner operations (result.erase key).toFinset
      · rw [hdropped hauthorised, hnodup.mem_erase_iff]
        exact ⟨hne, hsubset (List.mem_cons_of_mem _ hk)⟩
      · exact (hkept hauthorised k).2 (hsubset (List.mem_cons_of_mem _ hk))
    have hneeded₁ : ∀ k ∈ result₁, k ∉ rest →
        ¬ Authorised active owner operations (result₁.erase k).toFinset := by
      intro k hk hkrest hauthorised
      by_cases hkkey : k = key
      · subst hkkey
        have hfewer := hauthorised.mono (herase k)
        rw [hdropped hfewer] at hk
        exact (hnodup.mem_erase_iff.1 hk).1 rfl
      · refine hneeded k (hsubset₁ hk) (fun h ↦ ?_) (hauthorised.mono (herase k))
        exact (List.mem_cons.1 h).elim hkkey hkrest
    obtain ⟨result', hloop, hnodup', hsubset', hauthorised', hminimal⟩ := ih hlimits₁ hrest
      hnodup₁ hrest₁ (fun sigs hsigs ↦ hcollected sigs (List.Subset.trans hsigs hsubset₁)) hneeded₁
    refine ⟨result', ?_, hnodup', List.Subset.trans hsubset' hsubset₁, fun h ↦ hauthorised' ?_,
      hminimal⟩
    · rw [List.foldlM_cons, hfirst]
      exact hloop
    · by_cases hauthorised : Authorised active owner operations (result.erase key).toFinset
      · rwa [hdropped hauthorised]
      · have hsame : result₁.toFinset = result.toFinset := by
          ext k
          rw [List.mem_toFinset, List.mem_toFinset, hkept hauthorised k]
        rwa [hsame]

end Minimize

end SophiaTX.Protocol
