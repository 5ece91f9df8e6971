import SophiaTX.Signing.Selection

/-!
# Adding signatures

Nothing that is approved needs more than one more key to be refused. A check remembers the accounts
it has come to, at whatever depth, and at the recursion limit only these count; with one more key it
may be done before it comes to an account that a later check needs. What is satisfied within the
recursion limit stays approved, whatever keys are added.
-/

namespace SophiaTX.Protocol

open SophiaTX.Lib SignState

variable {active owner : AccountName → Authority} {keys keys' : Finset PublicKey}
  {operations : List FeeOperation} {maxRecursion : ℕ}

/-- More keys satisfy more within the same number of levels. -/
theorem plainCheck_mono (hkeys : keys ⊆ keys') {levels : ℕ} {auth : Authority}
    (h : plainCheck keys active levels auth = true) :
    plainCheck keys' active levels auth = true := by
  have hsigned : grantedWeight (fun key ↦ decide (key ∈ keys)) auth.keyAuths ≤
      grantedWeight (fun key ↦ decide (key ∈ keys')) auth.keyAuths :=
    grantedWeight_mono fun entry _ hkey ↦ decide_eq_true (hkeys (of_decide_eq_true hkey))
  induction levels generalizing auth with
  | zero =>
    simp only [plainCheck, decide_eq_true_eq] at h ⊢
    exact h.trans (Nat.add_le_add_right hsigned _)
  | succ levels ih =>
    simp only [plainCheck, decide_eq_true_eq] at h ⊢
    refine h.trans (Nat.add_le_add hsigned (grantedWeight_mono fun entry _ happroved ↦ ?_))
    rw [Bool.or_eq_true] at happroved ⊢
    refine happroved.imp_right fun hplain ↦ ih hplain ?_
    exact grantedWeight_mono fun entry _ hkey ↦ decide_eq_true (hkeys (of_decide_eq_true hkey))

/-- Keys satisfy all that operations require by its plain meaning within the recursion limit, owner
authorities standing in for active ones. -/
structure AuthorisedWithin (active owner : AccountName → Authority) (maxRecursion : ℕ)
    (operations : List FeeOperation) (keys : Finset PublicKey) : Prop where
  requiredOther : ∀ auth ∈ (requiredAuthorities operations).2.2,
    plainCheck keys active maxRecursion auth = true
  requiredActive : ∀ name ∈ (requiredAuthorities operations).1, (name = tempAccount ∨
    plainCheck keys active maxRecursion (active name) = true) ∨
      plainCheck keys active maxRecursion (owner name) = true
  requiredOwner : ∀ name ∈ (requiredAuthorities operations).2.1,
    plainCheck keys active maxRecursion (owner name) = true

theorem AuthorisedWithin.mono (hkeys : keys ⊆ keys')
    (h : AuthorisedWithin active owner maxRecursion operations keys) :
    AuthorisedWithin active owner maxRecursion operations keys' where
  requiredOther auth hauth := plainCheck_mono hkeys (h.requiredOther auth hauth)
  requiredActive name hname := (h.requiredActive name hname).imp
    (Or.imp_right (plainCheck_mono hkeys)) (plainCheck_mono hkeys)
  requiredOwner name hname := plainCheck_mono hkeys (h.requiredOwner name hname)

/-! ## What is approved -/

/-- A loop over requirements that are all met succeeds. -/
theorem verify_loop_accepts {α : Type} {verify : SignState → α → Exec SignState}
    (meets : Finset PublicKey → α → Prop) {l : List α}
    (hverify : ∀ a ∈ l, ∀ st, tempAccount ∈ st.approvedBy → meets st.keys a →
      ∃ st', verify st a = .ok st' ∧ Checked active st st')
    {st : SignState} (htemp : tempAccount ∈ st.approvedBy) (hl : ∀ a ∈ l, meets st.keys a) :
    ∃ st', l.foldlM verify st = .ok st' ∧ Checked active st st' := by
  induction l generalizing st with
  | nil => exact ⟨st, rfl, .refl st⟩
  | cons a rest ih =>
    obtain ⟨st₁, hfirst, hchecked⟩ :=
      hverify a List.mem_cons_self st htemp (hl a List.mem_cons_self)
    obtain ⟨st', hrest, hchecked'⟩ := ih (fun b hb ↦ hverify b (List.mem_cons_of_mem a hb))
      (hchecked.approved htemp) fun b hb ↦ hchecked.keys ▸ hl b (List.mem_cons_of_mem a hb)
    refine ⟨st', ?_, hchecked.trans hchecked'⟩
    rw [List.foldlM_cons, hfirst]
    exact hrest

section Accepts

variable {st : SignState} (htemp : tempAccount ∈ st.approvedBy)

include htemp

theorem checkAuthority_accepts {auth : Authority} (hauth : FitsBelow active maxRecursion auth)
    (h : plainCheck st.keys active maxRecursion auth = true) :
    ∃ st', checkAuthority (fun name ↦ .ok (active name)) maxRecursion auth st = .ok (st', true) ∧
      Checked active st st' := by
  obtain ⟨st', ok, hcheck, hchecked, _, hcomplete⟩ :=
    checkAuthority_spec active maxRecursion auth st
  obtain rfl := hcomplete htemp hauth h
  exact ⟨st', hcheck, hchecked⟩

theorem verifyOther_accepts {auth : Authority} (hauth : FitsBelow active maxRecursion auth)
    (h : plainCheck st.keys active maxRecursion auth = true) :
    ∃ st', verifyOther (fun name ↦ .ok (active name)) maxRecursion st auth = .ok st' ∧
      Checked active st st' := by
  obtain ⟨st', hcheck, hchecked⟩ := checkAuthority_accepts htemp hauth h
  refine ⟨st', ?_, hchecked⟩
  rw [verifyOther, hcheck]
  rfl

theorem verifyOwner_accepts {name : AccountName}
    (hname : FitsBelow active maxRecursion (owner name))
    (h : plainCheck st.keys active maxRecursion (owner name) = true) :
    ∃ st', verifyOwner (fun name ↦ .ok (active name)) (fun name ↦ .ok (owner name)) maxRecursion
      st name = .ok st' ∧ Checked active st st' := by
  obtain ⟨st', hcheck, hchecked⟩ := checkAuthority_accepts htemp hname h
  refine ⟨st', ?_, hchecked⟩
  rw [verifyOwner, ok_bind, hcheck]
  rfl

theorem verifyActive_accepts {name : AccountName}
    (hactive : FitsBelow active maxRecursion (active name))
    (hname : FitsBelow active maxRecursion (owner name))
    (h : (name = tempAccount ∨ plainCheck st.keys active maxRecursion (active name) = true) ∨
      plainCheck st.keys active maxRecursion (owner name) = true) :
    ∃ st', verifyActive (fun name ↦ .ok (active name)) (fun name ↦ .ok (owner name)) maxRecursion
      st name = .ok st' ∧ Checked active st st' := by
  obtain ⟨st₁, ok, hcheck, hchecked, _, hcomplete⟩ :=
    AuthorityCall.run_spec active maxRecursion st (.account name)
  rw [AuthorityCall.run] at hcheck
  rw [verifyActive, hcheck]
  cases ok with
  | true => exact ⟨st₁, rfl, hchecked⟩
  | false =>
    -- The temp account and what is satisfied in itself have been approved by now.
    have howner : plainCheck st.keys active maxRecursion (owner name) = true := by
      refine h.resolve_left ?_
      rintro (rfl | hplain)
      · rw [checkAccount, if_pos htemp] at hcheck
        cases hcheck
      · exact absurd (hcomplete htemp hactive hplain) (by decide)
    rw [← hchecked.keys] at howner
    obtain ⟨st', hcheck', hchecked'⟩ :=
      checkAuthority_accepts (hchecked.approved htemp) hname howner
    refine ⟨st', ?_, hchecked.trans hchecked'⟩
    rw [ok_bind]
    simp only [Bool.false_eq_true, if_false, ok_bind, hcheck']
    rfl

end Accepts

/-- The weights of the authorities that operations are checked against, down to the recursion limit,
do not overflow. -/
structure RequiredFit (active owner : AccountName → Authority) (maxRecursion : ℕ)
    (operations : List FeeOperation) : Prop where
  requiredOther : ∀ auth ∈ (requiredAuthorities operations).2.2, FitsBelow active maxRecursion auth
  requiredActive : ∀ name ∈ (requiredAuthorities operations).1,
    FitsBelow active maxRecursion (active name) ∧ FitsBelow active maxRecursion (owner name)
  requiredOwner : ∀ name ∈ (requiredAuthorities operations).2.1,
    FitsBelow active maxRecursion (owner name)

/-- Nothing that is satisfied within the recursion limit is reported missing. -/
theorem noneMissing_of_within {sigs : List PublicKey}
    (hfit : RequiredFit active owner maxRecursion operations)
    (h : AuthorisedWithin active owner maxRecursion operations sigs.toFinset) :
    NoneMissing (verifyAuthorityAt (fun name ↦ .ok (active name))
      (fun name ↦ .ok (owner name)) maxRecursion operations sigs) := by
  have htemp : tempAccount ∈ (initial sigs []).approvedBy := List.mem_singleton.2 rfl
  have hkeys : (initial sigs []).keys = sigs.toFinset := by
    rw [keys_initial, List.append_nil]
  obtain ⟨st₁, hother, hchecked₁⟩ : ∃ st₁, (requiredAuthorities operations).2.2.foldlM
      (verifyOther (fun name ↦ .ok (active name)) maxRecursion) (initial sigs []) = .ok st₁ ∧
      Checked active (initial sigs []) st₁ := by
    apply verify_loop_accepts (fun keys auth ↦ plainCheck keys active maxRecursion auth = true) _
      htemp
    · rw [hkeys]
      exact h.requiredOther
    · intro auth hauth st htemp hplain
      exact verifyOther_accepts htemp (hfit.requiredOther auth hauth) hplain
  have htemp₁ := hchecked₁.approved htemp
  obtain ⟨st₂, hactive, hchecked₂⟩ : ∃ st₂, (requiredAuthorities operations).1.foldlM
      (verifyActive (fun name ↦ .ok (active name)) (fun name ↦ .ok (owner name)) maxRecursion)
      st₁ = .ok st₂ ∧ Checked active st₁ st₂ := by
    apply verify_loop_accepts (fun keys name ↦ (name = tempAccount ∨
      plainCheck keys active maxRecursion (active name) = true) ∨
      plainCheck keys active maxRecursion (owner name) = true) _ htemp₁
    · rw [hchecked₁.keys, hkeys]
      exact h.requiredActive
    · intro name hname st htemp hmeets
      obtain ⟨hfits, hfits'⟩ := hfit.requiredActive name hname
      exact verifyActive_accepts htemp hfits hfits' hmeets
  have htemp₂ := hchecked₂.approved htemp₁
  obtain ⟨st₃, howner, _⟩ : ∃ st₃, (requiredAuthorities operations).2.1.foldlM
      (verifyOwner (fun name ↦ .ok (active name)) (fun name ↦ .ok (owner name)) maxRecursion)
      st₂ = .ok st₃ ∧ Checked active st₂ st₃ := by
    apply verify_loop_accepts
      (fun keys name ↦ plainCheck keys active maxRecursion (owner name) = true) _ htemp₂
    · rw [hchecked₂.keys, hchecked₁.keys, hkeys]
      exact h.requiredOwner
    · intro name hname st htemp hplain
      exact verifyOwner_accepts htemp (hfit.requiredOwner name hname) hplain
  intro e he
  simp only [verifyAuthorityAt, hother, hactive, howner, ok_bind] at he
  split at he
  · cases he
    exact fun hmissing ↦ hmissing
  · cases he

/-- Where weights do not overflow, signatures may be added without an authority going missing,
unless what is required has derivations and these are not within the recursion limit. -/
theorem added_signatures_keep_approval {sigs sigs' : List PublicKey} (hsub : sigs ⊆ sigs')
    (hfit : RequiredFit active owner maxRecursion operations)
    (hwithin : Authorised active owner operations sigs.toFinset →
      AuthorisedWithin active owner maxRecursion operations sigs.toFinset ∨
        AuthorisedWithin active owner maxRecursion operations sigs'.toFinset)
    (h : NoneMissing (verifyAuthorityAt (fun name ↦ .ok (active name))
      (fun name ↦ .ok (owner name)) maxRecursion operations sigs)) :
    NoneMissing (verifyAuthorityAt (fun name ↦ .ok (active name))
      (fun name ↦ .ok (owner name)) maxRecursion operations sigs') := by
  have hkeys : sigs.toFinset ⊆ sigs'.toFinset := by
    intro key hkey
    exact List.mem_toFinset.2 (hsub (List.mem_toFinset.1 hkey))
  apply noneMissing_of_within hfit
  exact (hwithin (authorised_of_noneMissing h)).elim (fun hless ↦ hless.mono hkeys) id

def transferOfSix : List FeeOperation :=
  [⟨.transfer 6 5 ⟨1, sophiatxSymbol⟩ [], ⟨0, sophiatxSymbol⟩⟩]

/-- Account 6 and account 5, which controls it, keep their approval when another key signs. -/
theorem added_signatures_keep_approval_on_ring :
    [8] ⊆ [8, 9] ∧ NoneMissing (verifyAuthorityAt (fun name ↦ .ok (ringActive name))
        (fun name ↦ .ok (ringActive name)) 2 transferOfSix [8]) ∧
      NoneMissing (verifyAuthorityAt (fun name ↦ .ok (ringActive name))
        (fun name ↦ .ok (ringActive name)) 2 transferOfSix [8, 9]) := by
  have hfits : ∀ name, FitsBelow ringActive 2 (ringActive name) :=
    fun name ↦ fitsBelow_of_forall ringActive_fits (ringActive_fits name)
  have hfit : RequiredFit ringActive ringActive 2 transferOfSix :=
    ⟨fun _ hauth ↦ absurd hauth List.not_mem_nil, fun name _ ↦ ⟨hfits name, hfits name⟩,
      fun name _ ↦ hfits name⟩
  have hnone : NoneMissing (verifyAuthorityAt (fun name ↦ .ok (ringActive name))
      (fun name ↦ .ok (ringActive name)) 2 transferOfSix [8]) := by
    have hok : verifyAuthorityAt (fun name ↦ .ok (ringActive name))
        (fun name ↦ .ok (ringActive name)) 2 transferOfSix [8] = .ok () := by decide
    intro e he
    rw [hok] at he
    cases he
  refine ⟨by decide, hnone, added_signatures_keep_approval (by decide) hfit (fun _ ↦ .inl ?_) hnone⟩
  exact ⟨by decide, by decide, by decide⟩

/-- Account 10 approves with key 2 or through account 14, and account 11 through accounts 12, 13
and 14 one after another. Account 14 approves with key 1. -/
def chainActive (name : AccountName) : Authority :=
  match name with
  | 10 => ⟨1, [(14, 1)], [(2, 1)]⟩
  | 11 => ⟨1, [(12, 1)], []⟩
  | 12 => ⟨1, [(13, 1)], []⟩
  | 13 => ⟨1, [(14, 1)], []⟩
  | 14 => ⟨1, [], [(1, 1)]⟩
  | _ => ⟨1, [], []⟩

def transferOfTenAndEleven : List FeeOperation :=
  [⟨.transfer 10 6 ⟨1, sophiatxSymbol⟩ [], ⟨0, sophiatxSymbol⟩⟩,
    ⟨.transfer 11 6 ⟨1, sophiatxSymbol⟩ [], ⟨0, sophiatxSymbol⟩⟩]

/-- With key 1 alone the check of account 10 comes to account 14, and with that account 11 approves
at the recursion limit. With key 2 as well account 10 approves at once and account 11 is missing. -/
theorem added_signature_removes_approval :
    [1] ⊆ [1, 2] ∧ NoneMissing (verifyAuthorityAt (fun name ↦ .ok (chainActive name))
        (fun _ ↦ .ok ⟨1, [], []⟩) 2 transferOfTenAndEleven [1]) ∧
      ¬ NoneMissing (verifyAuthorityAt (fun name ↦ .ok (chainActive name))
        (fun _ ↦ .ok ⟨1, [], []⟩) 2 transferOfTenAndEleven [1, 2]) := by
  have hok : verifyAuthorityAt (fun name ↦ .ok (chainActive name))
      (fun _ ↦ .ok ⟨1, [], []⟩) 2 transferOfTenAndEleven [1] = .ok () := by decide
  have hmissing : verifyAuthorityAt (fun name ↦ .ok (chainActive name))
      (fun _ ↦ .ok ⟨1, [], []⟩) 2 transferOfTenAndEleven [1, 2] =
        .error (.missingActiveAuth 11) := by decide
  refine ⟨by decide, fun e he ↦ ?_, fun hnone ↦ hnone _ hmissing trivial⟩
  rw [hok] at he
  cases he

end SophiaTX.Protocol
