import Mathlib.Data.Finset.Basic
import Mathlib.Data.Finset.Dedup
import Mathlib.Algebra.Order.BigOperators.Group.List
import SophiaTX.Lib.Partial
import SophiaTX.Protocol.SignState

/-!
# What a successful signature check says

An authority is satisfied when there is a derivation of it from keys and the temp account. The
check follows authorities only to a fixed depth, but remembers the accounts that have approved,
whatever the depth they were met at. It accepts nothing without a derivation, and misses no
derivation within its depth, unless the weights of an authority overflow.
-/

namespace SophiaTX.Protocol

open SophiaTX.Lib

/-! ## Derivations -/

/-- The weight of the entries that a predicate grants. -/
def grantedWeight {α : Type} (p : α → Bool) (entries : List (α × ℕ)) : ℕ :=
  ((entries.filter fun entry ↦ p entry.1).map Prod.snd).sum

/-- Derivations of an authority from keys and the temp account, of any depth. -/
inductive Satisfied (keys : Finset PublicKey) (active : AccountName → Authority) :
    Authority → Prop
  | intro (auth : Authority) (approved : Finset AccountName)
      (happroved : ∀ name ∈ approved, name ≠ tempAccount → Satisfied keys active (active name))
      (hweight : auth.weightThreshold ≤
        grantedWeight (fun key ↦ decide (key ∈ keys)) auth.keyAuths +
          grantedWeight (fun name ↦ decide (name ∈ approved)) auth.accountAuths) :
      Satisfied keys active auth

/-- The plain recursive meaning of an authority, cut off below a number of levels. -/
def plainCheck (keys : Finset PublicKey) (active : AccountName → Authority) :
    ℕ → Authority → Bool
  | 0, auth => decide (auth.weightThreshold ≤
      grantedWeight (fun key ↦ decide (key ∈ keys)) auth.keyAuths +
        grantedWeight (fun name ↦ decide (name = tempAccount)) auth.accountAuths)
  | levels + 1, auth => decide (auth.weightThreshold ≤
      grantedWeight (fun key ↦ decide (key ∈ keys)) auth.keyAuths +
        grantedWeight (fun name ↦ decide (name = tempAccount) ||
          plainCheck keys active levels (active name)) auth.accountAuths)

section GrantedWeight

variable {α : Type} {p q : α → Bool}

@[simp]
theorem grantedWeight_nil : grantedWeight p [] = 0 := rfl

@[simp]
theorem grantedWeight_cons (entry : α × ℕ) (rest : List (α × ℕ)) :
    grantedWeight p (entry :: rest) = (if p entry.1 then entry.2 else 0) +
      grantedWeight p rest := by
  unfold grantedWeight
  cases h : p entry.1 <;> simp [h]

theorem grantedWeight_mono {entries : List (α × ℕ)}
    (h : ∀ entry ∈ entries, p entry.1 = true → q entry.1 = true) :
    grantedWeight p entries ≤ grantedWeight q entries := by
  induction entries with
  | nil => exact le_rfl
  | cons entry rest ih =>
    rw [grantedWeight_cons, grantedWeight_cons]
    refine Nat.add_le_add ?_ (ih fun other hother ↦ h other (List.mem_cons_of_mem _ hother))
    split_ifs with hp hq
    · exact le_rfl
    · exact absurd (h entry List.mem_cons_self hp) hq
    · exact Nat.zero_le _
    · exact le_rfl

end GrantedWeight

/-! ## Weights that fit -/

/-- No choice of weights adds up to less than the threshold and, with the next one, to more than
32 bits hold. -/
def Fits (threshold total : ℕ) (weights : List ℕ) : Prop :=
  ∀ chosen w, (chosen ++ [w]).Sublist weights → total + chosen.sum < threshold →
    total + chosen.sum + w < 4294967296

theorem Fits.skip {threshold total w : ℕ} {weights : List ℕ}
    (h : Fits threshold total (w :: weights)) : Fits threshold total weights :=
  fun chosen w' hsub ↦ h chosen w' (hsub.trans (List.sublist_cons_self _ _))

theorem Fits.take {threshold total w : ℕ} {weights : List ℕ}
    (h : Fits threshold total (w :: weights)) (hlt : total < threshold) :
    uint32 (total + w) = total + w ∧ Fits threshold (total + w) weights := by
  refine ⟨Nat.mod_eq_of_lt ?_, fun chosen w' hsub hless ↦ ?_⟩
  · have hfirst := h [] w ((List.nil_sublist weights).cons_cons w)
    rw [List.sum_nil, add_zero] at hfirst
    exact hfirst hlt
  · have hmore := h (w :: chosen) w' (hsub.cons_cons w)
    rw [List.sum_cons, ← add_assoc] at hmore
    exact hmore hless

theorem Fits.of_sum {threshold : ℕ} {weights : List ℕ} (h : weights.sum < 4294967296) :
    Fits threshold 0 weights := by
  intro chosen w hsub _
  have hle : (chosen ++ [w]).sum ≤ weights.sum := hsub.sum_le_sum fun _ _ ↦ Nat.zero_le _
  rw [List.sum_append, List.sum_singleton] at hle
  omega

/-- The weights of an authority do not overflow. -/
def Authority.Fits (auth : Authority) : Prop :=
  Protocol.Fits auth.weightThreshold 0
    (auth.keyAuths.map Prod.snd ++ auth.accountAuths.map Prod.snd)

/-- The weights of an authority, and of the active authorities below it down to a number of levels,
do not overflow. -/
def FitsBelow (active : AccountName → Authority) : ℕ → Authority → Prop
  | 0, auth => auth.Fits
  | levels + 1, auth => auth.Fits ∧
      ∀ entry ∈ auth.accountAuths, FitsBelow active levels (active entry.1)

theorem fitsBelow_of_forall {active : AccountName → Authority}
    (h : ∀ name, (active name).Fits) {levels : ℕ} {auth : Authority} (hauth : auth.Fits) :
    FitsBelow active levels auth := by
  induction levels generalizing auth with
  | zero => exact hauth
  | succ levels ih => exact ⟨hauth, fun entry _ ↦ ih (h entry.1)⟩

theorem uint32_le (n : ℕ) : uint32 n ≤ n := Nat.mod_le _ _

namespace SignState

/-! ## Keys -/

/-- The keys that signed or can sign. -/
def keys (st : SignState) : Finset PublicKey :=
  (st.providedSignatures.map Prod.fst).toFinset ∪ st.availableKeys.toFinset

theorem signedBy_spec (st : SignState) (key : PublicKey) :
    (st.signedBy key).2 = decide (key ∈ st.keys) ∧ (st.signedBy key).1.keys = st.keys ∧
      (st.signedBy key).1.approvedBy = st.approvedBy := by
  unfold signedBy
  split_ifs with hprovided havailable
  · refine ⟨(decide_eq_true ?_).symm, ?_, rfl⟩
    · exact Finset.mem_union_left _ (List.mem_toFinset.2 hprovided)
    · have hsame : (st.providedSignatures.map fun sig ↦
          if sig.1 = key then (key, true) else sig).map Prod.fst =
            st.providedSignatures.map Prod.fst := by
        rw [List.map_map]
        apply List.map_congr_left
        intro sig _
        by_cases hsig : sig.1 = key <;> simp [hsig]
      simp only [keys, hsame]
  · refine ⟨(decide_eq_true ?_).symm, ?_, rfl⟩
    · exact Finset.mem_union_right _ (List.mem_toFinset.2 havailable)
    · ext k
      simp only [keys, List.map_append, List.map_cons, List.map_nil, Finset.mem_union,
        List.mem_toFinset, List.mem_append, List.mem_singleton]
      constructor
      · rintro ((h | rfl) | h)
        · exact .inl h
        · exact .inr havailable
        · exact .inr h
      · rintro (h | h)
        · exact .inl (.inl h)
        · exact .inr h
  · refine ⟨(decide_eq_false ?_).symm, rfl, rfl⟩
    rw [keys, Finset.mem_union, List.mem_toFinset, List.mem_toFinset]
    exact fun h ↦ h.elim hprovided havailable

/-- The loop over the keys of an authority: what it cannot do, and what it does where weights
fit. -/
theorem keyWeight_spec {threshold : ℕ} {entries : List (PublicKey × ℕ)} {st st' : SignState}
    {total total' : ℕ} {done : Bool}
    (h : keyWeight threshold entries st total = (st', total', done)) :
    (st'.keys = st.keys ∧ st'.approvedBy = st.approvedBy) ∧
      (done = true →
        threshold ≤ total + grantedWeight (fun key ↦ decide (key ∈ st.keys)) entries) ∧
      (done = false →
        total' ≤ total + grantedWeight (fun key ↦ decide (key ∈ st.keys)) entries) ∧
      ∀ more, Fits threshold total (entries.map Prod.snd ++ more) → total < threshold →
        done = false → total' = total + grantedWeight (fun key ↦ decide (key ∈ st.keys)) entries ∧
          total' < threshold ∧ Fits threshold total' more := by
  induction entries generalizing st total with
  | nil =>
    cases h
    exact ⟨⟨rfl, rfl⟩, fun hdone ↦ (by cases hdone), fun _ ↦ le_rfl,
      fun more hfits hlt _ ↦ ⟨rfl, hlt, hfits⟩⟩
  | cons entry rest ih =>
    obtain ⟨key, weight⟩ := entry
    obtain ⟨hsigned, hkeys, hsame⟩ := st.signedBy_spec key
    rcases hst : st.signedBy key with ⟨st₁, signed⟩
    rw [hst] at hsigned hkeys hsame
    dsimp only at hsigned hkeys hsame
    simp only [keyWeight, hst] at h
    cases signed with
    | false =>
      obtain ⟨⟨hkeys', hsame'⟩, hdone, hle, hfit⟩ := ih h
      have hgranted : grantedWeight (fun key ↦ decide (key ∈ st.keys)) ((key, weight) :: rest) =
          grantedWeight (fun key ↦ decide (key ∈ st₁.keys)) rest := by
        rw [grantedWeight_cons, ← hsigned, hkeys]
        simp
      rw [hgranted]
      exact ⟨⟨hkeys'.trans hkeys, hsame'.trans hsame⟩, hdone, hle,
        fun more hfits ↦ hfit more hfits.skip⟩
    | true =>
      have hgranted : grantedWeight (fun key ↦ decide (key ∈ st.keys)) ((key, weight) :: rest) =
          weight + grantedWeight (fun key ↦ decide (key ∈ st₁.keys)) rest := by
        rw [grantedWeight_cons, ← hsigned, hkeys]
        simp
      have hwrapped := uint32_le (total + weight)
      rw [hgranted]
      dsimp only at h
      split_ifs at h with hreached
      · cases h
        refine ⟨⟨hkeys, hsame⟩, fun _ ↦ by omega, fun hdone ↦ (by cases hdone),
          fun _ _ _ hdone ↦ (by cases hdone)⟩
      · obtain ⟨⟨hkeys', hsame'⟩, hdone, hle, hfit⟩ := ih h
        refine ⟨⟨hkeys'.trans hkeys, hsame'.trans hsame⟩, fun h ↦ ?_, fun h ↦ ?_,
          fun more hfits hlt hnot ↦ ?_⟩
        · have := hdone h
          omega
        · have := hle h
          omega
        · obtain ⟨hexact, hrest⟩ := hfits.take hlt
          rw [hexact] at hfit hreached
          have hresult := hfit more hrest (not_le.1 hreached) hnot
          rwa [add_assoc] at hresult

/-! ## Accounts -/

variable {active : AccountName → Authority} {st st' st'' : SignState}

/-- Every approved account has a derivation. -/
def Derived (active : AccountName → Authority) (st : SignState) : Prop :=
  ∀ name ∈ st.approvedBy, name ≠ tempAccount → Satisfied st.keys active (active name)

/-- What every check keeps. -/
structure Checked (active : AccountName → Authority) (st st' : SignState) : Prop where
  keys : st'.keys = st.keys
  approved : st.approvedBy ⊆ st'.approvedBy
  derived : Derived active st → Derived active st'

theorem Checked.refl (st : SignState) : Checked active st st :=
  ⟨rfl, List.Subset.refl _, id⟩

theorem Checked.trans (h : Checked active st st') (h' : Checked active st' st'') :
    Checked active st st'' :=
  ⟨h'.keys.trans h.keys, List.Subset.trans h.approved h'.approved,
    fun hst ↦ h'.derived (h.derived hst)⟩

/-- A check of accounts that is right about all of them, and that finds those of a predicate. -/
def Decides (active : AccountName → Authority) (found : SignState → AccountName → Bool)
    (check : AccountName → SignState → Exec (SignState × Bool)) : Prop :=
  ∀ name st, ∃ st' approved, check name st = .ok (st', approved) ∧ Checked active st st' ∧
    (Derived active st → approved = true → Satisfied st.keys active (active name)) ∧
    (tempAccount ∈ st.approvedBy → found st name = true → approved = true)

/-- What an account of an authority adds to the state. -/
theorem approves_spec {check : Option (AccountName → SignState → Exec (SignState × Bool))}
    {found : SignState → AccountName → Bool}
    (hcheck : ∀ c, check = some c → Decides active found c)
    (hnone : check = none → ∀ st name, found st name = false) (name : AccountName)
    (st : SignState) :
    ∃ st' approved, approves check name st = .ok (st', approved) ∧ Checked active st st' ∧
      (approved = true → name ∈ st'.approvedBy) ∧
      (tempAccount ∈ st.approvedBy → (name = tempAccount ∨ found st name = true) →
        approved = true) := by
  unfold approves
  split_ifs with hmem
  · exact ⟨st, true, rfl, .refl st, fun _ ↦ hmem, fun _ _ ↦ rfl⟩
  cases check with
  | none =>
    refine ⟨st, false, rfl, .refl st, fun h ↦ (by cases h), fun htemp hfound ↦ ?_⟩
    rcases hfound with rfl | hfound
    · exact absurd htemp hmem
    · rw [hnone rfl] at hfound
      cases hfound
  | some c =>
    obtain ⟨st₁, approved, hc, hchecked, hsound, hcomplete⟩ := hcheck c rfl name st
    have hfound : tempAccount ∈ st.approvedBy → (name = tempAccount ∨ found st name = true) →
        approved = true := by
      rintro htemp (rfl | hfound)
      · exact absurd htemp hmem
      · exact hcomplete htemp hfound
    cases approved with
    | false =>
      refine ⟨st₁, false, ?_, hchecked, fun h ↦ (by cases h), hfound⟩
      simp only [hc]
      rfl
    | true =>
      refine ⟨{ st₁ with approvedBy := name :: st₁.approvedBy }, true, ?_,
        ⟨hchecked.keys, List.Subset.trans hchecked.approved (List.subset_cons_self _ _),
          fun hst ↦ ?_⟩,
        fun _ ↦ List.mem_cons_self, fun _ _ ↦ rfl⟩
      · simp only [hc]
        rfl
      · intro other hother hne
        have hkeys : SignState.keys { st₁ with approvedBy := name :: st₁.approvedBy } = st₁.keys :=
          rfl
        rw [hkeys]
        rcases List.mem_cons.1 hother with rfl | hother
        · rw [hchecked.keys]
          exact hsound hst rfl
        · exact hchecked.derived hst other hother hne

/-- The loop over the accounts of an authority. -/
theorem accountWeight_spec {check : Option (AccountName → SignState → Exec (SignState × Bool))}
    {found : Finset PublicKey → AccountName → Bool}
    (hcheck : ∀ c, check = some c → Decides active (fun st ↦ found st.keys) c)
    (hnone : check = none → ∀ keys name, found keys name = false) (threshold : ℕ)
    (entries : List (AccountName × ℕ)) (st : SignState) (total : ℕ) :
    ∃ st' ok, accountWeight threshold check entries st total = .ok (st', ok) ∧
      Checked active st st' ∧
      (ok = true → threshold ≤ total +
        grantedWeight (fun name ↦ decide (name ∈ st'.approvedBy.toFinset)) entries) ∧
      (threshold = 0 → ok = true) ∧
      (tempAccount ∈ st.approvedBy → Fits threshold total (entries.map Prod.snd) →
        total < threshold → threshold ≤ total + grantedWeight (fun name ↦
          decide (name = tempAccount) || found st.keys name) entries → ok = true) := by
  induction entries generalizing st total with
  | nil =>
    refine ⟨st, decide (threshold ≤ total), rfl, .refl st, fun h ↦ of_decide_eq_true h,
      fun hzero ↦ decide_eq_true (hzero ▸ Nat.zero_le total), fun _ _ hlt hle ↦ ?_⟩
    exact absurd hle (not_le.2 hlt)
  | cons entry rest ih =>
    obtain ⟨name, weight⟩ := entry
    obtain ⟨st₁, approved, happroves, hchecked, hmem, hcomplete⟩ :=
      approves_spec hcheck (fun h st ↦ hnone h st.keys) name st
    cases approved with
    | false =>
      obtain ⟨st', ok, hrest, hchecked', hsound, hzero, hcomplete'⟩ := ih st₁ total
      refine ⟨st', ok, ?_, hchecked.trans hchecked', fun h ↦ (hsound h).trans ?_, hzero,
        fun htemp hfits hlt hle ↦ hcomplete' (hchecked.approved htemp) hfits.skip hlt ?_⟩
      · simp only [accountWeight, happroves]
        exact hrest
      · rw [grantedWeight_cons]
        omega
      · have hnot : (decide (name = tempAccount) || found st.keys name) = false := by
          rw [Bool.eq_false_iff]
          intro hfound
          rw [Bool.or_eq_true, decide_eq_true_eq] at hfound
          cases hcomplete htemp hfound
        rw [grantedWeight_cons, hnot, if_neg Bool.false_ne_true, zero_add] at hle
        rwa [hchecked.keys]
    | true =>
      have hwrapped := uint32_le (total + weight)
      have hgranted : ∀ st' : SignState, st₁.approvedBy ⊆ st'.approvedBy →
          grantedWeight (fun name ↦ decide (name ∈ st'.approvedBy.toFinset))
            ((name, weight) :: rest) = weight +
              grantedWeight (fun name ↦ decide (name ∈ st'.approvedBy.toFinset)) rest := by
        intro st' hsub
        have hname : name ∈ st'.approvedBy.toFinset := List.mem_toFinset.2 (hsub (hmem rfl))
        rw [grantedWeight_cons, decide_eq_true hname, if_pos rfl]
      by_cases hreached : threshold ≤ uint32 (total + weight)
      · refine ⟨st₁, true, ?_, hchecked, fun _ ↦ ?_, fun _ ↦ rfl, fun _ _ _ _ ↦ rfl⟩
        · simp only [accountWeight, happroves]
          exact if_pos hreached
        · rw [hgranted st₁ (List.Subset.refl _)]
          omega
      · obtain ⟨st', ok, hrest, hchecked', hsound, hzero, hcomplete'⟩ :=
          ih st₁ (uint32 (total + weight))
        refine ⟨st', ok, ?_, hchecked.trans hchecked', fun h ↦ ?_, hzero,
          fun htemp hfits hlt hle ↦ ?_⟩
        · simp only [accountWeight, happroves]
          exact (if_neg hreached).trans hrest
        · have hrest := hsound h
          rw [hgranted st' hchecked'.approved]
          omega
        · obtain ⟨hexact, hfits'⟩ := hfits.take hlt
          rw [hexact] at hcomplete' hreached
          refine hcomplete' (hchecked.approved htemp) hfits' (not_le.1 hreached) ?_
          rw [hchecked.keys]
          refine hle.trans ?_
          rw [grantedWeight_cons]
          split_ifs <;> omega

/-! ## Authorities -/

theorem checkLevel_spec (active : AccountName → Authority)
    (check : Option (AccountName → SignState → Exec (SignState × Bool)))
    (found : Finset PublicKey → AccountName → Bool)
    (hcheck : ∀ c, check = some c → Decides active (fun st ↦ found st.keys) c)
    (hnone : check = none → ∀ keys name, found keys name = false) (auth : Authority)
    (st : SignState) :
    ∃ st' ok, checkLevel check auth st = .ok (st', ok) ∧ Checked active st st' ∧
      (Derived active st → ok = true → Satisfied st.keys active auth) ∧
      (tempAccount ∈ st.approvedBy → auth.Fits → auth.weightThreshold ≤
        grantedWeight (fun key ↦ decide (key ∈ st.keys)) auth.keyAuths +
          grantedWeight (fun name ↦ decide (name = tempAccount) || found st.keys name)
            auth.accountAuths → ok = true) := by
  rcases hweight : keyWeight auth.weightThreshold auth.keyAuths st 0 with ⟨st₁, total, done⟩
  obtain ⟨⟨hkeys, hsame⟩, hdone, hle, hfit⟩ := keyWeight_spec hweight
  rw [zero_add] at hdone hle
  have hchecked₁ : Checked active st st₁ := by
    refine ⟨hkeys, hsame ▸ List.Subset.refl _, fun hst name hname ↦ ?_⟩
    rw [hkeys]
    exact hst name (hsame ▸ hname)
  cases done with
  | true =>
    refine ⟨st₁, true, ?_, hchecked₁, fun _ _ ↦ ?_, fun _ _ _ ↦ rfl⟩
    · rw [checkLevel, hweight]
      rfl
    · exact .intro auth ∅ (fun _ h ↦ absurd h (Finset.notMem_empty _))
        ((hdone rfl).trans (Nat.le_add_right _ _))
  | false =>
    obtain ⟨st', ok, hloop, hchecked, hsound, hzero, hcomplete⟩ :=
      accountWeight_spec hcheck hnone auth.weightThreshold auth.accountAuths st₁ total
    have hall := hchecked₁.trans hchecked
    refine ⟨st', ok, ?_, hall, fun hst hok ↦ ?_, fun htemp hfits hweights ↦ ?_⟩
    · rw [checkLevel, hweight]
      exact hloop
    · refine .intro auth st'.approvedBy.toFinset (fun name hname hne ↦ ?_) ?_
      · rw [← hall.keys]
        exact hall.derived hst name (List.mem_toFinset.1 hname) hne
      · exact (hsound hok).trans (Nat.add_le_add_right (hle rfl) _)
    · by_cases hthreshold : auth.weightThreshold = 0
      · exact hzero hthreshold
      · obtain ⟨htotal, hlt, hfits'⟩ := hfit _ hfits (Nat.pos_of_ne_zero hthreshold) rfl
        refine hcomplete (hchecked₁.approved htemp) hfits' hlt ?_
        rw [hkeys, htotal, zero_add]
        exact hweights

/-- A check of an authority with a number of levels left. -/
theorem checkAuthority_spec (active : AccountName → Authority) (levels : ℕ) (auth : Authority)
    (st : SignState) :
    ∃ st' ok, checkAuthority (fun name ↦ .ok (active name)) levels auth st = .ok (st', ok) ∧
      Checked active st st' ∧ (Derived active st → ok = true → Satisfied st.keys active auth) ∧
      (tempAccount ∈ st.approvedBy → FitsBelow active levels auth →
        plainCheck st.keys active levels auth = true → ok = true) := by
  induction levels generalizing auth st with
  | zero =>
    obtain ⟨st', ok, hlevel, hchecked, hsound, hcomplete⟩ :=
      checkLevel_spec active none (fun _ _ ↦ false)
        (fun c hc ↦ (by cases hc)) (fun _ _ _ ↦ rfl) auth st
    refine ⟨st', ok, hlevel, hchecked, hsound, fun htemp hfits hplain ↦ hcomplete htemp hfits ?_⟩
    simpa [plainCheck] using hplain
  | succ levels ih =>
    classical
    -- Accounts whose weights may overflow are not counted on.
    obtain ⟨st', ok, hlevel, hchecked, hsound, hcomplete⟩ :=
      checkLevel_spec active (some fun name st ↦
          checkAuthority (fun name ↦ .ok (active name)) levels (active name) st)
        (fun keys name ↦ decide (FitsBelow active levels (active name)) &&
          plainCheck keys active levels (active name))
        (fun c hc ↦ by
          cases hc
          intro name st
          obtain ⟨st', ok, hcheck, hchecked, hsound, hcomplete⟩ := ih (active name) st
          refine ⟨st', ok, hcheck, hchecked, hsound, fun htemp hfound ↦ ?_⟩
          rw [Bool.and_eq_true, decide_eq_true_eq] at hfound
          exact hcomplete htemp hfound.1 hfound.2)
        (fun h ↦ (by cases h)) auth st
    refine ⟨st', ok, hlevel, hchecked, hsound,
      fun htemp hfits hplain ↦ hcomplete htemp hfits.1 ?_⟩
    rw [plainCheck, decide_eq_true_eq] at hplain
    apply hplain.trans
    apply Nat.add_le_add_left
    apply grantedWeight_mono
    intro entry hentry hfound
    rw [Bool.or_eq_true] at hfound ⊢
    refine hfound.imp_right fun hplain ↦ ?_
    rw [Bool.and_eq_true, decide_eq_true_eq]
    exact ⟨hfits.2 entry hentry, hplain⟩

end SignState

/-! ## Sequences of calls -/

/-- The two forms of `check_authority`. -/
inductive AuthorityCall where
  | authority (auth : Authority)
  | account (name : AccountName)

namespace AuthorityCall

/-- The authority a call is about. -/
def target (active : AccountName → Authority) : AuthorityCall → Authority
  | authority auth => auth
  | account name => active name

def run (getActive : AccountName → Exec Authority) (maxRecursion : ℕ) (st : SignState) :
    AuthorityCall → Exec (SignState × Bool)
  | authority auth => SignState.checkAuthority getActive maxRecursion auth st
  | account name => SignState.checkAccount getActive maxRecursion name st

/-- The results of calls on one state, one after another. -/
def runAll (getActive : AccountName → Exec Authority) (maxRecursion : ℕ) :
    List AuthorityCall → SignState → Exec (List Bool)
  | [], _ => pure []
  | call :: rest, st => do
    let (st, ok) ← call.run getActive maxRecursion st
    let results ← runAll getActive maxRecursion rest st
    pure (ok :: results)

variable {active : AccountName → Authority}

open SignState

theorem run_spec (active : AccountName → Authority) (maxRecursion : ℕ) (st : SignState)
    (call : AuthorityCall) :
    ∃ st' ok, call.run (fun name ↦ .ok (active name)) maxRecursion st = .ok (st', ok) ∧
      Checked active st st' ∧
      (Derived active st → ok = true →
        call = .account tempAccount ∨ Satisfied st.keys active (call.target active)) ∧
      (tempAccount ∈ st.approvedBy → FitsBelow active maxRecursion (call.target active) →
        plainCheck st.keys active maxRecursion (call.target active) = true → ok = true) := by
  cases call with
  | authority auth =>
    obtain ⟨st', ok, hcheck, hchecked, hsound, hcomplete⟩ :=
      checkAuthority_spec active maxRecursion auth st
    exact ⟨st', ok, hcheck, hchecked, fun hst hok ↦ .inr (hsound hst hok), hcomplete⟩
  | account name =>
    simp only [run, checkAccount, target]
    split_ifs with hmem
    · refine ⟨st, true, rfl, .refl st, fun hst _ ↦ ?_, fun _ _ _ ↦ rfl⟩
      by_cases hname : name = tempAccount
      · exact .inl (congrArg account hname)
      · exact .inr (hst name hmem hname)
    · obtain ⟨st', ok, hcheck, hchecked, hsound, hcomplete⟩ :=
        checkAuthority_spec active maxRecursion (active name) st
      exact ⟨st', ok, hcheck, hchecked, fun hst hok ↦ .inr (hsound hst hok), hcomplete⟩

theorem runAll_spec (maxRecursion : ℕ) (calls : List AuthorityCall) (st : SignState)
    (hst : Derived active st) (htemp : tempAccount ∈ st.approvedBy) :
    ∃ results, runAll (fun name ↦ .ok (active name)) maxRecursion calls st = .ok results ∧
      results.length = calls.length ∧
      ∀ call ok, (call, ok) ∈ calls.zip results →
        (ok = true → call = .account tempAccount ∨ Satisfied st.keys active (call.target active)) ∧
        (FitsBelow active maxRecursion (call.target active) →
          plainCheck st.keys active maxRecursion (call.target active) = true → ok = true) := by
  induction calls generalizing st with
  | nil => exact ⟨[], rfl, rfl, fun _ _ h ↦ absurd h List.not_mem_nil⟩
  | cons first rest ih =>
    obtain ⟨st₁, ok, hfirst, hchecked, hsound, hcomplete⟩ :=
      run_spec active maxRecursion st first
    obtain ⟨results, hrest, hlength, hall⟩ :=
      ih st₁ (hchecked.derived hst) (hchecked.approved htemp)
    refine ⟨ok :: results, ?_, congrArg Nat.succ hlength, fun call ok' hmem ↦ ?_⟩
    · simp only [runAll, hfirst, bind_eq_ok]
      exact ⟨_, rfl, results, hrest, rfl⟩
    · rw [List.zip_cons_cons, List.mem_cons] at hmem
      rcases hmem with hmem | hmem
      · cases hmem
        exact ⟨hsound hst, hcomplete htemp⟩
      · rw [← hchecked.keys]
        exact hall call ok' hmem

end AuthorityCall

namespace SignState

variable {active owner : AccountName → Authority}

theorem derived_initial (active : AccountName → Authority) (sigs available : List PublicKey) :
    Derived active (initial sigs available) :=
  fun _ hname hne ↦ absurd (List.mem_singleton.1 hname) hne

theorem keys_initial (sigs available : List PublicKey) :
    (initial sigs available).keys = (sigs ++ available).toFinset := by
  ext key
  simp [keys, initial]

/-- The loops of `verify_authority` keep derivations and accept nothing without one. -/
theorem verify_loop {α : Type} {verify : SignState → α → Exec SignState}
    (accepts : Finset PublicKey → α → Prop)
    (hverify : ∀ st st' a, verify st a = .ok st' → Derived active st →
      Checked active st st' ∧ accepts st.keys a) {l : List α} {st st' : SignState}
    (h : l.foldlM verify st = .ok st') (hst : Derived active st) :
    Checked active st st' ∧ ∀ a ∈ l, accepts st.keys a := by
  induction l generalizing st with
  | nil =>
    rw [List.foldlM_nil, pure_eq_ok] at h
    exact h ▸ ⟨.refl st, fun _ ha ↦ absurd ha List.not_mem_nil⟩
  | cons a rest ih =>
    rw [List.foldlM_cons, bind_eq_ok] at h
    obtain ⟨st₁, hfirst, h⟩ := h
    obtain ⟨hchecked, haccepts⟩ := hverify st st₁ a hfirst hst
    obtain ⟨hchecked', hall⟩ := ih h (hchecked.derived hst)
    refine ⟨hchecked.trans hchecked', fun b hb ↦ ?_⟩
    rcases List.mem_cons.1 hb with rfl | hb
    · exact haccepts
    · exact hchecked.keys ▸ hall b hb

end SignState

open SignState in
/-- The checks of `verify_authority` find nothing missing only where there are derivations of all
that is required. -/
theorem satisfied_of_verify_loops {active owner : AccountName → Authority} {maxRecursion : ℕ}
    {activeNames ownerNames : List AccountName} {others : List Authority} {sigs : List PublicKey}
    {st₁ st₂ st₃ : SignState}
    (hother : others.foldlM (verifyOther (fun name ↦ .ok (active name)) maxRecursion)
      (initial sigs []) = .ok st₁)
    (hactive : activeNames.foldlM (verifyActive (fun name ↦ .ok (active name))
      (fun name ↦ .ok (owner name)) maxRecursion) st₁ = .ok st₂)
    (howner : ownerNames.foldlM (verifyOwner (fun name ↦ .ok (active name))
      (fun name ↦ .ok (owner name)) maxRecursion) st₂ = .ok st₃) :
    (∀ auth ∈ others, Satisfied sigs.toFinset active auth) ∧
      (∀ name ∈ activeNames, name = tempAccount ∨
        Satisfied sigs.toFinset active (active name) ∨
        Satisfied sigs.toFinset active (owner name)) ∧
      ∀ name ∈ ownerNames, Satisfied sigs.toFinset active (owner name) := by
  have hcheck : ∀ {auth : Authority} {st st' : SignState} {ok : Bool},
      checkAuthority (fun name ↦ .ok (active name)) maxRecursion auth st = .ok (st', ok) →
      Derived active st → Checked active st st' ∧ (ok = true → Satisfied st.keys active auth) := by
    intro auth st st' ok hresult hst
    obtain ⟨st'', ok', hspec, hchecked, hsound, _⟩ :=
      checkAuthority_spec active maxRecursion auth st
    rw [hresult] at hspec
    cases hspec
    exact ⟨hchecked, hsound hst⟩
  obtain ⟨hchecked₁, hother⟩ := verify_loop (fun keys auth ↦ Satisfied keys active auth)
    (fun st st' auth hverify hst ↦ by
      simp only [verifyOther, bind_eq_ok] at hverify
      obtain ⟨⟨st'', ok⟩, hresult, hverify⟩ := hverify
      obtain ⟨hchecked, hsound⟩ := hcheck hresult hst
      dsimp only at hverify
      split_ifs at hverify with hok
      cases hverify
      exact ⟨hchecked, hsound hok⟩) hother (derived_initial active sigs [])
  have hderived₁ := hchecked₁.derived (derived_initial active sigs [])
  obtain ⟨hchecked₂, hactive⟩ := verify_loop (fun keys name ↦ name = tempAccount ∨
      Satisfied keys active (active name) ∨ Satisfied keys active (owner name))
    (fun st st' name hverify hst ↦ by
      simp only [verifyActive, bind_eq_ok] at hverify
      obtain ⟨⟨st'', ok⟩, hresult, hverify⟩ := hverify
      obtain ⟨_, _, hspec, hchecked, hsound, _⟩ :=
        AuthorityCall.run_spec active maxRecursion st (.account name)
      rw [AuthorityCall.run, hresult] at hspec
      cases hspec
      dsimp only at hverify
      split_ifs at hverify with hok
      · cases hverify
        refine ⟨hchecked, ?_⟩
        rcases hsound hst hok with htemp | hsatisfied
        · cases htemp
          exact .inl rfl
        · exact .inr (.inl hsatisfied)
      · simp only [bind_eq_ok] at hverify
        obtain ⟨_, hauth, ⟨st₄, ok'⟩, hresult', hverify⟩ := hverify
        cases hauth
        obtain ⟨hchecked', hsound'⟩ := hcheck hresult' (hchecked.derived hst)
        dsimp only at hverify
        split_ifs at hverify with hok'
        cases hverify
        refine ⟨hchecked.trans hchecked', .inr (.inr ?_)⟩
        rw [← hchecked.keys]
        exact hsound' hok') hactive hderived₁
  obtain ⟨_, howner⟩ := verify_loop (fun keys name ↦ Satisfied keys active (owner name))
    (fun st st' name hverify hst ↦ by
      simp only [verifyOwner, bind_eq_ok] at hverify
      obtain ⟨_, hauth, ⟨st'', ok⟩, hresult, hverify⟩ := hverify
      cases hauth
      obtain ⟨hchecked, hsound⟩ := hcheck hresult hst
      dsimp only at hverify
      split_ifs at hverify with hok
      cases hverify
      exact ⟨hchecked, hsound hok⟩) howner (hchecked₂.derived hderived₁)
  have hkeys : (initial sigs []).keys = sigs.toFinset := by
    rw [keys_initial, List.append_nil]
  rw [hchecked₂.keys, hchecked₁.keys, hkeys] at howner
  rw [hchecked₁.keys, hkeys] at hactive
  rw [hkeys] at hother
  exact ⟨hother, hactive, howner⟩

/-- `verify_authority` accepts no transaction without derivations of all that it requires. -/
theorem satisfied_of_verifyAuthorityAt {active owner : AccountName → Authority} {maxRecursion : ℕ}
    {operations : List FeeOperation} {sigs : List PublicKey}
    (h : verifyAuthorityAt (fun name ↦ .ok (active name)) (fun name ↦ .ok (owner name))
      maxRecursion operations sigs = .ok ()) :
    (∀ auth ∈ (requiredAuthorities operations).2.2, Satisfied sigs.toFinset active auth) ∧
      (∀ name ∈ (requiredAuthorities operations).1, name = tempAccount ∨
        Satisfied sigs.toFinset active (active name) ∨
        Satisfied sigs.toFinset active (owner name)) ∧
      ∀ name ∈ (requiredAuthorities operations).2.1,
        Satisfied sigs.toFinset active (owner name) := by
  simp only [verifyAuthorityAt, bind_eq_ok] at h
  obtain ⟨st₁, hother, st₂, hactive, st₃, howner, _⟩ := h
  exact satisfied_of_verify_loops hother hactive howner

open SignState AuthorityCall in
/-- Calls on one sign state: what they accept has a derivation, and where no weights overflow they
accept what is satisfied within the recursion limit. No transaction without derivations of all that
it requires is accepted. -/
theorem check_authority_sound_complete (active owner : AccountName → Authority)
    (calls : List AuthorityCall) (maxRecursion : ℕ) (sigs available : List PublicKey) :
    (∃ results, runAll (fun name ↦ .ok (active name)) maxRecursion calls (initial sigs available) =
        .ok results ∧ results.length = calls.length ∧
      ∀ call ok, (call, ok) ∈ calls.zip results →
        (ok = true → call = .account tempAccount ∨
          Satisfied (sigs ++ available).toFinset active (call.target active)) ∧
        (FitsBelow active maxRecursion (call.target active) →
          plainCheck (sigs ++ available).toFinset active maxRecursion (call.target active) = true →
            ok = true)) ∧
      ∀ operations, verifyAuthorityAt (fun name ↦ .ok (active name)) (fun name ↦ .ok (owner name))
          maxRecursion operations sigs = .ok () →
        (∀ auth ∈ (requiredAuthorities operations).2.2, Satisfied sigs.toFinset active auth) ∧
        (∀ name ∈ (requiredAuthorities operations).1, name = tempAccount ∨
          Satisfied sigs.toFinset active (active name) ∨
          Satisfied sigs.toFinset active (owner name)) ∧
        ∀ name ∈ (requiredAuthorities operations).2.1,
          Satisfied sigs.toFinset active (owner name) := by
  refine ⟨?_, fun operations h ↦ satisfied_of_verifyAuthorityAt h⟩
  obtain ⟨results, hrun, hlength, hall⟩ := runAll_spec maxRecursion calls (initial sigs available)
    (derived_initial active sigs available) (List.mem_singleton.2 rfl)
  rw [keys_initial] at hall
  exact ⟨results, hrun, hlength, hall⟩

/-- Every account is controlled by account 5, but for account 5, which is controlled by key 8. -/
def ringActive (name : AccountName) : Authority :=
  if name = 5 then ⟨1, [], [(8, 1)]⟩ else ⟨2, [(5, 1), (name, 1)], [(8, 1)]⟩

theorem ringActive_fits (name : AccountName) : (ringActive name).Fits := by
  unfold ringActive
  split_ifs
  · exact Fits.of_sum (by decide)
  · exact Fits.of_sum (by simp)

open SignState AuthorityCall in
/-- Accounts 6 and 7 approve one after another with key 8. -/
theorem check_authority_sound_complete_on_ring :
    ∃ results,
      runAll (fun name ↦ .ok (ringActive name)) 2 [.account 6, .authority ⟨1, [(7, 1)], []⟩]
        (initial [8] []) = .ok results ∧ results.length = 2 ∧
      ∀ call ok, (call, ok) ∈ [AuthorityCall.account 6, .authority ⟨1, [(7, 1)], []⟩].zip results →
        ok = true := by
  obtain ⟨results, hrun, hlength, hall⟩ := (check_authority_sound_complete ringActive ringActive
    [.account 6, .authority ⟨1, [(7, 1)], []⟩] 2 [8] []).1
  refine ⟨results, hrun, hlength, fun call ok hmem ↦ ?_⟩
  have htarget : (call.target ringActive).Fits ∧
      plainCheck ([8] ++ []).toFinset ringActive 2 (call.target ringActive) = true := by
    have hcall := (List.of_mem_zip hmem).1
    simp only [List.mem_cons, List.not_mem_nil, or_false] at hcall
    rcases hcall with rfl | rfl
    · exact ⟨ringActive_fits 6, by decide⟩
    · exact ⟨Fits.of_sum (by decide), by decide⟩
  exact (hall call ok hmem).2 (fitsBelow_of_forall ringActive_fits htarget.1) htarget.2

/-! ## Weights that overflow -/

/-- Keys whose weights add up to 2^32 for 65536 names, with a threshold one below. -/
def overflowingAuthority (names : List PublicKey) : Authority where
  weightThreshold := 4294967295
  accountAuths := []
  keyAuths := names.map (fun key ↦ (key, 65535)) ++ [(65536, 65534), (65537, 2)]

/-- Keys of equal weight that have all signed. -/
theorem SignState.keyWeight_equal {threshold : ℕ} (weight : ℕ) {names : List PublicKey}
    {st : SignState} (hnames : ∀ key ∈ names, key ∈ st.keys) (total : ℕ)
    (hfit : total + names.length * weight < threshold) (hthreshold : threshold < 4294967296)
    (rest : List (PublicKey × ℕ)) :
    ∃ st', st'.keys = st.keys ∧
      keyWeight threshold (names.map (fun key ↦ (key, weight)) ++ rest) st total =
        keyWeight threshold rest st' (total + names.length * weight) := by
  induction names generalizing st total with
  | nil => exact ⟨st, rfl, by simp⟩
  | cons key names ih =>
    obtain ⟨hsigned, hkeys, _⟩ := st.signedBy_spec key
    rw [decide_eq_true (hnames key List.mem_cons_self)] at hsigned
    rw [List.length_cons, Nat.succ_mul] at hfit
    have hexact : uint32 (total + weight) = total + weight := Nat.mod_eq_of_lt (by omega)
    have hless : ¬ threshold ≤ uint32 (total + weight) := by omega
    obtain ⟨st', hkeys', hrest⟩ := @ih (st.signedBy key).1
      (fun k hk ↦ hkeys ▸ hnames k (List.mem_cons_of_mem _ hk)) (total + weight) (by omega)
    refine ⟨st', hkeys'.trans hkeys, ?_⟩
    rcases hst : st.signedBy key with ⟨st₁, signed⟩
    rw [hst] at hsigned hrest
    dsimp only at hsigned hrest
    subst hsigned
    rw [List.map_cons, List.cons_append, keyWeight, hst]
    dsimp only
    rw [if_neg hless, hexact, hrest, List.length_cons, Nat.succ_mul]
    congr 1
    omega

theorem SignState.keyWeight_overflowing {names : List PublicKey} (hlength : names.length = 65536)
    {st : SignState} (hnames : ∀ key ∈ names, key ∈ st.keys) (hlast : 65536 ∈ st.keys)
    (hlast' : 65537 ∈ st.keys) :
    ∃ st', keyWeight 4294967295 (overflowingAuthority names).keyAuths st 0 = (st', 0, false) := by
  have hsigned : ∀ (st : SignState) key, key ∈ st.keys →
      ∃ st', st.signedBy key = (st', true) ∧ st'.keys = st.keys := by
    intro st key hkey
    obtain ⟨hsigned, hsame, _⟩ := st.signedBy_spec key
    rw [decide_eq_true hkey] at hsigned
    exact ⟨(st.signedBy key).1, Prod.ext rfl hsigned, hsame⟩
  obtain ⟨st₁, hst₁, hequal⟩ := keyWeight_equal 65535 hnames 0
    (by rw [hlength]; decide : 0 + names.length * 65535 < 4294967295) (by decide)
    [(65536, 65534), (65537, 2)]
  obtain ⟨st₂, hst₂, hkeys₂⟩ := hsigned st₁ 65536 (hst₁ ▸ hlast)
  obtain ⟨st₃, hst₃, _⟩ := hsigned st₂ 65537 ((hkeys₂.trans hst₁) ▸ hlast')
  refine ⟨st₃, hequal.trans ?_⟩
  rw [hlength]
  simp only [keyWeight, hst₂, hst₃]
  rfl

theorem grantedWeight_overflowing {names : List PublicKey} (hlength : names.length = 65536)
    {keys : Finset PublicKey} (hnames : ∀ key ∈ names, key ∈ keys) (hlast : 65536 ∈ keys)
    (hlast' : 65537 ∈ keys) :
    grantedWeight (fun key ↦ decide (key ∈ keys)) (overflowingAuthority names).keyAuths =
      4294967296 := by
  have hall : ∀ entry ∈ (overflowingAuthority names).keyAuths, decide (entry.1 ∈ keys) = true := by
    intro entry hentry
    simp only [overflowingAuthority, List.mem_append, List.mem_map, List.mem_cons,
      List.not_mem_nil, or_false] at hentry
    rw [decide_eq_true_eq]
    rcases hentry with ⟨key, hkey, rfl⟩ | rfl | rfl
    · exact hnames key hkey
    · exact hlast
    · exact hlast'
  have hconst : (Prod.snd ∘ fun key : ℕ ↦ (key, 65535)) = fun _ ↦ 65535 := rfl
  rw [grantedWeight, List.filter_eq_self.2 hall, overflowingAuthority, List.map_append,
    List.map_map, List.sum_append, hconst, List.map_const', List.sum_replicate, hlength]
  decide

open SignState AuthorityCall in
theorem overflowing_incomplete {names sigs : List PublicKey} (hnames : names = List.range 65536)
    (hsigs : sigs = List.range 65538) :
    (∀ entry ∈ (overflowingAuthority names).keyAuths, entry.2 < 65536) ∧
      plainCheck sigs.toFinset (fun _ ↦ overflowingAuthority names) 2
        (overflowingAuthority names) = true ∧
      runAll (fun _ ↦ .ok (overflowingAuthority names)) 2
        [.authority (overflowingAuthority names)] (initial sigs []) = .ok [false] := by
  have hlength : names.length = 65536 := by rw [hnames, List.length_range]
  have hkeys : (initial sigs []).keys = sigs.toFinset := by rw [keys_initial, List.append_nil]
  have hmem : ∀ key < 65538, key ∈ sigs.toFinset := by
    intro key hkey
    rw [hsigs, List.mem_toFinset]
    exact List.mem_range.2 hkey
  have hsome : ∀ key ∈ names, key ∈ sigs.toFinset := by
    intro key hkey
    rw [hnames] at hkey
    exact hmem key ((List.mem_range.1 hkey).trans (by decide))
  refine ⟨fun entry hentry ↦ ?_, ?_, ?_⟩
  · simp only [overflowingAuthority, List.mem_append, List.mem_map, List.mem_cons,
      List.not_mem_nil, or_false] at hentry
    rcases hentry with ⟨_, _, rfl⟩ | rfl | rfl
    · exact Nat.lt_succ_self 65535
    · decide
    · decide
  · rw [plainCheck, decide_eq_true_eq,
      grantedWeight_overflowing hlength hsome (hmem _ (by decide)) (hmem _ (by decide))]
    exact Nat.le_add_right_of_le (by decide : 4294967295 ≤ 4294967296)
  · rw [← hkeys] at hsome hmem
    obtain ⟨st', hweight⟩ := keyWeight_overflowing hlength hsome (hmem _ (by decide))
      (hmem _ (by decide))
    have hcheck : checkAuthority (fun _ ↦ .ok (overflowingAuthority names)) 2
        (overflowingAuthority names) (initial sigs []) = .ok (st', false) := by
      have hthreshold : (overflowingAuthority names).weightThreshold = 4294967295 := rfl
      rw [checkAuthority, checkLevel, hthreshold, hweight]
      rfl
    rw [runAll, run, hcheck]
    rfl

open SignState AuthorityCall in
/-- All keys of an authority have signed, their weights reach the threshold, and the check
fails. -/
theorem check_authority_incomplete :
    (∀ entry ∈ (overflowingAuthority (List.range 65536)).keyAuths, entry.2 < 65536) ∧
      plainCheck (List.range 65538).toFinset (fun _ ↦ overflowingAuthority (List.range 65536)) 2
        (overflowingAuthority (List.range 65536)) = true ∧
      runAll (fun _ ↦ .ok (overflowingAuthority (List.range 65536))) 2
        [.authority (overflowingAuthority (List.range 65536))]
        (initial (List.range 65538) []) = .ok [false] :=
  overflowing_incomplete rfl rfl

end SophiaTX.Protocol
