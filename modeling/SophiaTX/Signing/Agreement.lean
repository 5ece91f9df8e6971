import SophiaTX.Signing.Selection

/-!
# Selection and verification

The checks that `get_required_signatures` makes differ from those of `verify_authority` in one
point: where an active authority is required and not satisfied, it does not try the owner authority
in its place. The keys of such an owner authority are selected only if they are met elsewhere.
-/

namespace SophiaTX.Protocol

open SophiaTX.Lib SignState

variable {active owner : AccountName → Authority} {keys : Finset PublicKey}
  {operations : List FeeOperation} {maxRecursion : ℕ}

/-- `minimize_required_signatures` selects available keys that `verify_authority` accepts, and
without any of which it reports a missing authority. -/
def SelectsMinimal (active owner : AccountName → Authority) (maxRecursion : ℕ)
    (operations : List FeeOperation) (available : List PublicKey) : Prop :=
  ∃ result, minimizeRequiredSignatures (fun name ↦ .ok (active name)) (fun name ↦ .ok (owner name))
      maxRecursion operations [] available = .ok result ∧ result ⊆ available ∧
    verifyAuthorityAt (fun name ↦ .ok (active name)) (fun name ↦ .ok (owner name)) maxRecursion
      operations result = .ok () ∧
    ∀ key ∈ result, ∃ e, MissingAuthority e ∧
      verifyAuthorityAt (fun name ↦ .ok (active name)) (fun name ↦ .ok (owner name)) maxRecursion
        operations (result.erase key) = .error e

theorem authorised_of_verifyAuthorityAt {sigs : List PublicKey}
    (h : verifyAuthorityAt (fun name ↦ .ok (active name)) (fun name ↦ .ok (owner name))
      maxRecursion operations sigs = .ok ()) :
    Authorised active owner operations sigs.toFinset := by
  obtain ⟨hother, hactive, howner⟩ := satisfied_of_verifyAuthorityAt h
  exact ⟨hother, fun name hname ↦ or_assoc.2 (hactive name hname), howner⟩

/-- What is collected from keys satisfies what they satisfy, but for owner authorities in place of
active ones. -/
theorem authorised_collected (hlimit : WithinLimit active owner maxRecursion operations keys)
    (h : Authorised active owner operations keys) {collected : Finset PublicKey}
    (hcollected : ∀ key, Collected active owner operations keys key → key ∈ collected)
    (hactive : ∀ name ∈ (requiredAuthorities operations).1,
      (name = tempAccount ∨ Satisfied keys active (active name)) ∨
        Satisfied collected active (owner name)) :
    Authorised active owner operations collected where
  requiredOther auth hauth := (h.requiredOther auth hauth).of_met
    (hlimit.requiredOther auth hauth) fun key hmet ↦ hcollected key (.other auth hauth hmet)
  requiredActive name hname := by
    rcases hactive name hname with (htemp | hsatisfied) | howner
    · exact .inl (.inl htemp)
    · by_cases hne : name = tempAccount
      · exact .inl (.inl hne)
      · refine .inl (.inr (hsatisfied.of_met (hlimit.requiredActive name hname hne).1 ?_))
        exact fun key hmet ↦ hcollected key (.active name hname hne hmet)
    · exact .inr howner
  requiredOwner name hname := (h.requiredOwner name hname).of_met
    (hlimit.requiredOwner name hname) fun key hmet ↦ hcollected key (.owner name hname hmet)

/-- The keys that are collected can sign for what the available keys can, and the selection agrees
with verification, if and only if each owner authority that has to stand in for an active one is
satisfied by keys that are collected. -/
theorem selectsMinimal_iff {available : List PublicKey}
    (hlimits : WithinLimits active owner maxRecursion operations available.toFinset)
    (havailable : Authorised active owner operations available.toFinset) :
    SelectsMinimal active owner maxRecursion operations available ↔
      ∀ name ∈ (requiredAuthorities operations).1,
        (name = tempAccount ∨ Satisfied available.toFinset active (active name)) ∨
          ∃ met : Finset PublicKey,
            (∀ key ∈ met, Collected active owner operations available.toFinset key) ∧
              Satisfied met active (owner name) := by
  have hlimit := hlimits _ subset_rfl havailable
  obtain ⟨s, hs, hnodup, hmem⟩ := getRequiredSignatures_within available hlimit
  have hsubset : s.toFinset ⊆ available.toFinset := by
    intro key hkey
    exact ((hmem key).1 (List.mem_toFinset.1 hkey)).mem
  have hcollected : ∀ sigs : List PublicKey, sigs ⊆ s → ∀ key ∈ sigs,
      Collected active owner operations sigs.toFinset key := by
    intro sigs hsigs key hkey
    refine ((hmem key).1 (hsigs hkey)).mono (fun k hk ↦ ?_) (List.mem_toFinset.2 hkey)
    exact hsubset (List.mem_toFinset.2 (hsigs (List.mem_toFinset.1 hk)))
  have hlimits' : WithinLimits active owner maxRecursion operations s.toFinset :=
    fun signing hsigning ↦ hlimits signing (hsigning.trans hsubset)
  obtain ⟨result, hloop, hnodup', hsubset', hauthorised, hminimal⟩ := tryWithout_loop hlimits'
    hnodup hnodup (List.Subset.refl s) hcollected fun key hkey hnot ↦ absurd hkey hnot
  have hminimize : minimizeRequiredSignatures (fun name ↦ .ok (active name))
      (fun name ↦ .ok (owner name)) maxRecursion operations [] available = .ok result :=
    bind_eq_ok.2 ⟨s, hs, hloop⟩
  have hsmaller : result.toFinset ⊆ s.toFinset := fun key hkey ↦
    List.mem_toFinset.2 (hsubset' (List.mem_toFinset.1 hkey))
  constructor
  · rintro ⟨result', hresult', -, haccepts, -⟩
    rw [hminimize] at hresult'
    cases hresult'
    intro name hname
    rcases (authorised_of_verifyAuthorityAt haccepts).requiredActive name hname with
      (htemp | hactive) | howner
    · exact .inl (.inl htemp)
    · exact .inl (.inr (hactive.mono (hsmaller.trans hsubset)))
    · refine .inr ⟨result.toFinset, fun key hkey ↦ ?_, howner⟩
      exact (hmem key).1 (hsubset' (List.mem_toFinset.1 hkey))
  · intro hactive
    have hall : Authorised active owner operations s.toFinset := by
      refine authorised_collected hlimit havailable (fun key hkey ↦ ?_) fun name hname ↦ ?_
      · exact List.mem_toFinset.2 ((hmem key).2 hkey)
      · apply (hactive name hname).imp_right
        rintro ⟨met, hmet, howner⟩
        apply howner.mono
        intro key hkey
        exact List.mem_toFinset.2 ((hmem key).2 (hmet key hkey))
    refine ⟨result, hminimize, fun key hkey ↦ ?_, ?_, fun key hkey ↦ ?_⟩
    · exact List.mem_toFinset.1 ((hmem key).1 (hsubset' hkey)).mem
    · exact verifyAuthorityAt_within hnodup' (hlimits' _ hsmaller (hauthorised hall))
        (hauthorised hall) fun key hkey ↦ hcollected result hsubset' key hkey
    · exact verifyAuthorityAt_missing (hminimal key hkey)

/-! ## Keys that can be selected -/

/-- The keys of an authority and of the accounts below it. -/
inductive Listed (active : AccountName → Authority) : Authority → PublicKey → Prop
  | key {auth : Authority} {key : PublicKey} {weight : ℕ} (hentry : (key, weight) ∈ auth.keyAuths) :
      Listed active auth key
  | account {auth : Authority} {name : AccountName} {weight : ℕ} {key : PublicKey}
      (hentry : (name, weight) ∈ auth.accountAuths) (hlisted : Listed active (active name) key) :
      Listed active auth key

/-- The keys below the authorities that operations require, without owner authorities in place of
active ones. -/
inductive ListedFor (active owner : AccountName → Authority) (operations : List FeeOperation)
    (key : PublicKey) : Prop
  | other (auth : Authority) (hauth : auth ∈ (requiredAuthorities operations).2.2)
      (hlisted : Listed active auth key)
  | active (name : AccountName) (hname : name ∈ (requiredAuthorities operations).1)
      (hlisted : Listed active (active name) key)
  | owner (name : AccountName) (hname : name ∈ (requiredAuthorities operations).2.1)
      (hlisted : Listed active (owner name) key)

namespace SignState

variable {st st' : SignState}

/-- A step that uses no keys but some. -/
def UsesOnly (st st' : SignState) (listed : PublicKey → Prop) : Prop :=
  ∀ key, st'.Uses key → st.Uses key ∨ listed key

theorem UsesOnly.refl (st : SignState) (listed : PublicKey → Prop) : UsesOnly st st listed :=
  fun _ huses ↦ .inl huses

theorem UsesOnly.trans {st'' : SignState} {listed : PublicKey → Prop}
    (h : UsesOnly st st' listed) (h' : UsesOnly st' st'' listed) : UsesOnly st st'' listed :=
  fun key huses ↦ (h' key huses).elim (h key) .inr

theorem UsesOnly.imp {listed listed' : PublicKey → Prop} (h : UsesOnly st st' listed)
    (himp : ∀ key, listed key → listed' key) : UsesOnly st st' listed' :=
  fun key huses ↦ (h key huses).imp_right (himp key)

theorem keyWeight_usesOnly {threshold : ℕ} {entries : List (PublicKey × ℕ)} {total : ℕ} :
    UsesOnly st (keyWeight threshold entries st total).1
      fun key ↦ ∃ weight, (key, weight) ∈ entries := by
  induction entries generalizing st total with
  | nil => exact .refl _ _
  | cons entry rest ih =>
    obtain ⟨key, weight⟩ := entry
    have hsigned : UsesOnly st (st.signedBy key).1 fun k ↦ ∃ w, (k, w) ∈ (key, weight) :: rest := by
      intro k huses
      apply (((st.signedBy_uses key).1 k).1 huses).imp_right
      intro hk
      exact hk.1 ▸ ⟨weight, List.mem_cons_self⟩
    have hrest : ∀ total, UsesOnly (st.signedBy key).1
        (keyWeight threshold rest (st.signedBy key).1 total).1
        fun k ↦ ∃ w, (k, w) ∈ (key, weight) :: rest := by
      intro total
      apply ih.imp
      intro k hk
      exact hk.imp fun _ hw ↦ List.mem_cons_of_mem _ hw
    rw [keyWeight]
    rcases hst : st.signedBy key with ⟨st₁, signed⟩
    rw [hst] at hsigned hrest
    cases signed with
    | false => exact hsigned.trans (hrest _)
    | true =>
      dsimp only
      split_ifs
      · exact hsigned
      · exact hsigned.trans (hrest _)

/-- A check of accounts that uses only keys below an account. -/
def ChecksOnly (active : AccountName → Authority) (name : AccountName)
    (check : Option (AccountName → SignState → Exec (SignState × Bool))) : Prop :=
  ∀ c ∈ check, ∀ st st' ok, c name st = .ok (st', ok) →
    UsesOnly st st' (Listed active (active name))

theorem approves_usesOnly {check : Option (AccountName → SignState → Exec (SignState × Bool))}
    {name : AccountName} {ok : Bool} (hcheck : ChecksOnly active name check)
    (h : approves check name st = .ok (st', ok)) :
    UsesOnly st st' (Listed active (active name)) := by
  unfold approves at h
  split_ifs at h with hmem
  · cases h
    exact .refl _ _
  · cases check with
    | none =>
      cases h
      exact .refl _ _
    | some c =>
      obtain ⟨⟨st₁, approved⟩, hfirst, hrest⟩ := bind_eq_ok.1 h
      have huses := hcheck c rfl st st₁ approved hfirst
      cases approved <;> cases hrest <;> exact huses

theorem accountWeight_usesOnly
    {check : Option (AccountName → SignState → Exec (SignState × Bool))} {threshold total : ℕ}
    {entries : List (AccountName × ℕ)} {ok : Bool}
    (hcheck : ∀ entry ∈ entries, ChecksOnly active entry.1 check)
    (h : accountWeight threshold check entries st total = .ok (st', ok)) :
    UsesOnly st st' fun key ↦ ∃ entry ∈ entries, Listed active (active entry.1) key := by
  induction entries generalizing st total with
  | nil =>
    cases h
    exact .refl _ _
  | cons entry rest ih =>
    obtain ⟨name, weight⟩ := entry
    rw [accountWeight] at h
    obtain ⟨⟨st₁, approved⟩, hfirst, hrest⟩ := bind_eq_ok.1 h
    have hthis := (approves_usesOnly (hcheck _ List.mem_cons_self) hfirst).imp
      fun key hkey ↦ (⟨_, List.mem_cons_self, hkey⟩ :
        ∃ entry ∈ (name, weight) :: rest, Listed active (active entry.1) key)
    have hmore : ∀ {total : ℕ}, accountWeight threshold check rest st₁ total = .ok (st', ok) →
        UsesOnly st₁ st' fun key ↦
          ∃ entry ∈ (name, weight) :: rest, Listed active (active entry.1) key := by
      intro total hloop
      apply (ih (fun entry hentry ↦ hcheck entry (List.mem_cons_of_mem _ hentry)) hloop).imp
      intro key hkey
      obtain ⟨entry, hentry, hlisted⟩ := hkey
      exact ⟨entry, List.mem_cons_of_mem _ hentry, hlisted⟩
    cases approved with
    | false => exact hthis.trans (hmore hrest)
    | true =>
      simp only [if_true] at hrest
      split_ifs at hrest
      · cases hrest
        exact hthis
      · exact hthis.trans (hmore hrest)

theorem checkLevel_usesOnly {check : Option (AccountName → SignState → Exec (SignState × Bool))}
    {auth : Authority} {ok : Bool}
    (hcheck : ∀ entry ∈ auth.accountAuths, ChecksOnly active entry.1 check)
    (h : checkLevel check auth st = .ok (st', ok)) : UsesOnly st st' (Listed active auth) := by
  have hkeys : UsesOnly st (keyWeight auth.weightThreshold auth.keyAuths st 0).1
      (Listed active auth) := by
    apply keyWeight_usesOnly.imp
    intro key hkey
    exact hkey.elim fun _ hentry ↦ .key hentry
  rw [checkLevel] at h
  split at h
  · rename_i hweight
    cases h
    rwa [hweight] at hkeys
  · rename_i hweight
    rw [hweight] at hkeys
    apply hkeys.trans
    apply (accountWeight_usesOnly hcheck h).imp
    intro key hkey
    obtain ⟨_, hentry, hlisted⟩ := hkey
    exact .account hentry hlisted

/-- A check uses only keys of the authority and of the accounts below it, at whatever depth. -/
theorem checkAuthority_usesOnly {levels : ℕ} {auth : Authority} {ok : Bool}
    (h : checkAuthority (fun name ↦ .ok (active name)) levels auth st = .ok (st', ok)) :
    UsesOnly st st' (Listed active auth) := by
  induction levels generalizing auth st st' ok with
  | zero =>
    rw [checkAuthority] at h
    exact checkLevel_usesOnly (fun _ _ _ hnone ↦ absurd hnone (by simp)) h
  | succ levels ih =>
    rw [checkAuthority] at h
    apply checkLevel_usesOnly _ h
    intro entry hentry c hc st st' ok hok
    cases hc
    exact ih hok

theorem checkAccount_usesOnly {name : AccountName} {ok : Bool}
    (h : checkAccount (fun name ↦ .ok (active name)) maxRecursion name st = .ok (st', ok)) :
    UsesOnly st st' (Listed active (active name)) := by
  unfold checkAccount at h
  split_ifs at h
  · cases h
    exact .refl _ _
  · exact checkAuthority_usesOnly h

theorem collect_loop_usesOnly {α : Type} {collect : SignState → α → Exec SignState}
    {listed : α → PublicKey → Prop} {l : List α}
    (hcollect : ∀ a ∈ l, ∀ st st', collect st a = .ok st' → UsesOnly st st' (listed a))
    (h : l.foldlM collect st = .ok st') : UsesOnly st st' fun key ↦ ∃ a ∈ l, listed a key := by
  induction l generalizing st with
  | nil =>
    cases h
    exact .refl _ _
  | cons a rest ih =>
    rw [List.foldlM_cons] at h
    obtain ⟨st₁, hfirst, hrest⟩ := bind_eq_ok.1 h
    have hthis := hcollect a List.mem_cons_self st st₁ hfirst
    have hmore := ih (fun b hb ↦ hcollect b (List.mem_cons_of_mem _ hb)) hrest
    intro key huses
    rcases hmore key huses with huses | ⟨b, hb, hlisted⟩
    · exact (hthis key huses).imp_right fun hlisted ↦ ⟨a, List.mem_cons_self, hlisted⟩
    · exact .inr ⟨b, List.mem_cons_of_mem _ hb, hlisted⟩

theorem uses_of_mem_removeUnusedSignatures {key : PublicKey}
    (h : key ∈ st.removeUnusedSignatures.1.providedSignatures.map Prod.fst) : st.Uses key := by
  simp only [removeUnusedSignatures, unusedSignatures, List.mem_map, List.mem_filter] at h
  obtain ⟨⟨_, used⟩, ⟨hsig, hkept⟩, rfl⟩ := h
  cases used with
  | true => exact hsig
  | false =>
    refine absurd (List.mem_map_of_mem ?_) (of_decide_eq_true hkept)
    exact List.mem_filter.2 ⟨hsig, rfl⟩

end SignState

/-- Only available keys below the required authorities are selected. -/
theorem listedFor_of_getRequiredSignatures {available s : List PublicKey} {key : PublicKey}
    (h : getRequiredSignatures (fun name ↦ .ok (active name)) (fun name ↦ .ok (owner name))
      maxRecursion operations [] available = .ok s) (hkey : key ∈ s) :
    ListedFor active owner operations key := by
  unfold getRequiredSignatures at h
  obtain ⟨st₁, hother, h⟩ := bind_eq_ok.1 h
  obtain ⟨st₂, howner, h⟩ := bind_eq_ok.1 h
  obtain ⟨st₃, hactive, h⟩ := bind_eq_ok.1 h
  cases h
  have hothers : UsesOnly (initial [] available) st₁ fun key ↦
      ∃ auth ∈ (requiredAuthorities operations).2.2, Listed active auth key := by
    apply collect_loop_usesOnly _ hother
    intro auth _ st st' hok
    obtain ⟨_, hcheck, hrest⟩ := bind_eq_ok.1 hok
    cases hrest
    exact checkAuthority_usesOnly hcheck
  have howners : UsesOnly st₁ st₂ fun key ↦
      ∃ name ∈ (requiredAuthorities operations).2.1, Listed active (owner name) key := by
    apply collect_loop_usesOnly _ howner
    intro name _ st st' hok
    obtain ⟨_, hget, hok⟩ := bind_eq_ok.1 hok
    cases hget
    obtain ⟨_, hcheck, hrest⟩ := bind_eq_ok.1 hok
    cases hrest
    exact checkAuthority_usesOnly hcheck
  have hactives : UsesOnly st₂ st₃ fun key ↦
      ∃ name ∈ (requiredAuthorities operations).1, Listed active (active name) key := by
    apply collect_loop_usesOnly _ hactive
    intro name _ st st' hok
    obtain ⟨_, hcheck, hrest⟩ := bind_eq_ok.1 hok
    cases hrest
    exact checkAccount_usesOnly hcheck
  have huses := uses_of_mem_removeUnusedSignatures (List.mem_filter.1 (mem_flatSet.1 hkey)).1
  rcases hactives key huses with huses | ⟨name, hname, hlisted⟩
  swap
  · exact .active name hname hlisted
  rcases howners key huses with huses | ⟨name, hname, hlisted⟩
  swap
  · exact .owner name hname hlisted
  rcases hothers key huses with huses | ⟨auth, hauth, hlisted⟩
  · exact absurd huses not_uses_initial
  · exact .other auth hauth hlisted

theorem tryWithout_subset {result result' : List PublicKey} {key : PublicKey}
    (h : tryWithout (fun name ↦ .ok (active name)) (fun name ↦ .ok (owner name)) maxRecursion
      operations result key = .ok result') : result' ⊆ key :: result := by
  have herase : result.erase key ⊆ key :: result :=
    fun k hk ↦ List.mem_cons_of_mem _ (List.mem_of_mem_erase hk)
  have hinsert : (result.erase key).orderedInsert (· ≤ ·) key ⊆ key :: result := by
    intro k hk
    rcases (List.mem_orderedInsert _).1 hk with rfl | hk
    · exact List.mem_cons_self
    · exact herase hk
  unfold tryWithout at h
  split at h <;> cases h <;> assumption

/-- Keys are only dropped. -/
theorem tryWithout_loop_subset {rest result result' s : List PublicKey}
    (hrest : rest ⊆ s) (hresult : result ⊆ s)
    (h : rest.foldlM (tryWithout (fun name ↦ .ok (active name)) (fun name ↦ .ok (owner name))
      maxRecursion operations) result = .ok result') : result' ⊆ s := by
  induction rest generalizing result with
  | nil =>
    cases h
    exact hresult
  | cons key rest ih =>
    rw [List.foldlM_cons] at h
    obtain ⟨result₁, hfirst, h⟩ := bind_eq_ok.1 h
    obtain ⟨hkey, hrest⟩ := List.cons_subset.1 hrest
    apply ih hrest _ h
    exact List.Subset.trans (tryWithout_subset hfirst) (List.cons_subset.2 ⟨hkey, hresult⟩)

/-! ## Agreement -/

/-- Every account has one and the same key. -/
def singleKey (key : PublicKey) : AccountName → Authority :=
  fun _ ↦ ⟨1, [], [(key, 1)]⟩

def transferOfFive : List FeeOperation :=
  [⟨.transfer 5 6 ⟨1, sophiatxSymbol⟩ [], ⟨0, sophiatxSymbol⟩⟩]

/-- Account 5 has a key, and accounts 5 and 6 control each other. -/
def mutualActive (name : AccountName) : Authority :=
  if name = 5 then ⟨1, [(6, 1)], [(8, 1)]⟩ else if name = 6 then ⟨1, [(5, 1)], []⟩ else ⟨1, [], []⟩

theorem mutualActive_fits (name : AccountName) : (mutualActive name).Fits := by
  unfold mutualActive
  split_ifs <;> exact Fits.of_sum (by decide)

theorem mem_accountAuths_mutualActive {name : AccountName} {entry : AccountName × ℕ}
    (h : entry ∈ (mutualActive name).accountAuths) : entry.1 = 5 ∨ entry.1 = 6 := by
  unfold mutualActive at h
  split_ifs at h <;> simp_all

theorem mem_keyAuths_mutualActive {name : AccountName} {key : PublicKey}
    (h : ∃ weight, (key, weight) ∈ (mutualActive name).keyAuths) : key = 8 := by
  unfold mutualActive at h
  split_ifs at h <;> simp_all

theorem not_satisfied_mutualActive (hkey : 8 ∉ keys) {name : AccountName} :
    ¬ Satisfied keys mutualActive (mutualActive name) := by
  suffices hall : ∀ auth, Satisfied keys mutualActive auth → ∀ name, auth ≠ mutualActive name from
    fun h ↦ hall _ h name rfl
  intro auth h
  induction h with
  | intro auth approved happroved hweight ih =>
    rintro name rfl
    have hnone : grantedWeight (fun name ↦ decide (name ∈ approved))
        (mutualActive name).accountAuths = 0 := by
      rw [grantedWeight, List.filter_eq_nil_iff.2]
      · rfl
      · intro entry hentry happ
        have htemp : entry.1 ≠ tempAccount := by
          rcases mem_accountAuths_mutualActive hentry with h | h <;> rw [h] <;> decide
        exact ih entry.1 (of_decide_eq_true happ) htemp entry.1 rfl
    unfold mutualActive at hweight hnone
    split_ifs at hweight hnone <;> simp_all

theorem not_met_mutualActive (hkey : 8 ∉ keys) {name : AccountName} {key : PublicKey} :
    ¬ Met keys mutualActive (mutualActive name) key := by
  suffices hall : ∀ auth, Met keys mutualActive auth key → ∀ name, auth ≠ mutualActive name from
    fun h ↦ hall _ h name rfl
  intro auth h
  induction h with
  | key hlooked hkeys =>
    rintro name rfl
    have hentry := mem_keyAuths_mutualActive (mem_keyAuths_of_looked hlooked)
    exact hkey (hentry ▸ hkeys)
  | account _ _ _ ih => exact fun _ _ ↦ ih _ rfl

/-- Without key 8 a check goes round between the two accounts, and nothing is cut off. -/
theorem uncut_mutualActive (hkey : 8 ∉ keys) {levels : ℕ} (name : AccountName) :
    Uncut keys mutualActive levels (mutualActive name) := by
  induction levels generalizing name with
  | zero =>
    refine ⟨mutualActive_fits name, fun other _ _ ↦ ?_⟩
    exact ⟨not_satisfied_mutualActive hkey, fun _ ↦ not_met_mutualActive hkey⟩
  | succ levels ih => exact ⟨mutualActive_fits name, fun other _ _ ↦ ih other⟩

theorem withinLimits_mutualActive :
    WithinLimits mutualActive (singleKey 9) 2 transferOfFive [8, 9].toFinset := by
  intro signing _ _
  have hactive : Uncut signing mutualActive 2 (mutualActive 5) := by
    by_cases hkey : 8 ∈ signing
    · apply Uncut.of_keys (mutualActive_fits 5)
      simp [Authority.looked, Authority.entries, mutualActive, scan, granted_inl, hkey]
    · exact uncut_mutualActive hkey 5
  have howner : Uncut signing mutualActive 2 (singleKey 9 5) := by
    apply Uncut.of_keys (Fits.of_sum (by decide))
    intro name hname
    obtain ⟨_, hentry⟩ := mem_accountAuths_of_looked hname
    exact absurd hentry List.not_mem_nil
  have hrequired : (requiredAuthorities transferOfFive).1 = [5] := by decide
  refine ⟨fun _ h ↦ absurd h List.not_mem_nil, fun name hname _ ↦ ?_,
    fun _ h ↦ absurd h List.not_mem_nil⟩
  rw [hrequired, List.mem_singleton] at hname
  exact hname ▸ ⟨hactive, fun _ ↦ howner⟩

end SophiaTX.Protocol
