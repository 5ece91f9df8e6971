import SophiaTX.Signing.Derivations

/-!
# Which signatures a check uses

A check goes through the keys and accounts of an authority until the threshold is reached, and
into the accounts that have not approved yet. Where the recursion limit is not reached and weights
do not overflow, it uses the keys it meets that way, in whatever order authorities are checked.
-/

namespace SophiaTX.Protocol

open SophiaTX.Lib

/-! ## Scans -/

/-- The entries looked at until granted weights reach a threshold, and whether they do. -/
def scan {ι : Type} (granted : ι → Bool) (threshold : ℕ) : ℕ → List (ι × ℕ) → List ι × Bool
  | total, [] => ([], decide (threshold ≤ total))
  | total, (a, weight) :: rest =>
    if granted a then
      if threshold ≤ total + weight then ([a], true)
      else (a :: (scan granted threshold (total + weight) rest).1,
        (scan granted threshold (total + weight) rest).2)
    else (a :: (scan granted threshold total rest).1, (scan granted threshold total rest).2)

section Scan

variable {ι : Type} {granted granted' : ι → Bool} {threshold : ℕ}

theorem scan_verdict (total : ℕ) (entries : List (ι × ℕ)) :
    (scan granted threshold total entries).2 = true ↔
      threshold ≤ total + grantedWeight granted entries := by
  induction entries generalizing total with
  | nil => simp [scan]
  | cons entry rest ih =>
    obtain ⟨a, weight⟩ := entry
    rw [scan, grantedWeight_cons]
    split_ifs with hgranted hreached
    · simp only [true_iff]
      omega
    · rw [ih, add_assoc]
    · rw [ih, zero_add]

/-- With more granted, fewer entries are looked at. -/
theorem scan_mono (h : ∀ a, granted a = true → granted' a = true) {total total' : ℕ}
    (htotal : total ≤ total') (entries : List (ι × ℕ)) :
    (scan granted' threshold total' entries).1 ⊆ (scan granted threshold total entries).1 := by
  induction entries generalizing total total' with
  | nil => simp [scan]
  | cons entry rest ih =>
    obtain ⟨a, weight⟩ := entry
    simp only [scan]
    by_cases hgranted : granted a = true
    · rw [if_pos hgranted, if_pos (h a hgranted)]
      split_ifs with hreached' hreached
      · exact List.Subset.refl _
      · exact List.cons_subset_cons _ (List.nil_subset _)
      · omega
      · exact List.cons_subset_cons _ (ih (by omega))
    · rw [if_neg hgranted]
      split_ifs with hgranted' hreached'
      · exact List.cons_subset_cons _ (List.nil_subset _)
      · exact List.cons_subset_cons _ (ih (by omega))
      · exact List.cons_subset_cons _ (ih htotal)

/-- The entries that were looked at reach the threshold on their own. -/
theorem scan_weight {p : ι → Bool} {total : ℕ} {entries : List (ι × ℕ)}
    (hverdict : (scan granted threshold total entries).2 = true)
    (hp : ∀ a ∈ (scan granted threshold total entries).1, granted a = true → p a = true) :
    threshold ≤ total + grantedWeight p entries := by
  induction entries generalizing total with
  | nil => simpa [scan] using hverdict
  | cons entry rest ih =>
    obtain ⟨a, weight⟩ := entry
    rw [scan] at hverdict hp
    rw [grantedWeight_cons]
    split_ifs at hverdict hp with hgranted hreached
    · rw [if_pos (hp a List.mem_cons_self hgranted)]
      omega
    · have hrest := ih hverdict fun b hb ↦ hp b (List.mem_cons_of_mem _ hb)
      rw [if_pos (hp a List.mem_cons_self hgranted)]
      omega
    · have hrest := ih hverdict fun b hb ↦ hp b (List.mem_cons_of_mem _ hb)
      omega

/-- The first entry is looked at. -/
theorem mem_scan_cons (a : ι) (weight total : ℕ) (rest : List (ι × ℕ)) :
    a ∈ (scan granted threshold total ((a, weight) :: rest)).1 := by
  rw [scan]
  split_ifs
  · exact List.mem_singleton.2 rfl
  · exact List.mem_cons_self
  · exact List.mem_cons_self

/-- Only entries are looked at. -/
theorem mem_of_scan {a : ι} {total : ℕ} {entries : List (ι × ℕ)}
    (h : a ∈ (scan granted threshold total entries).1) : ∃ weight, (a, weight) ∈ entries := by
  induction entries generalizing total with
  | nil => exact absurd h List.not_mem_nil
  | cons entry rest ih =>
    obtain ⟨b, weight⟩ := entry
    have hrest : ∀ total, a ∈ (scan granted threshold total rest).1 →
        ∃ w, (a, w) ∈ (b, weight) :: rest := by
      intro total hmem
      obtain ⟨w, hw⟩ := ih hmem
      exact ⟨w, List.mem_cons_of_mem _ hw⟩
    rw [scan] at h
    split_ifs at h
    · obtain rfl := List.mem_singleton.1 h
      exact ⟨weight, List.mem_cons_self⟩
    all_goals
      rcases List.mem_cons.1 h with rfl | hmem
      · exact ⟨weight, List.mem_cons_self⟩
      · exact hrest _ hmem

end Scan

/-! ## The keys met by a check -/

/-- The entries of an authority, keys before accounts. -/
def Authority.entries (auth : Authority) : List ((PublicKey ⊕ AccountName) × ℕ) :=
  auth.keyAuths.map (fun entry ↦ (.inl entry.1, entry.2)) ++
    auth.accountAuths.map fun entry ↦ (.inr entry.1, entry.2)

variable {keys keys' : Finset PublicKey} {active : AccountName → Authority} {auth : Authority}

open Classical in
/-- Keys that can sign, and accounts with a derivation. -/
noncomputable def granted (keys : Finset PublicKey) (active : AccountName → Authority) :
    PublicKey ⊕ AccountName → Bool
  | .inl key => decide (key ∈ keys)
  | .inr name => decide (name = tempAccount ∨ Satisfied keys active (active name))

theorem Satisfied.mono (hkeys : keys ⊆ keys') (h : Satisfied keys active auth) :
    Satisfied keys' active auth := by
  induction h with
  | intro auth approved _ hweight ih =>
    refine .intro auth approved ih (hweight.trans (Nat.add_le_add_right ?_ _))
    exact grantedWeight_mono fun _ _ hkey ↦ decide_eq_true (hkeys (of_decide_eq_true hkey))

theorem granted_inl (key : PublicKey) : granted keys active (.inl key) = true ↔ key ∈ keys := by
  simp [granted]

theorem granted_inr (name : AccountName) : granted keys active (.inr name) = true ↔
    name = tempAccount ∨ Satisfied keys active (active name) := by
  simp [granted]

theorem granted_mono (hkeys : keys ⊆ keys') (a : PublicKey ⊕ AccountName)
    (h : granted keys active a = true) : granted keys' active a = true := by
  cases a with
  | inl key => exact (granted_inl key).2 (hkeys ((granted_inl key).1 h))
  | inr name =>
    exact (granted_inr name).2 (((granted_inr name).1 h).imp_right fun hname ↦ hname.mono hkeys)

/-- The weights of keys and accounts together. -/
theorem grantedWeight_entries (p : PublicKey ⊕ AccountName → Bool) (auth : Authority) :
    grantedWeight p auth.entries = grantedWeight (fun key ↦ p (.inl key)) auth.keyAuths +
      grantedWeight (fun name ↦ p (.inr name)) auth.accountAuths := by
  have hmap : ∀ {α : Type} (f : α → PublicKey ⊕ AccountName) (entries : List (α × ℕ)),
      grantedWeight p (entries.map fun entry ↦ (f entry.1, entry.2)) =
        grantedWeight (fun a ↦ p (f a)) entries := by
    intro α f entries
    induction entries with
    | nil => rfl
    | cons entry rest ih => rw [List.map_cons, grantedWeight_cons, grantedWeight_cons, ih]
  have happend : ∀ l l' : List ((PublicKey ⊕ AccountName) × ℕ),
      grantedWeight p (l ++ l') = grantedWeight p l + grantedWeight p l' := by
    intro l l'
    simp [grantedWeight]
  rw [Authority.entries, happend, hmap, hmap]

/-- A scan of an authority decides whether it has a derivation. -/
theorem satisfied_iff_scan : Satisfied keys active auth ↔
    (scan (granted keys active) auth.weightThreshold 0 auth.entries).2 = true := by
  rw [scan_verdict, zero_add, grantedWeight_entries]
  constructor
  · rintro ⟨_, approved, happroved, hweight⟩
    refine hweight.trans (Nat.add_le_add (grantedWeight_mono fun entry _ hkey ↦ ?_)
      (grantedWeight_mono fun entry _ hname ↦ ?_))
    · exact (granted_inl entry.1).2 (of_decide_eq_true hkey)
    · exact (granted_inr entry.1).2
        (or_iff_not_imp_left.2 (happroved entry.1 (of_decide_eq_true hname)))
  · intro hweight
    let approved := (auth.accountAuths.map Prod.fst).toFinset.filter
      fun name ↦ granted keys active (.inr name) = true
    refine .intro auth approved (fun name hname hne ↦ ?_) (hweight.trans
      (Nat.add_le_add (grantedWeight_mono fun entry _ hkey ↦ ?_)
        (grantedWeight_mono fun entry hentry hname ↦ ?_)))
    · exact ((granted_inr name).1 (Finset.mem_filter.1 hname).2).resolve_left hne
    · exact decide_eq_true ((granted_inl entry.1).1 hkey)
    · exact decide_eq_true (Finset.mem_filter.2
        ⟨List.mem_toFinset.2 (List.mem_map_of_mem hentry), hname⟩)

/-- What a check of an authority looks at. -/
noncomputable def Authority.looked (keys : Finset PublicKey) (active : AccountName → Authority)
    (auth : Authority) : List (PublicKey ⊕ AccountName) :=
  (scan (granted keys active) auth.weightThreshold 0 auth.entries).1

/-- The keys met by a check of an authority that goes into every account it looks at. -/
inductive Met (keys : Finset PublicKey) (active : AccountName → Authority) :
    Authority → PublicKey → Prop
  | key {auth : Authority} {key : PublicKey} (hlooked : .inl key ∈ auth.looked keys active)
      (hkey : key ∈ keys) : Met keys active auth key
  | account {auth : Authority} {name : AccountName} {key : PublicKey}
      (hlooked : .inr name ∈ auth.looked keys active) (hname : name ≠ tempAccount)
      (hmet : Met keys active (active name) key) : Met keys active auth key

theorem Met.mem {key : PublicKey} (h : Met keys active auth key) : key ∈ keys := by
  induction h with
  | key _ hkey => exact hkey
  | account _ _ _ ih => exact ih

/-- With fewer keys, no key is met less. -/
theorem Met.mono {key : PublicKey} (hkeys : keys ⊆ keys') (hkey : key ∈ keys)
    (h : Met keys' active auth key) : Met keys active auth key := by
  have hlooked : ∀ auth : Authority, auth.looked keys' active ⊆ auth.looked keys active :=
    fun auth ↦ scan_mono (granted_mono hkeys) le_rfl auth.entries
  induction h with
  | key hlooked' _ => exact .key (hlooked _ hlooked') hkey
  | account hlooked' hname _ ih => exact .account (hlooked _ hlooked') hname (ih hkey)

/-! ## Authorities within the recursion limit -/

theorem mem_keyAuths_of_looked {key : PublicKey} (h : .inl key ∈ auth.looked keys active) :
    ∃ weight, (key, weight) ∈ auth.keyAuths := by
  obtain ⟨weight, hentry⟩ := mem_of_scan h
  simp only [Authority.entries, List.mem_append, List.mem_map, Prod.mk.injEq, reduceCtorEq,
    false_and, and_false, exists_false, or_false, Sum.inl.injEq] at hentry
  obtain ⟨entry, hentry, rfl, rfl⟩ := hentry
  exact ⟨_, hentry⟩

theorem mem_accountAuths_of_looked {name : AccountName}
    (h : .inr name ∈ auth.looked keys active) : ∃ weight, (name, weight) ∈ auth.accountAuths := by
  obtain ⟨weight, hentry⟩ := mem_of_scan h
  simp only [Authority.entries, List.mem_append, List.mem_map, Prod.mk.injEq, reduceCtorEq,
    false_and, and_false, exists_false, false_or, Sum.inr.injEq] at hentry
  obtain ⟨entry, hentry, rfl, rfl⟩ := hentry
  exact ⟨_, hentry⟩

/-- A check with these keys that the recursion limit cuts nothing off from: weights do not overflow,
and the accounts it comes to at the limit have no derivation and no key is met in them. -/
def Uncut (keys : Finset PublicKey) (active : AccountName → Authority) : ℕ → Authority → Prop
  | 0, auth => auth.Fits ∧ ∀ name, .inr name ∈ auth.looked keys active → name ≠ tempAccount →
      ¬ Satisfied keys active (active name) ∧ ∀ key, ¬ Met keys active (active name) key
  | levels + 1, auth => auth.Fits ∧ ∀ name, .inr name ∈ auth.looked keys active →
      name ≠ tempAccount → Uncut keys active levels (active name)

/-- An authority whose keys reach the threshold is not gone into. -/
theorem Uncut.of_keys {levels : ℕ} (hfits : auth.Fits)
    (h : ∀ name, .inr name ∉ auth.looked keys active) : Uncut keys active levels auth := by
  cases levels with
  | zero => exact ⟨hfits, fun name hname ↦ absurd hname (h name)⟩
  | succ levels => exact ⟨hfits, fun name hname ↦ absurd hname (h name)⟩

/-- The keys met by a check of a satisfied authority satisfy it on their own. -/
theorem Satisfied.of_met {levels : ℕ} (huncut : Uncut keys active levels auth)
    (h : Satisfied keys active auth) (hmet : ∀ key, Met keys active auth key → key ∈ keys') :
    Satisfied keys' active auth := by
  induction levels generalizing auth with
  | zero =>
    rw [satisfied_iff_scan] at h ⊢
    rw [scan_verdict]
    refine scan_weight h fun a ha hgranted ↦ ?_
    cases a with
    | inl key => exact (granted_inl key).2 (hmet key (.key ha ((granted_inl key).1 hgranted)))
    | inr name =>
      rw [granted_inr] at hgranted ⊢
      by_cases hname : name = tempAccount
      · exact .inl hname
      · exact absurd (hgranted.resolve_left hname) (huncut.2 name ha hname).1
  | succ levels ih =>
    rw [satisfied_iff_scan] at h ⊢
    rw [scan_verdict]
    refine scan_weight h fun a ha hgranted ↦ ?_
    cases a with
    | inl key => exact (granted_inl key).2 (hmet key (.key ha ((granted_inl key).1 hgranted)))
    | inr name =>
      rw [granted_inr] at hgranted ⊢
      by_cases hname : name = tempAccount
      · exact .inl hname
      · refine .inr (ih (huncut.2 name ha hname) (hgranted.resolve_left hname) ?_)
        exact fun key hkey ↦ hmet key (.account ha hname hkey)

namespace SignState

/-! ## The signatures used by a check -/

variable {st st' : SignState}

/-- A key is marked as used. -/
def Uses (st : SignState) (key : PublicKey) : Prop := (key, true) ∈ st.providedSignatures

/-- Keys are provided once, and approved accounts have been gone into. -/
structure Good (active : AccountName → Authority) (st : SignState) : Prop where
  nodup : (st.providedSignatures.map Prod.fst).Nodup
  temp : tempAccount ∈ st.approvedBy
  approved : ∀ name ∈ st.approvedBy, name ≠ tempAccount →
    Satisfied st.keys active (active name) ∧ ∀ key, Met st.keys active (active name) key →
      st.Uses key

theorem signedBy_uses (st : SignState) (key : PublicKey) :
    (∀ k, (st.signedBy key).1.Uses k ↔ st.Uses k ∨ k = key ∧ key ∈ st.keys) ∧
      ((st.providedSignatures.map Prod.fst).Nodup →
        ((st.signedBy key).1.providedSignatures.map Prod.fst).Nodup) := by
  have hmember := (st.signedBy_spec key).1
  unfold signedBy at hmember ⊢
  split_ifs at hmember ⊢ with hprovided havailable
  · have hkey := of_decide_eq_true hmember.symm
    have hsame : (st.providedSignatures.map fun sig ↦
        if sig.1 = key then (key, true) else sig).map Prod.fst =
          st.providedSignatures.map Prod.fst := by
      rw [List.map_map]
      apply List.map_congr_left
      intro sig _
      by_cases hsig : sig.1 = key <;> simp [hsig]
    refine ⟨fun k ↦ ?_, fun hnodup ↦ by rwa [hsame]⟩
    simp only [Uses, List.mem_map, hkey, and_true]
    constructor
    · rintro ⟨sig, hsig, heq⟩
      split_ifs at heq with hk
      · exact .inr (congrArg Prod.fst heq).symm
      · exact .inl (heq ▸ hsig)
    · rintro (hused | rfl)
      · by_cases hk : k = key
        · exact ⟨(k, true), hused, by simp [hk]⟩
        · exact ⟨(k, true), hused, by simp [hk]⟩
      · obtain ⟨sig, hsig, hfst⟩ := List.mem_map.1 hprovided
        exact ⟨sig, hsig, by rw [if_pos hfst]⟩
  · have hkey := of_decide_eq_true hmember.symm
    refine ⟨fun k ↦ ?_, fun hnodup ↦ ?_⟩
    · simp [Uses, hkey]
    · rw [List.map_append, List.map_cons, List.map_nil]
      refine List.nodup_append.2 ⟨hnodup, List.nodup_singleton _, ?_⟩
      rintro a ha b hb rfl
      obtain rfl := List.mem_singleton.1 hb
      exact hprovided ha
  · have hkey := of_decide_eq_false hmember.symm
    exact ⟨fun k ↦ by simp [hkey], id⟩

/-- The loop over the keys of an authority, as the first part of a scan. -/
theorem keyWeight_scan {threshold : ℕ} {entries : List (PublicKey × ℕ)} {total total' : ℕ}
    {done : Bool} (hkeys : st.keys = keys)
    (h : keyWeight threshold entries st total = (st', total', done))
    (more : List ((PublicKey ⊕ AccountName) × ℕ))
    (hfits : Fits threshold total (entries.map Prod.snd ++ more.map Prod.snd))
    (hlt : total < threshold ∨ threshold = 0) :
    ((st.providedSignatures.map Prod.fst).Nodup → (st'.providedSignatures.map Prod.fst).Nodup) ∧
      ∃ looked : List PublicKey, (∀ key, st'.Uses key ↔ st.Uses key ∨ key ∈ looked ∧ key ∈ keys) ∧
        scan (granted keys active) threshold total
            (entries.map (fun entry ↦ (.inl entry.1, entry.2)) ++ more) =
          (looked.map .inl ++
              if done then [] else (scan (granted keys active) threshold total' more).1,
            if done then true else (scan (granted keys active) threshold total' more).2) ∧
        (done = false → Fits threshold total' (more.map Prod.snd) ∧
          (total' < threshold ∨ threshold = 0)) := by
  induction entries generalizing st total with
  | nil =>
    cases h
    exact ⟨id, [], fun key ↦ by simp, by simp, fun _ ↦ ⟨hfits, hlt⟩⟩
  | cons entry rest ih =>
    obtain ⟨key, weight⟩ := entry
    obtain ⟨hsigned, hkeys₁, _⟩ := st.signedBy_spec key
    obtain ⟨huses, hnodup⟩ := st.signedBy_uses key
    rcases hst : st.signedBy key with ⟨st₁, signed⟩
    rw [hst] at hsigned hkeys₁ huses hnodup
    dsimp only at hsigned hkeys₁ huses hnodup
    rw [hkeys] at hsigned huses hkeys₁
    simp only [keyWeight, hst] at h
    -- The key is looked at in either case.
    have hstep : ∀ {looked : List PublicKey},
        (∀ k, st'.Uses k ↔ st₁.Uses k ∨ k ∈ looked ∧ k ∈ keys) →
        ∀ k, st'.Uses k ↔ st.Uses k ∨ k ∈ key :: looked ∧ k ∈ keys := by
      intro looked hlooked k
      rw [hlooked k, huses k, List.mem_cons]
      constructor
      · rintro ((h | ⟨rfl, hk⟩) | ⟨hk, hk'⟩)
        · exact .inl h
        · exact .inr ⟨.inl rfl, hk⟩
        · exact .inr ⟨.inr hk, hk'⟩
      · rintro (h | ⟨rfl | hk, hk'⟩)
        · exact .inl (.inl h)
        · exact .inl (.inr ⟨rfl, hk'⟩)
        · exact .inr ⟨hk, hk'⟩
    cases signed with
    | false =>
      have hnot : granted keys active (.inl key) = false := by
        rw [Bool.eq_false_iff]
        intro hgranted
        rw [decide_eq_true ((granted_inl key).1 hgranted)] at hsigned
        cases hsigned
      obtain ⟨hnodup', looked, hlooked, hscan, hmore⟩ := ih hkeys₁ h hfits.skip hlt
      refine ⟨fun hst ↦ hnodup' (hnodup hst), key :: looked, hstep hlooked, ?_, hmore⟩
      rw [List.map_cons, List.cons_append, scan, hnot, if_neg Bool.false_ne_true, hscan]
      rfl
    | true =>
      have hgranted : granted keys active (.inl key) = true :=
        (granted_inl key).2 (of_decide_eq_true hsigned.symm)
      dsimp only at h
      have hreached : threshold ≤ uint32 (total + weight) ↔ threshold ≤ total + weight := by
        rcases hlt with hlt | rfl
        · rw [(hfits.take hlt).1]
        · simp
      split_ifs at h with hstop
      · cases h
        refine ⟨hnodup, [key], fun k ↦ ?_, ?_, fun h ↦ (by cases h)⟩
        · exact (huses k).trans (or_congr_right (by simp +contextual [eq_comm]))
        · rw [List.map_cons, List.cons_append, scan, hgranted, if_pos rfl,
            if_pos (hreached.1 hstop)]
          rfl
      · have hless : total < threshold := by
          rcases hlt with hlt | rfl
          · exact hlt
          · exact absurd (Nat.zero_le _) hstop
        obtain ⟨hexact, hfits'⟩ := hfits.take hless
        rw [hexact] at h hstop
        obtain ⟨hnodup', looked, hlooked, hscan, hmore⟩ :=
          ih hkeys₁ h hfits' (.inl (not_le.1 hstop))
        refine ⟨fun hst ↦ hnodup' (hnodup hst), key :: looked, hstep hlooked, ?_, hmore⟩
        rw [List.map_cons, List.cons_append, scan, hgranted, if_pos rfl, if_neg hstop, hscan]
        rfl

/-- What a check does to a good state that meets some keys. -/
structure Advances (active : AccountName → Authority) (st st' : SignState)
    (met : PublicKey → Prop) : Prop where
  keys : st'.keys = st.keys
  good : Good active st'
  uses : ∀ key, st'.Uses key ↔ st.Uses key ∨ met key

theorem Good.of_uses (hgood : Good active st)
    (hnodup : (st'.providedSignatures.map Prod.fst).Nodup) (hkeys : st'.keys = st.keys)
    (happroved : st'.approvedBy = st.approvedBy) (huses : ∀ key, st.Uses key → st'.Uses key) :
    Good active st' := by
  refine ⟨hnodup, happroved ▸ hgood.temp, fun name hname hne ↦ ?_⟩
  rw [happroved] at hname
  rw [hkeys]
  obtain ⟨hsatisfied, hmet⟩ := hgood.approved name hname hne
  exact ⟨hsatisfied, fun key hkey ↦ huses key (hmet key hkey)⟩

/-- A check of accounts that goes into an account, or passes over one in which there is nothing to
be met. -/
inductive GoesInto (keys : Finset PublicKey) (active : AccountName → Authority)
    (name : AccountName) : Option (AccountName → SignState → Exec (SignState × Bool)) → Prop
  | passed (hnot : ¬ Satisfied keys active (active name))
      (hmet : ∀ key, ¬ Met keys active (active name) key) : GoesInto keys active name none
  | checked (c : AccountName → SignState → Exec (SignState × Bool))
      (hc : ∀ st, Good active st → st.keys = keys → ∃ st' ok, c name st = .ok (st', ok) ∧
        (ok = true ↔ Satisfied keys active (active name)) ∧
        Advances active st st' (Met keys active (active name))) :
      GoesInto keys active name (some c)

theorem approves_advances {check : Option (AccountName → SignState → Exec (SignState × Bool))}
    {name : AccountName} (hcheck : name ≠ tempAccount → GoesInto st.keys active name check)
    (hgood : Good active st) :
    ∃ st' ok, approves check name st = .ok (st', ok) ∧
      ok = granted st.keys active (.inr name) ∧
      Advances active st st' fun key ↦ name ≠ tempAccount ∧
        Met st.keys active (active name) key := by
  unfold approves
  split_ifs with hmem
  · refine ⟨st, true, rfl, ?_, rfl, hgood, fun key ↦ ?_⟩
    · refine ((granted_inr name).2 (or_iff_not_imp_left.2 fun hne ↦ ?_)).symm
      exact (hgood.approved name hmem hne).1
    · refine ⟨.inl, fun h ↦ h.elim id fun ⟨hne, hmet⟩ ↦ ?_⟩
      exact (hgood.approved name hmem hne).2 key hmet
  · have hne : name ≠ tempAccount := fun h ↦ hmem (h ▸ hgood.temp)
    cases hcheck hne with
    | passed hnot hmet =>
      refine ⟨st, false, rfl, ?_, rfl, hgood, fun key ↦ ?_⟩
      · refine (Bool.eq_false_iff.2 fun hgranted ↦ hnot ?_).symm
        exact ((granted_inr name).1 hgranted).resolve_left hne
      · exact ⟨.inl, fun h ↦ h.elim id fun h' ↦ absurd h'.2 (hmet key)⟩
    | checked c hc =>
      obtain ⟨st₁, ok, hresult, hok, hadvances⟩ := hc st hgood rfl
      have hgranted : ok = granted st.keys active (.inr name) := by
        rw [Bool.eq_iff_iff, granted_inr, hok]
        exact ⟨.inr, fun h ↦ h.resolve_left hne⟩
      have huses : ∀ key, st₁.Uses key ↔
          st.Uses key ∨ name ≠ tempAccount ∧ Met st.keys active (active name) key := by
        intro key
        rw [hadvances.uses key]
        exact or_congr_right ⟨fun h ↦ ⟨hne, h⟩, fun h ↦ h.2⟩
      cases ok with
      | false =>
        refine ⟨st₁, false, ?_, hgranted, hadvances.keys, hadvances.good, huses⟩
        simp only [hresult]
        rfl
      | true =>
        refine ⟨{ st₁ with approvedBy := name :: st₁.approvedBy }, true, ?_, hgranted,
          hadvances.keys,
          ⟨hadvances.good.nodup, List.mem_cons_of_mem _ hadvances.good.temp, ?_⟩, huses⟩
        · simp only [hresult]
          rfl
        · intro other hother hother'
          have hkeys :
              SignState.keys { st₁ with approvedBy := name :: st₁.approvedBy } = st₁.keys := rfl
          rw [hkeys]
          rcases List.mem_cons.1 hother with rfl | hother
          · rw [hadvances.keys]
            exact ⟨hok.1 rfl, fun key hkey ↦ (hadvances.uses key).2 (.inr hkey)⟩
          · exact hadvances.good.approved other hother hother'

/-- The keys met in accounts that were looked at. -/
def MetIn (keys : Finset PublicKey) (active : AccountName → Authority)
    (looked : List (PublicKey ⊕ AccountName)) (key : PublicKey) : Prop :=
  ∃ name, .inr name ∈ looked ∧ name ≠ tempAccount ∧ Met keys active (active name) key

theorem metIn_cons {looked : List (PublicKey ⊕ AccountName)} {name : AccountName}
    {key : PublicKey} : MetIn keys active (.inr name :: looked) key ↔
      (name ≠ tempAccount ∧ Met keys active (active name) key) ∨ MetIn keys active looked key := by
  constructor
  · rintro ⟨other, hmem, h⟩
    rcases List.mem_cons.1 hmem with heq | hmem
    · cases heq
      exact .inl h
    · exact .inr ⟨other, hmem, h⟩
  · rintro (h | ⟨other, hmem, h⟩)
    · exact ⟨name, List.mem_cons_self, h⟩
    · exact ⟨other, List.mem_cons_of_mem _ hmem, h⟩

theorem not_metIn_nil {key : PublicKey} : ¬ MetIn keys active [] key := by
  rintro ⟨_, hmem, _⟩
  exact List.not_mem_nil hmem

/-- The loop over the accounts of an authority, as the second part of a scan. -/
theorem accountWeight_scan {check : Option (AccountName → SignState → Exec (SignState × Bool))}
    {threshold total : ℕ} {entries : List (AccountName × ℕ)}
    (hcheck : ∀ name, .inr name ∈ (scan (granted st.keys active) threshold total
        (entries.map fun entry ↦ (.inr entry.1, entry.2))).1 →
      name ≠ tempAccount → GoesInto st.keys active name check)
    (hgood : Good active st) (hfits : Fits threshold total (entries.map Prod.snd))
    (hlt : total < threshold ∨ threshold = 0) :
    ∃ st', accountWeight threshold check entries st total = .ok (st',
        (scan (granted st.keys active) threshold total
          (entries.map fun entry ↦ (.inr entry.1, entry.2))).2) ∧
      Advances active st st' (MetIn st.keys active (scan (granted st.keys active) threshold total
        (entries.map fun entry ↦ (.inr entry.1, entry.2))).1) := by
  induction entries generalizing st total with
  | nil => exact ⟨st, rfl, rfl, hgood, fun key ↦ by simp [scan, not_metIn_nil]⟩
  | cons entry rest ih =>
    obtain ⟨name, weight⟩ := entry
    rw [List.map_cons] at hcheck
    obtain ⟨st₁, ok, happroves, hok, hadvances⟩ :=
      approves_advances (hcheck name (mem_scan_cons _ _ _ _)) hgood
    rw [scan, ← hok] at hcheck
    -- What is met in the rest comes after what is met in this account.
    have hcons : ∀ {st' : SignState} {looked : List (PublicKey ⊕ AccountName)},
        Advances active st₁ st' (MetIn st₁.keys active looked) →
        Advances active st st' (MetIn st.keys active (.inr name :: looked)) := by
      intro st' looked h
      refine ⟨h.keys.trans hadvances.keys, h.good, fun key ↦ ?_⟩
      rw [h.uses, hadvances.uses, metIn_cons, hadvances.keys, or_assoc]
    rw [List.map_cons, scan, ← hok]
    cases ok with
    | false =>
      have hrest := fun other hother ↦ hcheck other (List.mem_cons_of_mem _ hother)
      rw [← hadvances.keys] at hrest
      obtain ⟨st', hloop, hmet⟩ := ih hrest hadvances.good hfits.skip hlt
      rw [hadvances.keys] at hloop
      refine ⟨st', ?_, ?_⟩
      · simp only [accountWeight, happroves]
        exact hloop
      · have hall := hcons hmet
        rwa [hadvances.keys] at hall
    | true =>
      have hreached : threshold ≤ uint32 (total + weight) ↔ threshold ≤ total + weight := by
        rcases hlt with hlt | rfl
        · rw [(hfits.take hlt).1]
        · simp
      rw [if_pos rfl]
      by_cases hstop : threshold ≤ total + weight
      · refine ⟨st₁, ?_, ?_⟩
        · simp only [accountWeight, happroves]
          rw [if_pos hstop]
          exact if_pos (hreached.2 hstop)
        · rw [if_pos hstop]
          exact hcons ⟨rfl, hadvances.good, fun key ↦ by simp [not_metIn_nil]⟩
      · have hless : total < threshold := by
          rcases hlt with hlt | rfl
          · exact hlt
          · exact absurd (Nat.zero_le _) hstop
        obtain ⟨hexact, hfits'⟩ := hfits.take hless
        rw [if_pos rfl, if_neg hstop] at hcheck
        have hrest := fun other hother ↦ hcheck other (List.mem_cons_of_mem _ hother)
        rw [← hadvances.keys] at hrest
        obtain ⟨st', hloop, hmet⟩ := ih hrest hadvances.good hfits' (.inl (not_le.1 hstop))
        rw [hadvances.keys] at hloop
        refine ⟨st', ?_, ?_⟩
        · simp only [accountWeight, happroves, hexact]
          rw [if_neg hstop]
          exact (if_neg hstop).trans hloop
        · rw [if_neg hstop]
          have hall := hcons hmet
          rwa [hadvances.keys] at hall

theorem met_iff {key : PublicKey} : Met keys active auth key ↔
    (.inl key ∈ auth.looked keys active ∧ key ∈ keys) ∨
      MetIn keys active (auth.looked keys active) key := by
  constructor
  · rintro (⟨hlooked, hkey⟩ | ⟨hlooked, hname, hmet⟩)
    · exact .inl ⟨hlooked, hkey⟩
    · exact .inr ⟨_, hlooked, hname, hmet⟩
  · rintro (⟨hlooked, hkey⟩ | ⟨_, hlooked, hname, hmet⟩)
    · exact .key hlooked hkey
    · exact .account hlooked hname hmet

theorem checkLevel_advances {check : Option (AccountName → SignState → Exec (SignState × Bool))}
    (hcheck : ∀ name, .inr name ∈ auth.looked st.keys active → name ≠ tempAccount →
      GoesInto st.keys active name check)
    (hfits : auth.Fits) (hgood : Good active st) :
    ∃ st' ok, checkLevel check auth st = .ok (st', ok) ∧
      (ok = true ↔ Satisfied st.keys active auth) ∧
      Advances active st st' (Met st.keys active auth) := by
  rcases hweight : keyWeight auth.weightThreshold auth.keyAuths st 0 with ⟨st₁, total, done⟩
  obtain ⟨⟨hkeys, hsame⟩, _⟩ := keyWeight_spec hweight
  obtain ⟨hnodup, looked, hlooked, hscan, hmore⟩ := keyWeight_scan rfl hweight
    (auth.accountAuths.map fun entry ↦ (.inr entry.1, entry.2))
    (by simpa [Authority.Fits, Function.comp_def] using hfits) (by omega)
  have hgood₁ : Good active st₁ :=
    hgood.of_uses (hnodup hgood.nodup) hkeys hsame fun key hkey ↦ (hlooked key).2 (.inl hkey)
  have hentries : scan (granted st.keys active) auth.weightThreshold 0 auth.entries = _ := hscan
  cases done with
  | true =>
    refine ⟨st₁, true, ?_, ?_, hkeys, hgood₁, fun key ↦ ?_⟩
    · rw [checkLevel, hweight]
      rfl
    · rw [satisfied_iff_scan, hentries]
      simp
    · rw [hlooked key, met_iff, Authority.looked, hentries]
      simp [MetIn]
  | false =>
    obtain ⟨hfits', hlt⟩ := hmore rfl
    simp only [Bool.false_eq_true, if_false] at hentries
    have htail : ∀ name, .inr name ∈ (scan (granted st₁.keys active) auth.weightThreshold total
        (auth.accountAuths.map fun entry ↦ (.inr entry.1, entry.2))).1 → name ≠ tempAccount →
          GoesInto st₁.keys active name check := by
      rw [hkeys]
      intro name hname
      apply hcheck
      rw [Authority.looked, hentries]
      exact List.mem_append_right _ hname
    obtain ⟨st', hloop, hadvances⟩ := accountWeight_scan htail hgood₁
      (by simpa [Function.comp_def] using hfits') hlt
    rw [hkeys] at hloop hadvances
    have haccounts : ∀ key, Sum.inl key ∉ (scan (granted st.keys active) auth.weightThreshold total
        (auth.accountAuths.map fun entry ↦ (Sum.inr entry.1, entry.2))).1 := by
      intro key hkey
      obtain ⟨weight, hentry⟩ := mem_of_scan hkey
      simp at hentry
    generalize scan (granted st.keys active) auth.weightThreshold total
      (auth.accountAuths.map fun entry ↦ (Sum.inr entry.1, entry.2)) = tail
      at hloop hadvances hentries haccounts
    refine ⟨st', tail.2, ?_, ?_, hadvances.keys.trans hkeys, hadvances.good, fun key ↦ ?_⟩
    · rw [checkLevel, hweight]
      exact hloop
    · rw [satisfied_iff_scan, hentries]
    · rw [hadvances.uses, hlooked key, met_iff, Authority.looked, hentries, or_assoc]
      simp [MetIn, haccounts]

/-- A check that the recursion limit cuts nothing off from decides an authority and marks the keys
it meets. -/
theorem checkAuthority_advances {levels : ℕ} (huncut : Uncut st.keys active levels auth)
    (hgood : Good active st) :
    ∃ st' ok, checkAuthority (fun name ↦ .ok (active name)) levels auth st = .ok (st', ok) ∧
      (ok = true ↔ Satisfied st.keys active auth) ∧
      Advances active st st' (Met st.keys active auth) := by
  induction levels generalizing auth st with
  | zero =>
    rw [checkAuthority]
    apply checkLevel_advances _ huncut.1 hgood
    intro name hname hne
    obtain ⟨hnot, hmet⟩ := huncut.2 name hname hne
    exact .passed hnot hmet
  | succ levels ih =>
    rw [checkAuthority]
    apply checkLevel_advances _ huncut.1 hgood
    intro name hname hne
    refine .checked _ fun st' hst' hkeys ↦ ?_
    rw [← hkeys]
    apply ih _ hst'
    rw [hkeys]
    exact huncut.2 name hname hne

end SignState

end SophiaTX.Protocol
