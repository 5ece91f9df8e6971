import Mathlib.Algebra.Order.BigOperators.Group.List
import Mathlib.Algebra.BigOperators.Group.Finset.Basic
import Mathlib.Algebra.BigOperators.Group.List.Basic
import Mathlib.Data.List.Nodup
import Mathlib.Tactic.Abel

/-!
# Keyed tables with one row per key

A table is a list of key/row pairs whose keys are pairwise distinct. The list order is the
order of insertion. The operations are those of an object index: lookup, insertion of a
fresh key, in-place modification and removal. Sums over the rows change by exactly one
summand under each of them, which is what incremental totals rely on.
-/

open scoped BigOperators

namespace SophiaTX.Lib

universe u v w

/-- Rows stored under pairwise distinct keys, in order of insertion. -/
structure Table (κ : Type u) (α : Type v) where
  entries : List (κ × α)
  nodup : (entries.map Prod.fst).Nodup

namespace Table

variable {κ : Type u} {α : Type v}

def empty : Table κ α := ⟨[], List.nodup_nil⟩

def keys (t : Table κ α) : List κ := t.entries.map Prod.fst

def size (t : Table κ α) : ℕ := t.entries.length

/-- Rewrite every row; keys stay where they are. -/
def mapRows (t : Table κ α) (f : κ → α → α) : Table κ α where
  entries := t.entries.map fun entry ↦ (entry.1, f entry.1 entry.2)
  nodup := by
    have hkeys : (t.entries.map fun entry ↦ (entry.1, f entry.1 entry.2)).map Prod.fst =
        t.entries.map Prod.fst := by
      simp [Function.comp_def]
    rw [hkeys]
    exact t.nodup

/-- Keep the rows a test accepts. -/
def filterRows (t : Table κ α) (p : κ → α → Bool) : Table κ α where
  entries := t.entries.filter fun entry ↦ p entry.1 entry.2
  nodup := t.nodup.sublist (List.filter_sublist.map Prod.fst)

theorem eq_of_key_eq {t : Table κ α} {entry other : κ × α} (hentry : entry ∈ t.entries)
    (hother : other ∈ t.entries) (hkey : entry.1 = other.1) : entry = other :=
  List.inj_on_of_nodup_map t.nodup hentry hother hkey

variable [DecidableEq κ]

def find? (t : Table κ α) (k : κ) : Option α :=
  (t.entries.find? fun entry ↦ decide (entry.1 = k)).map Prod.snd

def modify (t : Table κ α) (k : κ) (f : α → α) : Table κ α :=
  t.mapRows fun key row ↦ if key = k then f row else row

def erase (t : Table κ α) (k : κ) : Table κ α :=
  t.filterRows fun key _ ↦ decide (key ≠ k)

/-- Insertion fails when the key is taken. -/
def emplace? (t : Table κ α) (k : κ) (row : α) : Option (Table κ α) :=
  if h : k ∈ t.entries.map Prod.fst then none
  else some {
    entries := t.entries ++ [(k, row)]
    nodup := by
      rw [List.map_append, List.nodup_append]
      refine ⟨t.nodup, List.nodup_singleton _, ?_⟩
      intro key hkey other hother hsame
      rw [List.map_singleton, List.mem_singleton] at hother
      rw [hsame, hother] at hkey
      exact h hkey }

/-! ## Lookup -/

theorem find?_eq_some_iff (t : Table κ α) (k : κ) (row : α) :
    t.find? k = some row ↔ (k, row) ∈ t.entries := by
  rcases t with ⟨entries, hnodup⟩
  simp only [find?]
  induction entries with
  | nil => simp
  | cons entry rest ih =>
    rcases entry with ⟨key, value⟩
    rw [List.map_cons, List.nodup_cons] at hnodup
    by_cases hkey : key = k
    · have habsent : (k, row) ∉ rest := by
        intro hmem
        exact hnodup.1 (List.mem_map.2 ⟨(k, row), hmem, hkey.symm⟩)
      simp [hkey, habsent, eq_comm]
    · have hne : k ≠ key := fun h ↦ hkey h.symm
      simpa [hkey, hne] using ih hnodup.2

theorem find?_eq_none_iff (t : Table κ α) (k : κ) :
    t.find? k = none ↔ k ∉ t.keys := by
  rw [← not_iff_not, ← ne_eq, Option.ne_none_iff_exists']
  simp only [find?_eq_some_iff, keys, not_not, List.mem_map, Prod.exists, exists_and_right,
    exists_eq_right]

theorem mem_keys_iff (t : Table κ α) (k : κ) : k ∈ t.keys ↔ ∃ row, t.find? k = some row := by
  simp [find?_eq_some_iff, keys]

theorem mem_keys_of_find? {t : Table κ α} {k : κ} {row : α} (h : t.find? k = some row) :
    k ∈ t.keys := (mem_keys_iff t k).2 ⟨row, h⟩

@[simp]
theorem find?_mapRows (t : Table κ α) (f : κ → α → α) (k : κ) :
    (t.mapRows f).find? k = (t.find? k).map (f k) := by
  ext row
  rw [find?_eq_some_iff]
  simp only [mapRows, List.mem_map, Prod.mk.injEq, Prod.exists, Option.map_eq_some_iff,
    find?_eq_some_iff]
  constructor
  · rintro ⟨key, value, hmem, rfl, hrow⟩
    exact ⟨value, hmem, hrow⟩
  · rintro ⟨value, hmem, hrow⟩
    exact ⟨k, value, hmem, rfl, hrow⟩

omit [DecidableEq κ] in
@[simp]
theorem keys_mapRows (t : Table κ α) (f : κ → α → α) : (t.mapRows f).keys = t.keys := by
  simp [keys, mapRows, Function.comp_def]

@[simp]
theorem keys_modify (t : Table κ α) (k : κ) (f : α → α) : (t.modify k f).keys = t.keys :=
  keys_mapRows t _

@[simp]
theorem find?_modify_self (t : Table κ α) (k : κ) (f : α → α) :
    (t.modify k f).find? k = (t.find? k).map f := by
  simp [modify]

theorem find?_modify_of_ne (t : Table κ α) {k k' : κ} (f : α → α) (h : k' ≠ k) :
    (t.modify k f).find? k' = t.find? k' := by
  simp [modify, h]

theorem find?_modify (t : Table κ α) (k k' : κ) (f : α → α) :
    (t.modify k f).find? k' = if k' = k then (t.find? k').map f else t.find? k' := by
  by_cases h : k' = k
  · rw [if_pos h, h, find?_modify_self]
  · rw [if_neg h, find?_modify_of_ne t f h]

theorem find?_filterRows (t : Table κ α) (p : κ → α → Bool) (k : κ) :
    (t.filterRows p).find? k = (t.find? k).filter (p k) := by
  ext row
  rw [find?_eq_some_iff]
  simp [filterRows, Option.filter_eq_some_iff, find?_eq_some_iff]

theorem find?_erase (t : Table κ α) (k k' : κ) :
    (t.erase k).find? k' = if k' = k then none else t.find? k' := by
  rw [erase, find?_filterRows]
  by_cases h : k' = k
  · simp [h]
  · cases t.find? k' <;> simp [h]

omit [DecidableEq κ] in
theorem keys_filterRows (t : Table κ α) (p : κ → Bool) :
    (t.filterRows fun k _ ↦ p k).keys = t.keys.filter p := by
  rw [keys, keys, List.filter_map]
  rfl

theorem emplace?_eq_some {t t' : Table κ α} {k : κ} {row : α}
    (h : t.emplace? k row = some t') :
    t.find? k = none ∧ t'.entries = t.entries ++ [(k, row)] := by
  unfold emplace? at h
  split at h
  · exact absurd h (by simp)
  · rename_i hfresh
    refine ⟨(find?_eq_none_iff t k).2 hfresh, ?_⟩
    rw [← Option.some.inj h]

theorem find?_emplace? {t t' : Table κ α} {k : κ} {row : α}
    (h : t.emplace? k row = some t') (k' : κ) :
    t'.find? k' = if k' = k then some row else t.find? k' := by
  obtain ⟨hfresh, hentries⟩ := emplace?_eq_some h
  rw [find?_eq_none_iff] at hfresh
  ext value
  rw [find?_eq_some_iff, hentries, List.mem_append, List.mem_singleton, Prod.mk.injEq]
  by_cases hk : k' = k
  · subst hk
    have habsent : (k', value) ∉ t.entries := fun hmem ↦
      hfresh (List.mem_map.2 ⟨(k', value), hmem, rfl⟩)
    simp [habsent, eq_comm]
  · simp [hk, find?_eq_some_iff]

theorem keys_emplace? {t t' : Table κ α} {k : κ} {row : α}
    (h : t.emplace? k row = some t') : t'.keys = t.keys ++ [k] := by
  simp [keys, (emplace?_eq_some h).2]

/-! ### Rows that are seen through a function -/

omit [DecidableEq κ] in
theorem ext_entries {t t' : Table κ α} (h : t.entries = t'.entries) : t = t' := by
  cases t
  cases t'
  cases h
  rfl

/-- A row is modified behind the function as its image is in front of it. -/
theorem modify_mapRows (t : Table κ α) (w : κ → α → α) (k : κ) {f f' : α → α}
    (h : ∀ row, f' (w k row) = w k (f row)) :
    (t.mapRows w).modify k f' = (t.modify k f).mapRows w := by
  apply ext_entries
  simp only [modify, mapRows, List.map_map]
  apply List.map_congr_left
  rintro ⟨key, row⟩ _
  simp only [Function.comp_apply, Prod.mk.injEq, true_and]
  split_ifs with hkey
  · rw [hkey, h]
  · rfl

theorem emplace?_mapRows (t : Table κ α) (w : κ → α → α) {k : κ} {row : α}
    (h : k ∉ t.keys → w k row = row) :
    (t.mapRows w).emplace? k row = (t.emplace? k row).map fun t' ↦ t'.mapRows w := by
  have hkeys : (t.mapRows w).entries.map Prod.fst = t.keys := keys_mapRows t w
  by_cases hk : k ∈ t.keys
  · have hk' : k ∈ t.entries.map Prod.fst := hk
    rw [← hkeys] at hk
    rw [emplace?, emplace?, dif_pos hk, dif_pos hk']
    rfl
  · have hk' : k ∉ t.entries.map Prod.fst := hk
    have hrow := h hk
    rw [← hkeys] at hk
    rw [emplace?, emplace?, dif_neg hk, dif_neg hk', Option.map_some, Option.some.injEq]
    apply ext_entries
    simp [mapRows, hrow]

/-! ## Sums over the rows -/

section Sum

variable {M : Type w}

def sum [AddMonoid M] (t : Table κ α) (f : κ → α → M) : M :=
  (t.entries.map fun entry ↦ f entry.1 entry.2).sum

omit [DecidableEq κ] in
@[simp]
theorem sum_empty [AddMonoid M] (f : κ → α → M) : (empty : Table κ α).sum f = 0 := rfl

theorem sum_congr [AddMonoid M] {t : Table κ α} {f g : κ → α → M}
    (h : ∀ k row, t.find? k = some row → f k row = g k row) : t.sum f = t.sum g := by
  unfold sum
  congr 1
  apply List.map_congr_left
  rintro ⟨k, row⟩ hmem
  exact h k row ((find?_eq_some_iff t k row).2 hmem)

omit [DecidableEq κ] in
theorem sum_mapRows [AddMonoid M] (t : Table κ α) (g : κ → α → α) (f : κ → α → M) :
    (t.mapRows g).sum f = t.sum fun k row ↦ f k (g k row) := by
  simp [sum, mapRows, Function.comp_def]

theorem sum_emplace? [AddMonoid M] {t t' : Table κ α} {k : κ} {row : α}
    (h : t.emplace? k row = some t') (f : κ → α → M) : t'.sum f = t.sum f + f k row := by
  simp [sum, (emplace?_eq_some h).2]

theorem sum_nonneg [AddCommMonoid M] [PartialOrder M] [IsOrderedAddMonoid M] {t : Table κ α}
    {f : κ → α → M} (h : ∀ k row, t.find? k = some row → 0 ≤ f k row) : 0 ≤ t.sum f := by
  unfold sum
  apply List.sum_nonneg
  intro x hx
  obtain ⟨⟨k, row⟩, hmem, rfl⟩ := List.mem_map.1 hx
  exact h k row ((find?_eq_some_iff t k row).2 hmem)

/-- The sum over the rows as a sum over the set of keys. -/
theorem sum_eq_finset_sum [AddCommMonoid M] (t : Table κ α) (f : κ → α → M) :
    t.sum f = ∑ k ∈ t.keys.toFinset, (t.find? k).elim 0 (f k) := by
  have hrows : t.sum f = (t.keys.map fun k ↦ (t.find? k).elim 0 (f k)).sum := by
    unfold sum keys
    rw [List.map_map]
    congr 1
    apply List.map_congr_left
    rintro ⟨k, row⟩ hmem
    simp [(find?_eq_some_iff t k row).2 hmem]
  rw [hrows]
  exact (List.sum_toFinset _ t.nodup).symm

theorem sum_modify_add [AddCommMonoid M] {t : Table κ α} {k : κ} {row : α}
    (h : t.find? k = some row) (g : α → α) (f : κ → α → M) :
    (t.modify k g).sum f + f k row = t.sum f + f k (g row) := by
  have hkey : k ∈ t.keys.toFinset := List.mem_toFinset.2 (mem_keys_of_find? h)
  rw [sum_eq_finset_sum, sum_eq_finset_sum, keys_modify, ← Finset.add_sum_erase _ _ hkey,
    ← Finset.add_sum_erase _ _ hkey]
  have hrest : ∑ k' ∈ t.keys.toFinset.erase k, ((t.modify k g).find? k').elim 0 (f k') =
      ∑ k' ∈ t.keys.toFinset.erase k, (t.find? k').elim 0 (f k') := by
    apply Finset.sum_congr rfl
    intro k' hk'
    rw [find?_modify_of_ne t g (Finset.ne_of_mem_erase hk')]
  rw [hrest, find?_modify_self, h]
  simp only [Option.map_some, Option.elim_some]
  abel

theorem sum_modify [AddCommGroup M] {t : Table κ α} {k : κ} {row : α}
    (h : t.find? k = some row) (g : α → α) (f : κ → α → M) :
    (t.modify k g).sum f = t.sum f + (f k (g row) - f k row) := by
  rw [add_sub, eq_sub_iff_add_eq]
  exact sum_modify_add h g f

theorem sum_modify_of_eq [AddCommMonoid M] (t : Table κ α) (k : κ) (g : α → α) (f : κ → α → M)
    (h : ∀ row, t.find? k = some row → f k (g row) = f k row) :
    (t.modify k g).sum f = t.sum f := by
  rw [modify, sum_mapRows]
  apply sum_congr
  intro k' row hrow
  by_cases hk : k' = k
  · subst hk
    simpa using h row hrow
  · simp [hk]

theorem sum_erase [AddCommGroup M] {t : Table κ α} {k : κ} {row : α}
    (h : t.find? k = some row) (f : κ → α → M) : (t.erase k).sum f = t.sum f - f k row := by
  have hkey : k ∈ t.keys.toFinset := List.mem_toFinset.2 (mem_keys_of_find? h)
  have hkeys : (t.erase k).keys.toFinset = t.keys.toFinset.erase k := by
    ext k'
    simp only [List.mem_toFinset, Finset.mem_erase, mem_keys_iff, find?_erase]
    by_cases hk : k' = k <;> simp [hk]
  rw [sum_eq_finset_sum, sum_eq_finset_sum, hkeys, ← Finset.add_sum_erase _ _ hkey, h]
  have hrest : ∑ k' ∈ t.keys.toFinset.erase k, ((t.erase k).find? k').elim 0 (f k') =
      ∑ k' ∈ t.keys.toFinset.erase k, (t.find? k').elim 0 (f k') := by
    apply Finset.sum_congr rfl
    intro k' hk'
    rw [find?_erase, if_neg (Finset.ne_of_mem_erase hk')]
  rw [hrest]
  simp

end Sum

/-! ## Row invariants -/

/-- Every stored row satisfies a property. -/
def Forall (t : Table κ α) (P : κ → α → Prop) : Prop :=
  ∀ k row, t.find? k = some row → P k row

instance (t : Table κ α) (P : κ → α → Prop) [∀ k row, Decidable (P k row)] :
    Decidable (t.Forall P) :=
  decidable_of_iff (∀ entry ∈ t.entries, P entry.1 entry.2)
    ⟨fun h k row hrow ↦ h (k, row) ((find?_eq_some_iff t k row).1 hrow),
      fun h entry hentry ↦ h entry.1 entry.2 ((find?_eq_some_iff t _ _).2 hentry)⟩

theorem Forall.modify {t : Table κ α} {P : κ → α → Prop} (ht : t.Forall P) (k : κ) {f : α → α}
    (hf : ∀ row, t.find? k = some row → P k row → P k (f row)) : (t.modify k f).Forall P := by
  intro k' row' hrow'
  rw [find?_modify] at hrow'
  split at hrow'
  · rename_i hk
    subst hk
    obtain ⟨row, hrow, rfl⟩ := Option.map_eq_some_iff.1 hrow'
    exact hf row hrow (ht _ row hrow)
  · exact ht k' row' hrow'

theorem Forall.emplace? {t t' : Table κ α} {P : κ → α → Prop} (ht : t.Forall P) {k : κ} {row : α}
    (h : t.emplace? k row = some t') (hrow : P k row) : t'.Forall P := by
  intro k' row' hrow'
  rw [find?_emplace? h] at hrow'
  split at hrow'
  · rename_i hk
    rw [hk, ← Option.some.inj hrow']
    exact hrow
  · exact ht k' row' hrow'

theorem Forall.erase {t : Table κ α} {P : κ → α → Prop} (ht : t.Forall P) (k : κ) :
    (t.erase k).Forall P := by
  intro k' row' hrow'
  rw [find?_erase] at hrow'
  split at hrow'
  · exact absurd hrow' (by simp)
  · exact ht k' row' hrow'

/-! ## Tables that differ only in a part of their rows -/

/-- Same keys in the same order, and rows with the same projection. -/
def AgreeOn {β : Type w} (p : α → β) (t t' : Table κ α) : Prop :=
  t'.keys = t.keys ∧ ∀ k, (t'.find? k).map p = (t.find? k).map p

namespace AgreeOn

variable {β : Type w} {p : α → β} {t t' t'' : Table κ α}

theorem refl (t : Table κ α) : AgreeOn p t t := ⟨rfl, fun _ ↦ rfl⟩

theorem trans (h : AgreeOn p t t') (h' : AgreeOn p t' t'') : AgreeOn p t t'' :=
  ⟨h'.1.trans h.1, fun k ↦ (h'.2 k).trans (h.2 k)⟩

theorem mapRows (t : Table κ α) {f : κ → α → α} (hf : ∀ k row, p (f k row) = p row) :
    AgreeOn p t (t.mapRows f) := by
  refine ⟨keys_mapRows t f, ?_⟩
  intro k
  rw [find?_mapRows, Option.map_map]
  cases t.find? k with
  | none => rfl
  | some row => simp [hf k row]

theorem modify (t : Table κ α) (k : κ) {f : α → α}
    (hf : ∀ row, t.find? k = some row → p (f row) = p row) : AgreeOn p t (t.modify k f) := by
  refine ⟨keys_modify t k f, ?_⟩
  intro k'
  rw [find?_modify]
  split
  · rename_i hk
    subst hk
    cases hrow : t.find? k' with
    | none => rfl
    | some row => simp [hf row hrow]
  · rfl

/-- The same key modified in both tables. -/
theorem modify_both (h : AgreeOn p t t') (k : κ) {f f' : α → α}
    (hf : ∀ row row', t.find? k = some row → t'.find? k = some row' → p row' = p row →
      p (f' row') = p (f row)) : AgreeOn p (t.modify k f) (t'.modify k f') := by
  refine ⟨by rw [keys_modify, keys_modify, h.1], ?_⟩
  intro k'
  rw [find?_modify, find?_modify]
  split
  · rename_i hk
    subst hk
    have hrows := h.2 k'
    cases hrow : t.find? k' with
    | none =>
      rw [hrow, Option.map_none, Option.map_eq_none_iff] at hrows
      rw [hrows]
      rfl
    | some row =>
      rw [hrow, Option.map_some, Option.map_eq_some_iff] at hrows
      obtain ⟨row', hrow', hp⟩ := hrows
      rw [hrow', Option.map_some, Option.map_some, Option.map_some, Option.map_some,
        hf row row' hrow hrow' hp]
  · exact h.2 k'

/-- A coarser projection. -/
theorem map {γ : Type*} (q : β → γ) (h : AgreeOn p t t') : AgreeOn (fun row ↦ q (p row)) t t' := by
  refine ⟨h.1, ?_⟩
  intro k
  have hk := congrArg (Option.map q) (h.2 k)
  simpa [Option.map_map, Function.comp_def] using hk

theorem exists_left (h : AgreeOn p t t') {k : κ} {row' : α} (hrow' : t'.find? k = some row') :
    ∃ row, t.find? k = some row ∧ p row' = p row := by
  have hk := h.2 k
  rw [hrow', Option.map_some, eq_comm, Option.map_eq_some_iff] at hk
  obtain ⟨row, hrow, hp⟩ := hk
  exact ⟨row, hrow, hp.symm⟩

theorem exists_right (h : AgreeOn p t t') {k : κ} {row : α} (hrow : t.find? k = some row) :
    ∃ row', t'.find? k = some row' ∧ p row' = p row := by
  have hk := h.2 k
  rw [hrow, Option.map_some, Option.map_eq_some_iff] at hk
  exact hk

/-- Values that depend on the projection only. -/
theorem elim_eq {γ : Type*} (h : AgreeOn p t t') (k : κ) (z : γ) {f : α → γ} (g : β → γ)
    (hf : ∀ row, f row = g (p row)) : (t'.find? k).elim z f = (t.find? k).elim z f := by
  have helim : ∀ row : Option α, row.elim z f = (row.map p).elim z g := by
    intro row
    cases row <;> simp [hf]
  rw [helim, helim, h.2 k]

theorem map_eq {γ : Type*} (h : AgreeOn p t t') {f : α → γ} (g : β → γ)
    (hf : ∀ row, f row = g (p row)) :
    (t'.entries.map fun entry ↦ f entry.2) = t.entries.map fun entry ↦ f entry.2 := by
  have hrows : ∀ t : Table κ α, (t.entries.map fun entry ↦ some (f entry.2)) =
      t.keys.map fun k ↦ ((t.find? k).map p).map g := by
    intro t
    rw [keys, List.map_map]
    apply List.map_congr_left
    rintro ⟨k, row⟩ hmem
    simp [(find?_eq_some_iff t k row).2 hmem, hf]
  have hsome : (t'.entries.map fun entry ↦ some (f entry.2)) =
      t.entries.map fun entry ↦ some (f entry.2) := by
    rw [hrows, hrows, h.1]
    simp only [h.2]
  have hinjective := List.map_injective_iff.2 (Option.some_injective γ)
  apply hinjective
  simpa only [List.map_map, Function.comp_def] using hsome

theorem sum_eq {M : Type*} [AddCommMonoid M] (h : AgreeOn p t t') {f : κ → α → M}
    (g : κ → β → M) (hf : ∀ k row, f k row = g k (p row)) : t'.sum f = t.sum f := by
  rw [sum_eq_finset_sum, sum_eq_finset_sum, h.1]
  apply Finset.sum_congr rfl
  intro k _
  have hk := h.2 k
  cases hrow : t.find? k with
  | none =>
    rw [hrow, Option.map_none, Option.map_eq_none_iff] at hk
    rw [hk]
  | some row =>
    obtain ⟨row', hrow', hp⟩ := h.exists_right hrow
    simp [hrow', hf, hp]

theorem forall_iff {P : κ → α → Prop} (Q : κ → β → Prop) (h : AgreeOn p t t')
    (hP : ∀ k row, P k row ↔ Q k (p row)) : t'.Forall P ↔ t.Forall P := by
  constructor
  · intro ht k row hrow
    obtain ⟨row', hrow', hp⟩ := h.exists_right hrow
    have := ht k row' hrow'
    rwa [hP, hp, ← hP] at this
  · intro ht k row' hrow'
    obtain ⟨row, hrow, hp⟩ := h.exists_left hrow'
    have := ht k row hrow
    rwa [hP, ← hp, ← hP] at this

end AgreeOn

end Table

end SophiaTX.Lib
