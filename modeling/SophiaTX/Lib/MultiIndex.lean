import SophiaTX.Lib.Table
import Mathlib.Data.List.Sort

/-!
# Containers with unique secondary keys

Values are stored under their id, and no two values in a container share a unique key. Insertion of
a value with a key that is taken leaves the container as it is; modification of a value to one with
a key that is taken erases it.
-/

namespace SophiaTX.Lib

/-! ## Ordered tables -/

namespace Table

variable {κ α : Type*} [DecidableEq κ]

/-- Insertion that leaves a row with the same key in place. -/
def emplace (t : Table κ α) (k : κ) (row : α) : Table κ α := (t.emplace? k row).getD t

theorem emplace?_of_find?_eq_none {t : Table κ α} {k : κ} (h : t.find? k = none) (row : α) :
    t.emplace? k row = some (t.emplace k row) := by
  have hfresh : k ∉ t.entries.map Prod.fst := (find?_eq_none_iff t k).1 h
  rw [emplace, emplace?, dif_neg hfresh, Option.getD_some]

theorem find?_emplace {t : Table κ α} {k : κ} (h : t.find? k = none) (row : α) (k' : κ) :
    (t.emplace k row).find? k' = if k' = k then some row else t.find? k' :=
  find?_emplace? (emplace?_of_find?_eq_none h row) k'

/-- The rows in the order of their keys. -/
def sorted [LinearOrder κ] (t : Table κ α) : List (κ × α) :=
  t.entries.insertionSort fun entry entry' ↦ entry.1 ≤ entry'.1

theorem mem_sorted [LinearOrder κ] {t : Table κ α} {k : κ} {row : α} :
    (k, row) ∈ t.sorted ↔ t.find? k = some row := by
  rw [sorted, List.mem_insertionSort, find?_eq_some_iff]

omit [DecidableEq κ] in
theorem sorted_pairwise [LinearOrder κ] (t : Table κ α) :
    t.sorted.Pairwise fun entry entry' ↦ entry.1 < entry'.1 := by
  have hle : t.sorted.Pairwise fun entry entry' ↦ entry.1 ≤ entry'.1 := by
    have htotal : Std.Total fun entry entry' : κ × α ↦ entry.1 ≤ entry'.1 :=
      ⟨fun entry entry' ↦ le_total entry.1 entry'.1⟩
    have htrans : IsTrans (κ × α) fun entry entry' ↦ entry.1 ≤ entry'.1 :=
      ⟨fun _ _ _ ↦ le_trans⟩
    exact List.pairwise_insertionSort _ _
  have hne : t.sorted.Pairwise fun entry entry' ↦ entry.1 ≠ entry'.1 := by
    have hperm : t.sorted.Perm t.entries := List.perm_insertionSort _ _
    rw [← List.pairwise_map, ← List.nodup_iff_pairwise_ne]
    exact (hperm.map Prod.fst).nodup_iff.2 t.nodup
  exact (hle.and hne).imp fun h ↦ lt_of_le_of_ne h.1 h.2

end Table

/-! ## Containers -/

variable {V κ : Type*} {keys : V → List κ}

/-- Two values with a unique key in common. -/
def Clash (keys : V → List κ) (v w : V) : Prop := ∃ k ∈ keys v, k ∈ keys w

theorem Clash.symm {v w : V} (h : Clash keys v w) : Clash keys w v := by
  obtain ⟨k, hv, hw⟩ := h
  exact ⟨k, hw, hv⟩

instance [DecidableEq κ] (v w : V) : Decidable (Clash keys v w) :=
  inferInstanceAs (Decidable (∃ k ∈ keys v, k ∈ keys w))

/-- Values by id, none of which clash. -/
structure MultiIndex (keys : V → List κ) where
  rows : Table ℕ V
  unique : ∀ id v other w, rows.find? id = some v → rows.find? other = some w → id ≠ other →
    ¬ Clash keys v w

namespace MultiIndex

def find? (m : MultiIndex keys) (id : ℕ) : Option V := m.rows.find? id

/-- A value clashes with one under another id. -/
def Taken (m : MultiIndex keys) (id : ℕ) (v : V) : Prop :=
  ∃ entry ∈ m.rows.entries, entry.1 ≠ id ∧ Clash keys v entry.2

instance [DecidableEq κ] (m : MultiIndex keys) (id : ℕ) (v : V) : Decidable (m.Taken id v) :=
  inferInstanceAs (Decidable (∃ entry ∈ m.rows.entries, entry.1 ≠ id ∧ Clash keys v entry.2))

theorem taken_iff {m : MultiIndex keys} {id : ℕ} {v : V} :
    m.Taken id v ↔ ∃ other w, m.find? other = some w ∧ other ≠ id ∧ Clash keys v w := by
  simp only [Taken, find?, Table.find?_eq_some_iff, Prod.exists]

def erase (m : MultiIndex keys) (id : ℕ) : MultiIndex keys where
  rows := m.rows.erase id
  unique := by
    intro i v j w hv hw
    rw [Table.find?_erase] at hv hw
    split_ifs at hv hw
    exact m.unique i v j w hv hw

@[simp]
theorem find?_erase (m : MultiIndex keys) (id id' : ℕ) :
    (m.erase id).find? id' = if id' = id then none else m.find? id' :=
  Table.find?_erase m.rows id id'

/-- A value that clashes with no other one takes the place of the value under an id. -/
def replace (m : MultiIndex keys) (id : ℕ) (v : V) (h : ¬ m.Taken id v) : MultiIndex keys where
  rows := m.rows.modify id fun _ ↦ v
  unique := by
    have hfree : ∀ other w, m.rows.find? other = some w → other ≠ id → ¬ Clash keys v w :=
      fun other w hw hne hclash ↦ h (taken_iff.2 ⟨other, w, hw, hne, hclash⟩)
    intro i x j y hx hy hne
    rw [Table.find?_modify] at hx hy
    split_ifs at hx hy with hi hj hj
    · exact absurd (hi.trans hj.symm) hne
    · obtain ⟨_, _, rfl⟩ := Option.map_eq_some_iff.1 hx
      exact hfree j y hy hj
    · obtain ⟨_, _, rfl⟩ := Option.map_eq_some_iff.1 hy
      exact fun hclash ↦ hfree i x hx hi hclash.symm
    · exact m.unique i x j y hx hy hne

/-- Insertion under an id. -/
def insert (m : MultiIndex keys) (rows : Table ℕ V) (id : ℕ) (v : V)
    (hrows : m.rows.emplace? id v = some rows) (h : ¬ m.Taken id v) : MultiIndex keys where
  rows := rows
  unique := by
    have hfree : ∀ other w, m.rows.find? other = some w → other ≠ id → ¬ Clash keys v w :=
      fun other w hw hne hclash ↦ h (taken_iff.2 ⟨other, w, hw, hne, hclash⟩)
    intro i x j y hx hy hne
    rw [Table.find?_emplace? hrows] at hx hy
    split_ifs at hx hy with hi hj hj
    · exact absurd (hi.trans hj.symm) hne
    · cases hx
      exact hfree j y hy hj
    · cases hy
      exact fun hclash ↦ hfree i x hx hi hclash.symm
    · exact m.unique i x j y hx hy hne

variable [DecidableEq κ]

/-- Insertion fails when the id or a unique key is taken. -/
def emplace? (m : MultiIndex keys) (id : ℕ) (v : V) : Option (MultiIndex keys) :=
  match hrows : m.rows.emplace? id v with
  | none => none
  | some rows => if h : m.Taken id v then none else some (m.insert rows id v hrows h)

/-- Modification to a value, with whether it was possible; if not, the old value is erased. -/
def modify (m : MultiIndex keys) (id : ℕ) (v : V) : MultiIndex keys × Bool :=
  if h : m.Taken id v then (m.erase id, false) else (m.replace id v h, true)

theorem emplace?_eq_some {m m' : MultiIndex keys} {id : ℕ} {v : V}
    (h : m.emplace? id v = some m') :
    m.find? id = none ∧ ¬ m.Taken id v ∧
      ∀ id', m'.find? id' = if id' = id then some v else m.find? id' := by
  unfold emplace? at h
  split at h
  · cases h
  · rename_i rows hrows
    split_ifs at h with htaken
    cases h
    exact ⟨(Table.emplace?_eq_some hrows).1, htaken, Table.find?_emplace? hrows⟩

theorem emplace?_isSome {m : MultiIndex keys} {id : ℕ} {v : V} (hid : m.find? id = none)
    (h : ¬ m.Taken id v) : ∃ m', m.emplace? id v = some m' := by
  unfold emplace?
  split
  · rename_i hrows
    rw [Table.emplace?_of_find?_eq_none hid] at hrows
    cases hrows
  · rw [dif_neg h]
    exact ⟨_, rfl⟩

theorem modify_of_taken {m : MultiIndex keys} {id : ℕ} {v : V} (h : m.Taken id v) :
    m.modify id v = (m.erase id, false) := by
  rw [modify, dif_pos h]

theorem modify_of_free {m : MultiIndex keys} {id : ℕ} {v : V} (h : ¬ m.Taken id v) :
    (m.modify id v).2 = true ∧
      ∀ id', (m.modify id v).1.find? id' =
        if id' = id then (m.find? id).map fun _ ↦ v else m.find? id' := by
  rw [modify, dif_neg h]
  refine ⟨rfl, fun id' ↦ ?_⟩
  have hfind := Table.find?_modify m.rows id id' fun _ ↦ v
  by_cases hid : id' = id
  · subst hid
    simp [find?, replace]
  · simpa [find?, replace, hid] using hfind

end MultiIndex

end SophiaTX.Lib
