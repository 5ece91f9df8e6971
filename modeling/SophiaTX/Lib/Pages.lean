import Mathlib.Data.Finset.Card
import Mathlib.Data.Finset.Dedup
import Mathlib.Data.List.Sort

/-!
# Pages of an ordered index

Positions in a list that is in the order of its keys, and a walk that puts numbered rows on a page
until the page is full. Rows of one number share a place; where the numbers follow the walk, a page
has the first of them.
-/

namespace SophiaTX.Lib

universe u v

/-! ## Positions -/

section Positions

variable {α : Type u} {K : Type v} [LinearOrder K] (key : α → K) (k : K) (rows : List α)

/-- Position of the first row that is not below a key. -/
def lowerBound : ℕ := rows.countP fun x ↦ decide (key x < k)

/-- Position of the first row above a key. -/
def upperBound : ℕ := rows.countP fun x ↦ decide (key x ≤ k)

end Positions

/-- Where what passes a test stands in front, it can be taken off. -/
theorem take_countP {α : Type u} {p : α → Bool} {rows : List α}
    (h : rows.Pairwise fun a b ↦ p b = true → p a = true) :
    rows.take (rows.countP p) = rows.filter p ∧
      rows.drop (rows.countP p) = rows.filter fun x ↦ !p x := by
  induction rows with
  | nil => exact ⟨rfl, rfl⟩
  | cons a rest ih =>
    obtain ⟨hfirst, hrest⟩ := List.pairwise_cons.1 h
    cases ha : p a with
    | true =>
      obtain ⟨htake, hdrop⟩ := ih hrest
      simp [ha, htake, hdrop]
    | false =>
      have hnone : ∀ b ∈ rest, p b = false := by
        intro b hb
        by_contra hpb
        rw [hfirst b hb (by simpa using hpb)] at ha
        cases ha
      have hcount : rest.countP p = 0 := by
        rw [List.countP_eq_zero]
        intro b hb
        simp [hnone b hb]
      have hkept : (rest.filter fun x ↦ !p x) = rest := by
        rw [List.filter_eq_self]
        intro b hb
        simp [hnone b hb]
      simpa [ha, hcount, hkept] using hnone

/-- There is nothing behind when everything passes the test. -/
theorem getElem?_countP_eq_none {α : Type u} {p : α → Bool} {rows : List α} :
    rows[rows.countP p]? = none ↔ ∀ x ∈ rows, p x = true := by
  rw [List.getElem?_eq_none_iff, ← List.countP_eq_length]
  exact ⟨fun hle ↦ le_antisymm List.countP_le_length hle, fun heq ↦ heq.ge⟩

/-- The first row that does not pass the test. -/
theorem getElem?_countP_eq_some {α : Type u} {r : α → α → Prop} {p : α → Bool} {rows : List α}
    {x : α} (hr : rows.Pairwise r) (h : rows.Pairwise fun a b ↦ p b = true → p a = true)
    (hx : rows[rows.countP p]? = some x) :
    x ∈ rows ∧ p x = false ∧ ∀ y ∈ rows, p y = false → y = x ∨ r x y := by
  obtain ⟨hlt, rfl⟩ := List.getElem?_eq_some_iff.1 hx
  have hdrop := (take_countP h).2
  have hsorted : (rows.drop (rows.countP p)).Pairwise r := hr.sublist (List.drop_sublist _ _)
  rw [List.drop_eq_getElem_cons hlt] at hdrop hsorted
  have hmem : ∀ y, y ∈ rows[rows.countP p] :: rows.drop (rows.countP p + 1) ↔
      y ∈ rows ∧ p y = false := by
    intro y
    rw [hdrop, List.mem_filter, Bool.not_eq_true']
  obtain ⟨hrow, hfalse⟩ := (hmem _).1 List.mem_cons_self
  refine ⟨hrow, hfalse, fun y hy hyfalse ↦ ?_⟩
  rcases List.mem_cons.1 ((hmem y).2 ⟨hy, hyfalse⟩) with heq | hmem
  · exact .inl heq
  · exact .inr ((List.pairwise_cons.1 hsorted).1 y hmem)

section Ordered

variable {α : Type u} {K : Type v} [LinearOrder K] {key : α → K} {a b : K} {rows : List α} {x : α}

theorem pairwise_lt (h : rows.Pairwise fun x y ↦ key x ≤ key y) (a : K) :
    rows.Pairwise fun x y ↦ decide (key y < a) = true → decide (key x < a) = true :=
  h.imp fun hle hlt ↦ decide_eq_true (hle.trans_lt (of_decide_eq_true hlt))

theorem pairwise_le (h : rows.Pairwise fun x y ↦ key x ≤ key y) (b : K) :
    rows.Pairwise fun x y ↦ decide (key y ≤ b) = true → decide (key x ≤ b) = true :=
  h.imp fun hle hle' ↦ decide_eq_true (hle.trans (of_decide_eq_true hle'))

theorem drop_lowerBound (h : rows.Pairwise fun x y ↦ key x ≤ key y) :
    rows.drop (lowerBound key a rows) = rows.filter fun x ↦ decide (a ≤ key x) := by
  rw [lowerBound, (take_countP (pairwise_lt h a)).2]
  refine List.filter_congr fun x _ ↦ ?_
  rw [← decide_not, decide_eq_decide, not_lt]

theorem take_upperBound (h : rows.Pairwise fun x y ↦ key x ≤ key y) :
    rows.take (upperBound key b rows) = rows.filter fun x ↦ decide (key x ≤ b) := by
  rw [upperBound, (take_countP (pairwise_le h b)).1]

/-- The rows between two positions. -/
theorem take_drop_bounds (h : rows.Pairwise fun x y ↦ key x ≤ key y) :
    (rows.drop (lowerBound key a rows)).take (upperBound key b rows - lowerBound key a rows) =
      rows.filter fun x ↦ decide (a ≤ key x ∧ key x ≤ b) := by
  have hbetween : (rows.take (upperBound key b rows)).drop (lowerBound key a rows) =
      rows.filter fun x ↦ decide (a ≤ key x ∧ key x ≤ b) := by
    rcases le_or_gt a b with hab | hba
    · have hbound : lowerBound key a rows =
          lowerBound key a (rows.take (upperBound key b rows)) := by
        rw [take_upperBound h, lowerBound, lowerBound, List.countP_filter]
        refine List.countP_congr fun x _ ↦ ?_
        simp only [decide_eq_true_eq, Bool.and_eq_true, iff_self_and]
        exact fun hlt ↦ hlt.le.trans hab
      rw [hbound, drop_lowerBound (h.sublist (List.take_sublist _ _)), take_upperBound h,
        List.filter_filter]
      simp only [Bool.decide_and]
    · have hlength : upperBound key b rows ≤ lowerBound key a rows := by
        refine List.countP_mono_left fun x _ hle ↦ ?_
        exact decide_eq_true ((of_decide_eq_true hle).trans_lt hba)
      rw [List.drop_eq_nil_of_le ((List.length_take_le _ _).trans hlength), eq_comm,
        List.filter_eq_nil_iff]
      rintro x _ hx
      obtain ⟨hax, hxb⟩ := of_decide_eq_true hx
      exact absurd (hax.trans hxb) (not_le.2 hba)
  rw [← hbetween, List.drop_take]

theorem getElem?_lowerBound_eq_none :
    rows[lowerBound key a rows]? = none ↔ ∀ x ∈ rows, key x < a :=
  getElem?_countP_eq_none.trans (by simp)

theorem getElem?_upperBound_eq_none :
    rows[upperBound key b rows]? = none ↔ ∀ x ∈ rows, key x ≤ b :=
  getElem?_countP_eq_none.trans (by simp)

theorem getElem?_lowerBound_eq_some (h : rows.Pairwise fun x y ↦ key x ≤ key y)
    (hx : rows[lowerBound key a rows]? = some x) :
    x ∈ rows ∧ a ≤ key x ∧ ∀ y ∈ rows, a ≤ key y → key x ≤ key y := by
  obtain ⟨hrow, hle, hfirst⟩ := getElem?_countP_eq_some h (pairwise_lt h a) hx
  refine ⟨hrow, by simpa using hle, fun y hy hay ↦ ?_⟩
  rcases hfirst y hy (by simpa using hay) with rfl | hxy
  · exact le_rfl
  · exact hxy

theorem getElem?_upperBound_eq_some (h : rows.Pairwise fun x y ↦ key x ≤ key y)
    (hx : rows[upperBound key b rows]? = some x) :
    x ∈ rows ∧ b < key x ∧ ∀ y ∈ rows, b < key y → key x ≤ key y := by
  obtain ⟨hrow, hlt, hfirst⟩ := getElem?_countP_eq_some h (pairwise_le h b) hx
  refine ⟨hrow, by simpa using hlt, fun y hy hby ↦ ?_⟩
  rcases hfirst y hy (by simpa using hby) with rfl | hxy
  · exact le_rfl
  · exact hxy

end Ordered

/-! ## Pages -/

section Pages

variable {α : Type u} {number : α → ℕ} {count : ℕ} {page : List (ℕ × α)} {rows : List α}

/-- A row is put at its number, in place of one that is there. -/
def put (page : List (ℕ × α)) (k : ℕ) (x : α) : List (ℕ × α) :=
  (k, x) :: page.filter fun entry ↦ decide (entry.1 ≠ k)

/-- Rows are put on a page until a number of steps is done or the page is full. There may be no row
where there is a step to do. -/
def collect (number : α → ℕ) (count : ℕ) : List α → ℤ → List (ℕ × α) → Option (List (ℕ × α))
  | [], steps, page => if steps ≠ 0 ∧ page.length < count then none else some page
  | x :: rest, steps, page =>
    if steps ≠ 0 ∧ page.length < count then
      collect number count rest (steps - 1) (put page (number x) x)
    else some page

/-- The numbers of a page are different, and at most so many. -/
structure PageOf (number : α → ℕ) (count : ℕ) (taken : List α) (page : List (ℕ × α)) : Prop where
  nodup : (page.map Prod.fst).Nodup
  numbers : ∀ k, k ∈ page.map Prod.fst ↔ k ∈ taken.map number
  rows : ∀ k x, (k, x) ∈ page → x ∈ taken ∧ number x = k
  length_le : page.length ≤ count

theorem PageOf.nil : PageOf number count [] [] :=
  ⟨List.nodup_nil, fun _ ↦ Iff.rfl, fun _ _ h ↦ absurd h List.not_mem_nil, Nat.zero_le _⟩

theorem PageOf.put {taken : List α} {x : α} (h : PageOf number count taken page)
    (hroom : page.length < count) :
    PageOf number count (taken ++ [x]) (put page (number x) x) := by
  have hkeys : (Lib.put page (number x) x).map Prod.fst =
      number x :: (page.map Prod.fst).filter fun k ↦ decide (k ≠ number x) := by
    rw [Lib.put, List.map_cons, List.filter_map]
    rfl
  refine ⟨?_, fun k ↦ ?_, fun k y hy ↦ ?_, ?_⟩
  · rw [hkeys, List.nodup_cons]
    exact ⟨by simp, h.nodup.filter _⟩
  · rw [hkeys, List.mem_cons, List.mem_filter, h.numbers, List.map_append, List.mem_append,
      List.map_singleton, List.mem_singleton, decide_eq_true_eq]
    by_cases hk : k = number x <;> simp [hk]
  · rw [Lib.put, List.mem_cons, List.mem_filter] at hy
    rcases hy with heq | ⟨hmem, _⟩
    · cases heq
      exact ⟨List.mem_append_right _ List.mem_cons_self, rfl⟩
    · obtain ⟨htaken, hnumber⟩ := h.rows k y hmem
      exact ⟨List.mem_append_left _ htaken, hnumber⟩
  · rw [Lib.put, List.length_cons]
    exact (Nat.succ_le_succ (List.length_filter_le _ _)).trans hroom

/-- A walk stops at the end or with a full page. -/
theorem collect_spec {taken : List α} {steps : ℕ} (hsteps : steps ≤ rows.length)
    (h : PageOf number count taken page) : ∃ front back page',
      rows.take steps = front ++ back ∧ collect number count rows steps page = some page' ∧
        PageOf number count (taken ++ front) page' ∧ (back = [] ∨ page'.length = count) := by
  induction rows generalizing steps taken page with
  | nil =>
    obtain rfl : steps = 0 := Nat.le_zero.1 hsteps
    exact ⟨[], [], page, rfl, rfl, by rwa [List.append_nil], .inl rfl⟩
  | cons x rest ih =>
    by_cases hgo : (steps : ℤ) ≠ 0 ∧ page.length < count
    · obtain ⟨steps, rfl⟩ := Nat.exists_eq_add_one_of_ne_zero (by simpa using hgo.1)
      obtain ⟨front, back, page', hsplit, hcollect, hpage, hstop⟩ :=
        ih (Nat.le_of_succ_le_succ hsteps) (h.put (x := x) hgo.2)
      refine ⟨x :: front, back, page', ?_, ?_, ?_, hstop⟩
      · rw [List.take_succ_cons, hsplit, List.cons_append]
      · rw [collect, if_pos hgo, ← hcollect]
        congr 1
        omega
      · rwa [List.append_assoc] at hpage
    · refine ⟨[], (x :: rest).take steps, page, rfl, ?_, by rwa [List.append_nil], ?_⟩
      · rw [collect, if_neg hgo]
      · rcases Nat.eq_zero_or_pos steps with rfl | hpos
        · exact .inl rfl
        · have hfull : ¬ page.length < count := fun hroom ↦ hgo ⟨by omega, hroom⟩
          exact .inr (le_antisymm h.length_le (not_lt.1 hfull))

/-- A page has as many entries as numbers were taken. -/
theorem PageOf.card {taken : List α} (h : PageOf number count taken page) :
    (taken.map number).toFinset.card = page.length := by
  have hkeys : (taken.map number).toFinset = (page.map Prod.fst).toFinset := by
    ext k
    rw [List.mem_toFinset, List.mem_toFinset, h.numbers]
  rw [hkeys, List.toFinset_card_of_nodup h.nodup, List.length_map]

/-- Where the numbers follow the walk, a page has the first of them. -/
theorem PageOf.mem_iff {r : ℕ → ℕ → Prop} [DecidableRel r] [Std.Total r] [Std.Antisymm r]
    {front back : List α} {numbers : Finset ℕ} (h : PageOf number count front page)
    (hsorted : (front ++ back).Pairwise fun x y ↦ r (number x) (number y))
    (hnumbers : ∀ k, k ∈ numbers ↔ k ∈ (front ++ back).map number)
    (hstop : back = [] ∨ page.length = count) (k : ℕ) : k ∈ page.map Prod.fst ↔
      k ∈ numbers ∧ (numbers.filter fun k' ↦ r k' k ∧ k' ≠ k).card < count := by
  rw [h.numbers]
  have hfront : ∀ k ∈ front.map number, k ∈ numbers := by
    intro k hk
    rw [hnumbers, List.map_append]
    exact List.mem_append_left _ hk
  -- What comes before a number in front is in front.
  have hclosed : ∀ k ∈ front.map number, ∀ k' ∈ numbers, r k' k → k' ≠ k →
      k' ∈ front.map number := by
    intro k hk k' hk' hbefore hne
    rw [hnumbers, List.map_append] at hk'
    rcases List.mem_append.1 hk' with hmem | hmem
    · exact hmem
    · obtain ⟨x, hx, rfl⟩ := List.mem_map.1 hk
      obtain ⟨y, hy, rfl⟩ := List.mem_map.1 hmem
      have hafter := (List.pairwise_append.1 hsorted).2.2 x hx y hy
      exact absurd (antisymm hbefore hafter) hne
  constructor
  · intro hk
    refine ⟨hfront k hk, ?_⟩
    have hsub : insert k (numbers.filter fun k' ↦ r k' k ∧ k' ≠ k) ⊆
        (front.map number).toFinset := by
      intro k' hk'
      rw [List.mem_toFinset]
      rcases Finset.mem_insert.1 hk' with rfl | hk'
      · exact hk
      · obtain ⟨hmem, hbefore, hne⟩ := Finset.mem_filter.1 hk'
        exact hclosed k hk k' hmem hbefore hne
    have hcard := Finset.card_le_card hsub
    rw [Finset.card_insert_of_notMem (by simp), h.card] at hcard
    exact Nat.lt_of_succ_le (hcard.trans h.length_le)
  · rintro ⟨hk, hcount⟩
    rcases hstop with rfl | hfull
    · rw [hnumbers, List.append_nil] at hk
      exact hk
    · by_contra hnot
      have hsub : (front.map number).toFinset ⊆ numbers.filter fun k' ↦ r k' k ∧ k' ≠ k := by
        intro k' hk'
        have hmem := List.mem_toFinset.1 hk'
        have hne : k' ≠ k := by
          rintro rfl
          exact hnot hmem
        refine Finset.mem_filter.2 ⟨hfront k' hmem, ?_, hne⟩
        refine (total_of r k' k).resolve_right fun hafter ↦ ?_
        exact hnot (hclosed k' hmem k hk hafter hne.symm)
      have hcard := Finset.card_le_card hsub
      rw [h.card, hfull] at hcard
      exact absurd hcard (not_le.2 hcount)

end Pages

end SophiaTX.Lib
