import Mathlib.Order.Interval.Finset.Nat
import SophiaTX.Messages.Sequences
import SophiaTX.Plugins.CustomApi

/-!
# Pages of received documents

The messages of a group are numbered from one on. A page from a number on has the messages of that
number and the ones next to it, as many as asked for, and each row on it is one of the message of
its number. Where no row stands behind the place at which a page begins, the call reads past the end
of the index.
-/

namespace SophiaTX.Plugins

open SophiaTX.Protocol SophiaTX.Chain SophiaTX.Lib

section Group

variable {G : Type} [LinearOrder G] {contents : List CustomContent} {group : CustomContent → G}
  {number : CustomContent → ℕ} {g : G} {batches : List (List CustomContent)} {start count k : ℕ}

/-- The rows of a group come in batches, and the number of each is the position of its batch. -/
structure Numbers (contents : List CustomContent) (group : CustomContent → G)
    (number : CustomContent → ℕ) (g : G) (batches : List (List CustomContent)) : Prop where
  mem : ∀ c, c ∈ contents ∧ group c = g ↔ ∃ batch ∈ batches, c ∈ batch
  ne_nil : [] ∉ batches
  number_eq : ∀ k batch, batches[k]? = some batch → ∀ c ∈ batch, number c = k + 1

/-- The rows on a page are rows of the batches of their numbers. -/
def PageShows (contents : List CustomContent) (batches : List (List CustomContent))
    (page : DocumentPage) : Prop :=
  (page.map Prod.fst).Nodup ∧ ∀ k row, (k, row) ∈ page → contents[row.2]? = some row.1 ∧
    ∃ batch, batches[k - 1]? = some batch ∧ row.1 ∈ batch

theorem mem_indexRows {K : Type} [LinearOrder K] {key : StoredContent → K} {row : StoredContent} :
    row ∈ indexRows contents key ↔ contents[row.2]? = some row.1 := by
  rw [indexRows, List.mem_insertionSort, List.mem_zipIdx_iff_getElem?]

theorem indexRows_pairwise {K : Type} [LinearOrder K] (key : StoredContent → K) :
    (indexRows contents key).Pairwise fun row row' ↦ key row ≤ key row' := by
  have : Std.Total fun row row' : StoredContent ↦ key row ≤ key row' :=
    ⟨fun row row' ↦ le_total (key row) (key row')⟩
  have : IsTrans StoredContent fun row row' ↦ key row ≤ key row' := ⟨fun _ _ _ ↦ le_trans⟩
  exact List.pairwise_insertionSort _ _

/-! ## Reading between two positions -/

section Read

variable {K : Type} [LinearOrder K] {key : StoredContent → K} {a b : K}

/-- The rows between two keys. -/
def rowsBetween (contents : List CustomContent) (key : StoredContent → K) (a b : K) :
    List StoredContent :=
  (indexRows contents key).filter fun row ↦ decide (a ≤ key row ∧ key row ≤ b)

theorem mem_rowsBetween {row : StoredContent} : row ∈ rowsBetween contents key a b ↔
    contents[row.2]? = some row.1 ∧ a ≤ key row ∧ key row ≤ b := by
  rw [rowsBetween, List.mem_filter, mem_indexRows, decide_eq_true_eq]

theorem rowsBetween_pairwise (contents : List CustomContent) (key : StoredContent → K) (a b : K) :
    (rowsBetween contents key a b).Pairwise fun row row' ↦ key row ≤ key row' :=
  (indexRows_pairwise key).filter _

/-- The first position is not behind the second. -/
theorem bounds_le (h : ∀ row, contents[row.2]? = some row.1 → key row < a → key row ≤ b) :
    lowerBound key a (indexRows contents key) ≤ upperBound key b (indexRows contents key) := by
  refine List.countP_mono_left fun row hrow hlt ↦ ?_
  exact decide_eq_true (h row (mem_indexRows.1 hrow) (of_decide_eq_true hlt))

theorem readForwards_zero {rows : List StoredContent} {itr stop : ℕ} :
    readForwards rows number itr stop 0 = .ok [] := by
  rw [readForwards]
  cases rows.drop itr <;> simp [collect]

theorem readForwards_spec (number : CustomContent → ℕ) (count : ℕ)
    (h : ∀ row, contents[row.2]? = some row.1 → key row < a → key row ≤ b) :
    ∃ front back page, rowsBetween contents key a b = front ++ back ∧
      readForwards (indexRows contents key) number (lowerBound key a (indexRows contents key))
        (upperBound key b (indexRows contents key)) count = .ok page ∧
      PageOf (fun row ↦ number row.1) count front page ∧ (back = [] ∨ page.length = count) := by
  have hle := bounds_le h
  have hsteps : upperBound key b (indexRows contents key) -
      lowerBound key a (indexRows contents key) ≤
        ((indexRows contents key).drop (lowerBound key a (indexRows contents key))).length := by
    rw [List.length_drop]
    exact Nat.sub_le_sub_right List.countP_le_length _
  obtain ⟨front, back, page, hsplit, hcollect, hpage, hstop⟩ :=
    collect_spec hsteps (@PageOf.nil _ (fun row : StoredContent ↦ number row.1) count)
  rw [take_drop_bounds (indexRows_pairwise key)] at hsplit
  rw [Nat.cast_sub hle] at hcollect
  exact ⟨front, back, page, hsplit, by rw [readForwards, hcollect], hpage, hstop⟩

theorem readBackwards_spec (number : CustomContent → ℕ) (count : ℕ)
    (h : ∀ row, contents[row.2]? = some row.1 → key row < a → key row ≤ b) :
    ∃ front back page, (rowsBetween contents key a b).reverse = front ++ back ∧
      readBackwards (indexRows contents key) number (upperBound key b (indexRows contents key))
        (lowerBound key a (indexRows contents key)) count = .ok page ∧
      PageOf (fun row ↦ number row.1) count front page ∧ (back = [] ∨ page.length = count) := by
  have hle := bounds_le h
  have hlength : ((indexRows contents key).take
      (upperBound key b (indexRows contents key))).reverse.length =
        upperBound key b (indexRows contents key) := by
    rw [List.length_reverse, List.length_take]
    exact min_eq_left List.countP_le_length
  have hsteps : upperBound key b (indexRows contents key) -
      lowerBound key a (indexRows contents key) ≤ ((indexRows contents key).take
        (upperBound key b (indexRows contents key))).reverse.length := by
    rw [hlength]
    exact Nat.sub_le _ _
  obtain ⟨front, back, page, hsplit, hcollect, hpage, hstop⟩ :=
    collect_spec hsteps (@PageOf.nil _ (fun row : StoredContent ↦ number row.1) count)
  rw [List.length_reverse] at hlength
  rw [List.take_reverse, hlength, Nat.sub_sub_self hle, List.drop_take,
    take_drop_bounds (indexRows_pairwise key)] at hsplit
  rw [Nat.cast_sub hle] at hcollect
  exact ⟨front, back, page, hsplit, by rw [readBackwards, hcollect], hpage, hstop⟩

end Read

/-! ## Pages by number -/

section ByNumber

variable {row : StoredContent} {low high : ℕ}

theorem latestFirst_le {m : ℕ} : latestFirst group number row ≤ toLex (g, OrderDual.toDual m) ↔
    group row.1 < g ∨ group row.1 = g ∧ m ≤ number row.1 := by
  simp [latestFirst, Prod.Lex.toLex_le_toLex]

theorem le_latestFirst {m : ℕ} : toLex (g, OrderDual.toDual m) ≤ latestFirst group number row ↔
    g < group row.1 ∨ group row.1 = g ∧ number row.1 ≤ m := by
  simp [latestFirst, Prod.Lex.toLex_le_toLex, eq_comm]

theorem latestFirst_lt {m : ℕ} : latestFirst group number row < toLex (g, OrderDual.toDual m) ↔
    group row.1 < g ∨ group row.1 = g ∧ m < number row.1 := by
  simp [latestFirst, Prod.Lex.toLex_lt_toLex]

theorem lt_latestFirst {m : ℕ} : toLex (g, OrderDual.toDual m) < latestFirst group number row ↔
    g < group row.1 ∨ group row.1 = g ∧ number row.1 < m := by
  simp [latestFirst, Prod.Lex.toLex_lt_toLex, eq_comm]

/-- Between two keys of a group stand the rows of the group with numbers between theirs. -/
theorem mem_rowsBetween_latestFirst : row ∈ rowsBetween contents (latestFirst group number)
      (toLex (g, OrderDual.toDual high)) (toLex (g, OrderDual.toDual low)) ↔
    contents[row.2]? = some row.1 ∧ group row.1 = g ∧ low ≤ number row.1 ∧
      number row.1 ≤ high := by
  rw [mem_rowsBetween, latestFirst_le, le_latestFirst]
  constructor
  · rintro ⟨hrow, hgt | ⟨hg, hhigh⟩, hlt | ⟨_, hlow⟩⟩
    · exact absurd hlt hgt.not_gt
    · exact absurd ‹group row.1 = g› hgt.ne'
    · exact absurd hg hlt.ne
    · exact ⟨hrow, hg, hlow, hhigh⟩
  · rintro ⟨hrow, hg, hlow, hhigh⟩
    exact ⟨hrow, .inr ⟨hg, hhigh⟩, .inr ⟨hg, hlow⟩⟩

/-- Within a group the latest come first. -/
theorem number_le_of_latestFirst_le {row' : StoredContent} (hgroup : group row.1 = group row'.1)
    (h : latestFirst group number row ≤ latestFirst group number row') :
    number row'.1 ≤ number row.1 := by
  have hkeys : latestFirst group number row ≤
      toLex (group row'.1, OrderDual.toDual (number row'.1)) := h
  rcases latestFirst_le.1 hkeys with hlt | ⟨_, hnumber⟩
  · exact absurd hgroup hlt.ne
  · exact hnumber

theorem number_le_of_rowsBetween {row' : StoredContent}
    (hrow : row ∈ rowsBetween contents (latestFirst group number)
      (toLex (g, OrderDual.toDual high)) (toLex (g, OrderDual.toDual low)))
    (hrow' : row' ∈ rowsBetween contents (latestFirst group number)
      (toLex (g, OrderDual.toDual high)) (toLex (g, OrderDual.toDual low)))
    (hle : latestFirst group number row ≤ latestFirst group number row') :
    number row'.1 ≤ number row.1 := by
  obtain ⟨_, hgroup, _⟩ := mem_rowsBetween_latestFirst.1 hrow
  obtain ⟨_, hgroup', _⟩ := mem_rowsBetween_latestFirst.1 hrow'
  exact number_le_of_latestFirst_le (hgroup.trans hgroup'.symm) hle

namespace Numbers

variable (h : Numbers contents group number g batches)
include h

omit [LinearOrder G] in
/-- A row of the group is in the batch of its number. -/
theorem exists_batch (hrow : contents[row.2]? = some row.1) (hgroup : group row.1 = g) :
    ∃ batch, batches[number row.1 - 1]? = some batch ∧ row.1 ∈ batch ∧ 1 ≤ number row.1 ∧
      number row.1 ≤ batches.length := by
  obtain ⟨batch, hbatch, hmem⟩ := (h.mem row.1).1 ⟨List.mem_of_getElem? hrow, hgroup⟩
  obtain ⟨k, hk⟩ := List.mem_iff_getElem?.1 hbatch
  have hnumber := h.number_eq k batch hk row.1 hmem
  have hlt : k < batches.length := (List.getElem?_eq_some_iff.1 hk).1
  refine ⟨batch, ?_, hmem, ?_, ?_⟩
  · rw [hnumber, Nat.add_sub_cancel]
    exact hk
  · omega
  · omega

omit [LinearOrder G] in
/-- Every number up to that of the batches has a row. -/
theorem exists_row (hk : 1 ≤ k) (hk' : k ≤ batches.length) : ∃ row : StoredContent,
    contents[row.2]? = some row.1 ∧ group row.1 = g ∧ number row.1 = k := by
  have hlt : k - 1 < batches.length := by omega
  obtain ⟨c, hc⟩ := List.exists_mem_of_ne_nil batches[k - 1] fun hnil ↦
    h.ne_nil (hnil ▸ List.getElem_mem hlt)
  obtain ⟨hmem, hgroup⟩ := (h.mem c).2 ⟨_, List.getElem_mem hlt, hc⟩
  obtain ⟨id, hid⟩ := List.mem_iff_getElem?.1 hmem
  have hnumber := h.number_eq (k - 1) _ (List.getElem?_eq_getElem hlt) c hc
  refine ⟨(c, id), hid, hgroup, hnumber.trans ?_⟩
  exact Nat.sub_add_cancel hk

omit [LinearOrder G] in
theorem pageShows {taken : List StoredContent} {page : DocumentPage}
    (hpage : PageOf (fun row ↦ number row.1) count taken page)
    (htaken : ∀ row ∈ taken, contents[row.2]? = some row.1 ∧ group row.1 = g) :
    PageShows contents batches page := by
  refine ⟨hpage.nodup, fun k row hrow ↦ ?_⟩
  obtain ⟨hmem, rfl⟩ := hpage.rows k row hrow
  obtain ⟨hstored, hgroup⟩ := htaken row hmem
  obtain ⟨batch, hbatch, hrow, _⟩ := h.exists_batch hstored hgroup
  exact ⟨hstored, batch, hbatch, hrow⟩

/-- The numbers between two keys. -/
theorem mem_numbersBetween : (∃ row ∈ rowsBetween contents (latestFirst group number)
      (toLex (g, OrderDual.toDual high)) (toLex (g, OrderDual.toDual low)), number row.1 = k) ↔
    k ∈ Finset.Icc (max 1 low) (min high batches.length) := by
  simp only [mem_rowsBetween_latestFirst, Finset.mem_Icc, max_le_iff, le_min_iff]
  constructor
  · rintro ⟨row, ⟨hrow, hgroup, hlow, hhigh⟩, rfl⟩
    obtain ⟨_, _, _, hone, hlength⟩ := h.exists_batch hrow hgroup
    exact ⟨⟨hone, hlow⟩, hhigh, hlength⟩
  · rintro ⟨⟨hone, hlow⟩, hhigh, hlength⟩
    obtain ⟨row, hrow, hgroup, rfl⟩ := h.exists_row hone hlength
    exact ⟨row, ⟨hrow, hgroup, hlow, hhigh⟩, rfl⟩

/-- Backwards from the highest number, a page has the highest ones. -/
theorem mem_older {front back : List StoredContent} {page : DocumentPage}
    (hsplit : rowsBetween contents (latestFirst group number)
      (toLex (g, OrderDual.toDual high)) (toLex (g, OrderDual.toDual low)) = front ++ back)
    (hpage : PageOf (fun row ↦ number row.1) count front page)
    (hstop : back = [] ∨ page.length = count) (k : ℕ) : k ∈ page.map Prod.fst ↔
      k ∈ Finset.Icc (max 1 low) (min high batches.length) ∧
        min high batches.length < k + count := by
  have hsorted : (front ++ back).Pairwise fun row row' ↦ number row.1 ≥ number row'.1 := by
    rw [← hsplit]
    exact (rowsBetween_pairwise contents _ _ _).imp_of_mem number_le_of_rowsBetween
  have hnumbers : ∀ k, k ∈ Finset.Icc (max 1 low) (min high batches.length) ↔
      k ∈ (front ++ back).map fun row ↦ number row.1 := by
    intro k
    rw [← h.mem_numbersBetween, ← hsplit, List.mem_map]
  rw [hpage.mem_iff hsorted hnumbers hstop k]
  refine and_congr_right fun hk ↦ ?_
  have hbefore : ((Finset.Icc (max 1 low) (min high batches.length)).filter
      fun k' ↦ k' ≥ k ∧ k' ≠ k) = Finset.Ioc k (min high batches.length) := by
    ext k'
    simp only [Finset.mem_filter, Finset.mem_Icc, Finset.mem_Ioc] at hk ⊢
    omega
  rw [hbefore, Nat.card_Ioc]
  have hhigh := (Finset.mem_Icc.1 hk).2
  omega

/-- Forwards from the lowest number, a page has the lowest ones. -/
theorem mem_newer {front back : List StoredContent} {page : DocumentPage}
    (hsplit : (rowsBetween contents (latestFirst group number)
      (toLex (g, OrderDual.toDual high)) (toLex (g, OrderDual.toDual low))).reverse =
        front ++ back)
    (hpage : PageOf (fun row ↦ number row.1) count front page)
    (hstop : back = [] ∨ page.length = count) (k : ℕ) : k ∈ page.map Prod.fst ↔
      k ∈ Finset.Icc (max 1 low) (min high batches.length) ∧ k < max 1 low + count := by
  have hsorted : (front ++ back).Pairwise fun row row' ↦ number row.1 ≤ number row'.1 := by
    rw [← hsplit, List.pairwise_reverse]
    exact (rowsBetween_pairwise contents _ _ _).imp_of_mem number_le_of_rowsBetween
  have hnumbers : ∀ k, k ∈ Finset.Icc (max 1 low) (min high batches.length) ↔
      k ∈ (front ++ back).map fun row ↦ number row.1 := by
    intro k
    rw [← h.mem_numbersBetween, ← hsplit, List.mem_map]
    simp only [List.mem_reverse]
  rw [hpage.mem_iff hsorted hnumbers hstop k]
  refine and_congr_right fun hk ↦ ?_
  have hbefore : ((Finset.Icc (max 1 low) (min high batches.length)).filter
      fun k' ↦ k' ≤ k ∧ k' ≠ k) = Finset.Ico (max 1 low) k := by
    ext k'
    simp only [Finset.mem_filter, Finset.mem_Icc, Finset.mem_Ico] at hk ⊢
    omega
  rw [hbefore, Nat.card_Ico]
  have hlow := (Finset.mem_Icc.1 hk).1
  omega

/-- The row at which a page of older messages begins has the highest number that is asked for. -/
theorem first_older (hrow : row ∈ indexRows contents (latestFirst group number))
    (hle : toLex (g, OrderDual.toDual start) ≤ latestFirst group number row)
    (hfirst : ∀ row' ∈ indexRows contents (latestFirst group number),
      toLex (g, OrderDual.toDual start) ≤ latestFirst group number row' →
        latestFirst group number row ≤ latestFirst group number row')
    (hpos : 0 < min start batches.length) :
    group row.1 = g ∧ number row.1 = min start batches.length := by
  obtain ⟨other, hother, hgroup, hnumber⟩ := h.exists_row hpos (min_le_right start batches.length)
  have hstart : number other.1 ≤ start := hnumber.trans_le (min_le_left _ _)
  have hbefore := hfirst other (mem_indexRows.2 hother) (le_latestFirst.2 (.inr ⟨hgroup, hstart⟩))
  have hkeys : latestFirst group number row ≤ toLex (g, OrderDual.toDual (number other.1)) := by
    rw [← hgroup]
    exact hbefore
  have hsame : group row.1 = g ∧ number row.1 ≤ start ∧ number other.1 ≤ number row.1 := by
    rcases le_latestFirst.1 hle with hgt | ⟨hg, hnumber⟩
    · rcases latestFirst_le.1 hkeys with hlt | ⟨hg, _⟩
      · exact absurd hlt hgt.not_gt
      · exact absurd hg hgt.ne'
    · rcases latestFirst_le.1 hkeys with hlt | ⟨_, hle⟩
      · exact absurd hg hlt.ne
      · exact ⟨hg, hnumber, hle⟩
  obtain ⟨hg, hstart, hle⟩ := hsame
  obtain ⟨_, _, _, _, hlength⟩ := h.exists_batch (mem_indexRows.1 hrow) hg
  exact ⟨hg, le_antisymm (le_min hstart hlength) (hnumber ▸ hle)⟩

/-- A page of older messages: the number it starts from, or the last one there is, and those below
it. -/
theorem listOlder_spec (hcount : count ≤ start) :
    (listOlder contents group number g start count = .error .undefinedBehaviour ∧
      ∀ row, contents[row.2]? = some row.1 →
        latestFirst group number row < toLex (g, OrderDual.toDual start)) ∨
    ∃ page, listOlder contents group number g start count = .ok page ∧
      PageShows contents batches page ∧ ∀ k, k ∈ page.map Prod.fst ↔
        1 ≤ k ∧ k ≤ min start batches.length ∧ min start batches.length < k + count := by
  simp only [listOlder]
  cases hitr : (indexRows contents (latestFirst group number))[lowerBound
    (latestFirst group number) (toLex (g, OrderDual.toDual start))
    (indexRows contents (latestFirst group number))]? with
  | none =>
    refine .inl ⟨rfl, fun row hrow ↦ ?_⟩
    exact getElem?_lowerBound_eq_none.1 hitr row (mem_indexRows.2 hrow)
  | some row =>
    obtain ⟨hrow, hle, hfirst⟩ := getElem?_lowerBound_eq_some (indexRows_pairwise _) hitr
    rcases Nat.eq_zero_or_pos count with rfl | hpos
    · refine .inr ⟨[], readForwards_zero, ⟨List.nodup_nil, fun _ _ hmem ↦ by cases hmem⟩, ?_⟩
      intro k
      simp only [List.map_nil, List.not_mem_nil, false_iff]
      omega
    have hnumber := h.first_older hrow hle hfirst
    have hbounds : ∀ row', contents[row'.2]? = some row'.1 →
        latestFirst group number row' < toLex (g, OrderDual.toDual start) →
          latestFirst group number row' ≤
            toLex (g, OrderDual.toDual (number row.1 - count)) := by
      intro row' hrow' hlt
      rcases latestFirst_lt.1 hlt with hless | ⟨hgroup, hstart⟩
      · exact latestFirst_le.2 (.inl hless)
      · obtain ⟨_, _, _, hone, hlength⟩ := h.exists_batch hrow' hgroup
        refine latestFirst_le.2 (.inr ⟨hgroup, ?_⟩)
        rw [(hnumber (by omega)).2]
        omega
    obtain ⟨front, back, page, hsplit, hread, hpage, hstop⟩ :=
      readForwards_spec number count hbounds
    refine .inr ⟨page, hread, h.pageShows hpage fun row' hrow' ↦ ?_, fun k ↦ ?_⟩
    · have hmem := mem_rowsBetween_latestFirst.1 (hsplit ▸ List.mem_append_left back hrow')
      exact ⟨hmem.1, hmem.2.1⟩
    · rw [h.mem_older hsplit hpage hstop, Finset.mem_Icc]
      omega

/-- A page of newer messages: the number it starts from, and those above it. -/
theorem listNewer_spec (start count : ℕ) :
    (listNewer contents group number g start count = .error .undefinedBehaviour ∧
      ∀ row, contents[row.2]? = some row.1 →
        latestFirst group number row ≤ toLex (g, OrderDual.toDual start)) ∨
    ∃ page, listNewer contents group number g start count = .ok page ∧
      PageShows contents batches page ∧ ∀ k, k ∈ page.map Prod.fst ↔
        max 1 start ≤ k ∧ k ≤ batches.length ∧ k < max 1 start + count := by
  simp only [listNewer]
  cases hitr : (indexRows contents (latestFirst group number))[upperBound
    (latestFirst group number) (toLex (g, OrderDual.toDual start))
    (indexRows contents (latestFirst group number))]? with
  | none =>
    refine .inl ⟨rfl, fun row hrow ↦ ?_⟩
    exact getElem?_upperBound_eq_none.1 hitr row (mem_indexRows.2 hrow)
  | some row =>
    obtain ⟨hrow, hlt, hfirst⟩ := getElem?_upperBound_eq_some (indexRows_pairwise _) hitr
    -- Below the place where the page begins, numbers are at most that of the first row.
    have hbelow : ∀ row' : StoredContent, contents[row'.2]? = some row'.1 → group row'.1 = g →
        number row'.1 < start → number row'.1 ≤ number row.1 := by
      intro row' hrow' hgroup hstart
      have hbefore := hfirst row' (mem_indexRows.2 hrow')
        (lt_latestFirst.2 (.inr ⟨hgroup, hstart⟩))
      rcases lt_latestFirst.1 hlt with hgt | ⟨hg, _⟩
      · have hkeys : latestFirst group number row ≤
            toLex (g, OrderDual.toDual (number row'.1)) := by
          rw [← hgroup]
          exact hbefore
        rcases latestFirst_le.1 hkeys with hless | ⟨_, hle⟩
        · exact absurd hless hgt.not_gt
        · exact hle
      · exact number_le_of_latestFirst_le (hg.trans hgroup.symm) hbefore
    have hbounds : ∀ row', contents[row'.2]? = some row'.1 →
        latestFirst group number row' <
          toLex (g, OrderDual.toDual (number row.1 + count)) →
            latestFirst group number row' ≤ toLex (g, OrderDual.toDual start) := by
      intro row' hrow' hlt'
      rcases latestFirst_lt.1 hlt' with hless | ⟨hgroup, habove⟩
      · exact latestFirst_le.2 (.inl hless)
      · refine latestFirst_le.2 (.inr ⟨hgroup, ?_⟩)
        by_contra hstart
        have hle := hbelow row' hrow' hgroup (not_le.1 hstart)
        omega
    obtain ⟨front, back, page, hsplit, hread, hpage, hstop⟩ :=
      readBackwards_spec number count hbounds
    refine .inr ⟨page, hread, h.pageShows hpage fun row' hrow' ↦ ?_, fun k ↦ ?_⟩
    · have hmem := mem_rowsBetween_latestFirst.1
        (List.mem_reverse.1 (hsplit ▸ List.mem_append_left back hrow'))
      exact ⟨hmem.1, hmem.2.1⟩
    · have hreach : k ≤ batches.length → max 1 start ≤ k → max 1 start ≤ number row.1 + 1 := by
        intro hlength hk
        rcases le_or_gt start 1 with hone | hone
        · omega
        · obtain ⟨other, hother, hgroup, hnumber⟩ := h.exists_row (k := start - 1) (by omega)
            (by omega)
          have hle := hbelow other hother hgroup (by omega)
          omega
      rw [h.mem_newer hsplit hpage hstop, Finset.mem_Icc]
      constructor
      · rintro ⟨⟨hlow, hhigh⟩, hfull⟩
        exact ⟨hlow, hhigh.trans (min_le_right _ _), hfull⟩
      · rintro ⟨hlow, hlength, hfull⟩
        have hle := hreach hlength hlow
        exact ⟨⟨hlow, le_min (by omega) hlength⟩, hfull⟩

end Numbers

end ByNumber

/-! ## Pages by time -/

/-- A page in the order of time: the earlier a row comes in the order, the sooner its message is on
the page. -/
structure TimedPage (contents : List CustomContent) (group : CustomContent → G)
    (number : CustomContent → ℕ) (g : G) (batches : List (List CustomContent)) (count : ℕ)
    (within : Time → Prop) (before : Time → Time → Prop) (page : DocumentPage) : Prop where
  shows : PageShows contents batches page
  length_le : page.length ≤ count
  inTime : ∀ k row, (k, row) ∈ page → within row.1.received
  listed : ∀ row : StoredContent, contents[row.2]? = some row.1 → group row.1 = g →
    within row.1.received → number row.1 ∈ page.map Prod.fst ∨
      page.length = count ∧ ∀ k row', (k, row') ∈ page → before row'.1.received row.1.received

section ByTime

variable (h : Numbers contents group number g batches) {within : Time → Prop}
  {before : Time → Time → Prop}
include h

omit [LinearOrder G] in
/-- What is taken off an ordered list makes such a page. -/
theorem Numbers.timedPage {front back : List StoredContent} {page : DocumentPage}
    (hmem : ∀ row : StoredContent, row ∈ front ++ back ↔
      contents[row.2]? = some row.1 ∧ group row.1 = g ∧ within row.1.received)
    (hsorted : (front ++ back).Pairwise fun row row' ↦ before row.1.received row'.1.received)
    (hpage : PageOf (fun row ↦ number row.1) count front page)
    (hstop : back = [] ∨ page.length = count) :
    TimedPage contents group number g batches count within before page := by
  have hfront : ∀ row ∈ front, contents[row.2]? = some row.1 ∧ group row.1 = g ∧
      within row.1.received := fun row hrow ↦ (hmem row).1 (List.mem_append_left back hrow)
  refine ⟨h.pageShows hpage fun row hrow ↦ ⟨(hfront row hrow).1, (hfront row hrow).2.1⟩,
    hpage.length_le, fun k row hrow ↦ (hfront row (hpage.rows k row hrow).1).2.2, ?_⟩
  intro row hrow hgroup hwithin
  rcases List.mem_append.1 ((hmem row).2 ⟨hrow, hgroup, hwithin⟩) with hin | hout
  · exact .inl ((hpage.numbers _).2 (List.mem_map_of_mem hin))
  · refine .inr ⟨hstop.resolve_left (List.ne_nil_of_mem hout), fun k row' hrow' ↦ ?_⟩
    exact (List.pairwise_append.1 hsorted).2.2 row' (hpage.rows k row' hrow').1 row hout

theorem Numbers.listOlderByTime_spec (start : Time) (count : ℕ) :
    ∃ page, listOlderByTime contents group number g start count = .ok page ∧
      TimedPage contents group number g batches count (· ≤ start) (· ≥ ·) page := by
  have hbounds : ∀ row : StoredContent, contents[row.2]? = some row.1 →
      latestFirst group CustomContent.received row < toLex (g, OrderDual.toDual start) →
        latestFirst group CustomContent.received row ≤ toLex (g, OrderDual.toDual 0) := by
    intro row _ hlt
    rcases latestFirst_lt.1 hlt with hless | ⟨hgroup, _⟩
    · exact latestFirst_le.2 (.inl hless)
    · exact latestFirst_le.2 (.inr ⟨hgroup, Nat.zero_le _⟩)
  obtain ⟨front, back, page, hsplit, hread, hpage, hstop⟩ :=
    readForwards_spec number count hbounds
  refine ⟨page, hread, h.timedPage (fun row ↦ ?_) ?_ hpage hstop⟩
  · rw [← hsplit, mem_rowsBetween_latestFirst]
    simp
  · rw [← hsplit]
    exact (rowsBetween_pairwise contents _ _ _).imp_of_mem number_le_of_rowsBetween

/-- Times have 32 bits. -/
theorem Numbers.listNewerByTime_spec {start : Time} (hstart : start ≤ 4294967295) (count : ℕ) :
    ∃ page, listNewerByTime contents group number g start count = .ok page ∧
      TimedPage contents group number g batches count
        (fun received ↦ start ≤ received ∧ received ≤ 4294967295) (· ≤ ·) page := by
  have hbounds : ∀ row : StoredContent, contents[row.2]? = some row.1 →
      latestFirst group CustomContent.received row < toLex (g, OrderDual.toDual 4294967295) →
        latestFirst group CustomContent.received row ≤ toLex (g, OrderDual.toDual start) := by
    intro row _ hlt
    rcases latestFirst_lt.1 hlt with hless | ⟨hgroup, hlate⟩
    · exact latestFirst_le.2 (.inl hless)
    · exact latestFirst_le.2 (.inr ⟨hgroup, hstart.trans hlate.le⟩)
  obtain ⟨front, back, page, hsplit, hread, hpage, hstop⟩ :=
    readBackwards_spec number count hbounds
  refine ⟨page, hread, h.timedPage (fun row ↦ ?_) ?_ hpage hstop⟩
  · rw [← hsplit, List.mem_reverse, mem_rowsBetween_latestFirst]
  · rw [← hsplit, List.pairwise_reverse]
    exact (rowsBetween_pairwise contents _ _ _).imp_of_mem number_le_of_rowsBetween

end ByTime

end Group

/-! ## The groups of a run -/

variable {ctx : Context} {C : Database → Stage → Prop} {s₀ s : Database}
  {pending : Option (List Stage)} {past : List Moment}
  {contents : List CustomContent} {log : List (Message × List CustomContent)}

/-- The rows of the messages that are selected, where rows are selected as messages are. -/
theorem numbers_of_selected {G : Type} {select : Message → Bool} {group : CustomContent → G} {g : G}
    {number : CustomContent → ℕ} (h : Sequenced contents log)
    (hconsecutive : Consecutive (batches select number log))
    (hselect : ∀ m rows, Delivered m rows → ∀ c ∈ rows, group c = g ↔ select m = true) :
    Numbers contents group number g ((selected select log).map Prod.snd) := by
  refine ⟨fun c ↦ ?_, ?_, ?_⟩
  · rw [h.rows, List.mem_flatMap]
    constructor
    · rintro ⟨⟨entry, hentry, hc⟩, hgroup⟩
      have hdelivered := h.delivered entry hentry
      refine ⟨entry.2, List.mem_map_of_mem (List.mem_filter.2 ⟨hentry, ?_⟩), hc⟩
      have hne : entry.1.recipients ≠ [] := by
        rw [ne_eq, ← hdelivered.eq_nil_iff]
        exact List.ne_nil_of_mem hc
      rw [(hselect _ _ hdelivered c hc).1 hgroup]
      simpa using hne
    · rintro ⟨_, hbatch, hc⟩
      obtain ⟨entry, hentry, rfl⟩ := List.mem_map.1 hbatch
      obtain ⟨hmem, hselected⟩ := List.mem_filter.1 hentry
      refine ⟨⟨entry, hmem, hc⟩, (hselect _ _ (h.delivered entry hmem) c hc).2 ?_⟩
      exact (Bool.and_eq_true_iff.1 hselected).1
  · rintro hnil
    obtain ⟨entry, hentry, hempty⟩ := List.mem_map.1 hnil
    obtain ⟨hmem, hselected⟩ := List.mem_filter.1 hentry
    rw [(h.delivered entry hmem).eq_nil_iff.1 hempty] at hselected
    simp at hselected
  · intro k batch hbatch c hc
    rw [List.getElem?_map, Option.map_eq_some_iff] at hbatch
    obtain ⟨entry, hentry, rfl⟩ := hbatch
    exact sequence_eq_of_consecutive hconsecutive hentry c hc

theorem numbers_of_sender (h : Sequenced contents log) (sender : AccountName) (appId : ℕ) :
    Numbers contents senderGroup CustomContent.senderSequence
      (toLex (sender, OrderDual.toDual appId))
      ((selected (fromSender sender appId) log).map Prod.snd) := by
  refine numbers_of_selected h (h.senders sender appId) fun m rows hdelivered c hc ↦ ?_
  obtain ⟨_, _, hsender, happ, _⟩ := hdelivered.carries c hc
  simp [senderGroup, fromSender, hsender, happ]

theorem numbers_of_application (h : Sequenced contents log) (appId : ℕ) :
    Numbers contents applicationGroup CustomContent.appMessageSequence (OrderDual.toDual appId)
      ((selected (toApplication appId) log).map Prod.snd) := by
  refine numbers_of_selected h (h.applications appId) fun m rows hdelivered c hc ↦ ?_
  obtain ⟨_, _, _, happ, _⟩ := hdelivered.carries c hc
  simp [applicationGroup, toApplication, happ]

/-- What a recipient has received, row by row. -/
def receivedBy (contents : List CustomContent) (recipient : AccountName) (appId : ℕ) :
    List (List CustomContent) :=
  (contents.filter fun c ↦ decide (c.recipient = recipient ∧ c.appId = appId)).map ([·])

theorem numbers_of_recipient (h : Sequenced contents log) (recipient : AccountName) (appId : ℕ) :
    Numbers contents recipientGroup CustomContent.recipientSequence
      (toLex (recipient, OrderDual.toDual appId)) (receivedBy contents recipient appId) := by
  refine ⟨fun c ↦ ?_, by simp [receivedBy], fun k batch hbatch c hc ↦ ?_⟩
  · simp [receivedBy, recipientGroup]
  · rw [receivedBy, List.getElem?_map, Option.map_eq_some_iff] at hbatch
    obtain ⟨c', hc', rfl⟩ := hbatch
    obtain rfl := List.mem_singleton.1 hc
    have hnumber : (recipientSequences contents recipient appId)[k]? =
        some c.recipientSequence := by
      rw [recipientSequences, List.getElem?_map, hc']
      rfl
    have hlt : k < (recipientSequences contents recipient appId).length :=
      (List.getElem?_eq_some_iff.1 hnumber).1
    rw [h.recipients recipient appId, List.getElem?_range' hlt, Option.some.injEq] at hnumber
    omega

/-! ## Calls -/

section Calls

variable {G : Type} [LinearOrder G] (api : CustomApi) (group : CustomContent → G)
  (number : CustomContent → ℕ) (g : G) (batches : List (List CustomContent)) (start count : ℕ)
  (result : Exec (List (ℕ × ReceivedObject)))

/-- The messages from a number on towards the older ones. Where every row of the index comes before
that place, its end is read. -/
def ReadsOlder : Prop :=
  (result = .error .undefinedBehaviour ∧ ∀ row, api.contents[row.2]? = some row.1 →
    latestFirst group number row < toLex (g, OrderDual.toDual start)) ∨
  ∃ page, result = .ok (api.received page) ∧ PageShows api.contents batches page ∧
    ∀ k, k ∈ page.map Prod.fst ↔
      1 ≤ k ∧ k ≤ min start batches.length ∧ min start batches.length < k + count

/-- The messages from a number on towards the newer ones. -/
def ReadsNewer : Prop :=
  (result = .error .undefinedBehaviour ∧ ∀ row, api.contents[row.2]? = some row.1 →
    latestFirst group number row ≤ toLex (g, OrderDual.toDual start)) ∨
  ∃ page, result = .ok (api.received page) ∧ PageShows api.contents batches page ∧
    ∀ k, k ∈ page.map Prod.fst ↔
      max 1 start ≤ k ∧ k ≤ batches.length ∧ k < max 1 start + count

/-- The messages from a time on towards the older ones. -/
def ReadsOlderByTime : Prop :=
  ∃ page, result = .ok (api.received page) ∧
    TimedPage api.contents group number g batches count (· ≤ start) (· ≥ ·) page

/-- The messages from a time on towards the newer ones. -/
def ReadsNewerByTime : Prop :=
  ∃ page, result = .ok (api.received page) ∧
    TimedPage api.contents group number g batches count
      (fun received ↦ start ≤ received ∧ received ≤ 4294967295) (· ≤ ·) page

variable {api group number g batches start count result}

theorem Numbers.readsOlder (h : Numbers api.contents group number g batches)
    (hcount : count ≤ start) : ReadsOlder api group number g batches start count
      (api.received <$> listOlder api.contents group number g start count) := by
  rcases h.listOlder_spec hcount with ⟨hresult, hrows⟩ | ⟨page, hresult, hpage⟩
  · exact .inl ⟨by rw [hresult]; rfl, hrows⟩
  · exact .inr ⟨page, by rw [hresult]; rfl, hpage⟩

theorem Numbers.readsNewer (h : Numbers api.contents group number g batches)
    (start count : ℕ) :
    ReadsNewer api group number g batches start count
      (api.received <$> listNewer api.contents group number g start count) := by
  rcases h.listNewer_spec start count with
    ⟨hresult, hrows⟩ | ⟨page, hresult, hpage⟩
  · exact .inl ⟨by rw [hresult]; rfl, hrows⟩
  · exact .inr ⟨page, by rw [hresult]; rfl, hpage⟩

theorem Numbers.readsOlderByTime (h : Numbers api.contents group number g batches)
    (start count : ℕ) :
    ReadsOlderByTime api group number g batches start count
      (api.received <$> listOlderByTime api.contents group number g start count) := by
  obtain ⟨page, hresult, hpage⟩ := h.listOlderByTime_spec start count
  exact ⟨page, by rw [hresult]; rfl, hpage⟩

theorem Numbers.readsNewerByTime (h : Numbers api.contents group number g batches)
    (hstart : start ≤ 4294967295) (count : ℕ) :
    ReadsNewerByTime api group number g batches start count
      (api.received <$> listNewerByTime api.contents group number g start count) := by
  obtain ⟨page, hresult, hpage⟩ := h.listNewerByTime_spec hstart count
  exact ⟨page, by rw [hresult]; rfl, hpage⟩

end Calls

theorem time_le (start : UInt32) : start.toNat ≤ 4294967295 :=
  Nat.le_of_lt_succ start.toNat_lt

/-- Whatever has been sent on a chain, pages of what an account has sent or received, or of what an
application was sent, show the messages next to the place asked for, without gap or repetition. -/
theorem documents_read_back (hgenesis : initGenesis ctx.genesis = .ok s₀)
    (h : Chronicle ctx (fun _ _ ↦ True) s₀ past pending s) (api : CustomApi)
    (hapi : api.contents = s.customContents) (appId : ℕ) (name : AccountName) (text : String)
    (count : ℕ) (hlimit : count ≤ customApiSingleQueryLimit) :
    let group := toLex (name, OrderDual.toDual appId)
    let fromName := (selected (fromSender name appId) (sent ctx past)).map Prod.snd
    let toName := receivedBy s.customContents name appId
    let list (searchType : String) :=
      api.listReceivedDocuments ⟨appId, name, searchType, text, count⟩
    (∀ start, api.stoull text = .ok start → count ≤ start.toNat →
      ReadsOlder api senderGroup CustomContent.senderSequence group fromName start.toNat count
        (list "by_sender") ∧
      ReadsOlder api recipientGroup CustomContent.recipientSequence group toName start.toNat count
        (list "by_recipient") ∧
      ReadsOlder api applicationGroup CustomContent.appMessageSequence (OrderDual.toDual appId)
        ((selected (toApplication appId) (sent ctx past)).map Prod.snd) start.toNat count
        (api.getAppCustomMessages ⟨appId, start.toNat, count⟩)) ∧
    (∀ start, api.stoull text = .ok start →
      ReadsNewer api senderGroup CustomContent.senderSequence group fromName start.toNat count
        (list "by_sender_reverse") ∧
      ReadsNewer api recipientGroup CustomContent.recipientSequence group toName start.toNat count
        (list "by_recipient_reverse")) ∧
    ∀ start, api.fromIsoString text = .ok start →
      ReadsOlderByTime api senderGroup CustomContent.senderSequence group fromName start.toNat count
        (list "by_sender_datetime") ∧
      ReadsOlderByTime api recipientGroup CustomContent.recipientSequence group toName
        start.toNat count (list "by_recipient_datetime") ∧
      ReadsNewerByTime api senderGroup CustomContent.senderSequence group fromName start.toNat count
        (list "by_sender_datetime_reverse") ∧
      ReadsNewerByTime api recipientGroup CustomContent.recipientSequence group toName
        start.toNat count (list "by_recipient_datetime_reverse") := by
  have hsequenced := h.sequenced (initGenesis_customContents hgenesis)
  rw [← hapi] at hsequenced
  have hsender := numbers_of_sender hsequenced name appId
  have hrecipient := numbers_of_recipient hsequenced name appId
  have happlication := numbers_of_application hsequenced appId
  simp only [← hapi]
  refine ⟨fun start hstart hcount ↦ ⟨?_, ?_, ?_⟩, fun start hstart ↦ ⟨?_, ?_⟩,
    fun start hstart ↦ ⟨?_, ?_, ?_, ?_⟩⟩
  · have hcall := hsender.readsOlder hcount
    simpa [CustomApi.listReceivedDocuments, fcAssert, hlimit, hstart, hcount, ok_bind] using hcall
  · have hcall := hrecipient.readsOlder hcount
    simpa [CustomApi.listReceivedDocuments, fcAssert, hlimit, hstart, hcount, ok_bind] using hcall
  · have hcall := happlication.readsOlder hcount
    simpa [CustomApi.getAppCustomMessages, fcAssert, hlimit, hcount, ok_bind] using hcall
  · have hcall := hsender.readsNewer start.toNat count
    simpa [CustomApi.listReceivedDocuments, fcAssert, hlimit, hstart, ok_bind] using hcall
  · have hcall := hrecipient.readsNewer start.toNat count
    simpa [CustomApi.listReceivedDocuments, fcAssert, hlimit, hstart, ok_bind] using hcall
  · have hcall := hsender.readsOlderByTime start.toNat count
    simpa [CustomApi.listReceivedDocuments, fcAssert, hlimit, hstart, ok_bind] using hcall
  · have hcall := hrecipient.readsOlderByTime start.toNat count
    simpa [CustomApi.listReceivedDocuments, fcAssert, hlimit, hstart, ok_bind] using hcall
  · have hcall := hsender.readsNewerByTime (time_le start) count
    simpa [CustomApi.listReceivedDocuments, fcAssert, hlimit, hstart, ok_bind] using hcall
  · have hcall := hrecipient.readsNewerByTime (time_le start) count
    simpa [CustomApi.listReceivedDocuments, fcAssert, hlimit, hstart, ok_bind] using hcall

/-- The contents behind a reader of the number 2. -/
def secondMessageApi (contents : List CustomContent) : CustomApi where
  contents := contents
  base64Encode data := if data = [1] then [65, 81, 61, 61] else []
  stoull text := if text = "2" then .ok 2 else .error (.assertion text)
  fromIsoString text := .error (.assertion text)

theorem documents_read_back_two_messages :
    ∃ s₀ past s, Chronicle (devContext devGenesis) (fun _ _ ↦ True) s₀ past none s ∧
      ReadsOlder (secondMessageApi s.customContents) senderGroup CustomContent.senderSequence
        (toLex (1000, OrderDual.toDual 5))
        ((selected (fromSender 1000 5) (sent (devContext devGenesis) past)).map Prod.snd) 2 2
        ((secondMessageApi s.customContents).listReceivedDocuments
          ⟨5, 1000, "by_sender", "2", 2⟩) := by
  have hok : okAnd (initGenesis devGenesis) (fun s₀ ↦
      okAnd (recordBlocks (devContext devGenesis)
        (fun s stage ↦ stage.run (devContext devGenesis) s) [messagesBlock] ([], s₀))
          fun _ ↦ true) = true := by
    decide +kernel
  obtain ⟨s₀, hgenesis, hs₀⟩ := exists_of_okAnd hok
  obtain ⟨recorded, hblocks, _⟩ := exists_of_okAnd hs₀
  have hchronicle : Chronicle (devContext devGenesis) (fun _ _ ↦ True) s₀ recorded.1 none
      recorded.2 := Chronicle.recordBlocks (fun _ _ _ hrun ↦ ⟨trivial, hrun⟩) .refl hblocks
  have hread := documents_read_back hgenesis hchronicle
    (secondMessageApi recorded.2.customContents) rfl 5 1000 "2" 2 (by decide)
  exact ⟨s₀, recorded.1, recorded.2, hchronicle, (hread.1 2 rfl (by decide)).1⟩

end SophiaTX.Plugins
