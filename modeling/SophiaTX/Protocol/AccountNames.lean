import SophiaTX.Lib.Loop
import SophiaTX.Protocol.FixedString

/-!
# Account names

`is_valid_account_name` scans a name label by label, with one cursor at the beginning and one
behind the end of a label. The grammar knows nothing of cursors: a name is a sequence of labels
with dots between them.
-/

namespace SophiaTX.Protocol

open SophiaTX.Lib

def minAccountNameLength : ℕ := 3

def maxAccountNameLength : ℕ := 16

/-! ## Characters -/

def dot : UInt8 := 46

def isLetter (c : UInt8) : Bool := decide (97 ≤ c ∧ c ≤ 122)

def isLetDig (c : UInt8) : Bool := isLetter c || decide (48 ≤ c ∧ c ≤ 57)

def isLetDigHyp (c : UInt8) : Bool := isLetDig c || c == 45

theorem isLetDig_of_isLetter {c : UInt8} (h : isLetter c = true) : isLetDig c = true := by
  rw [isLetDig, h, Bool.true_or]

theorem isLetDigHyp_of_isLetDig {c : UInt8} (h : isLetDig c = true) : isLetDigHyp c = true := by
  rw [isLetDigHyp, h, Bool.true_or]

theorem isLetDigHyp_dot : isLetDigHyp dot = false := by decide

/-! ## The scanner -/

abbrev Scan := Except (Stop StringFault)

/-- `name[i]`, where a position behind the last character is a fault. -/
def charAt (name : Bytes) (i : ℕ) : Scan UInt8 :=
  match name[i]? with
  | some c => .ok c
  | none => .error (.fault .overread)

/-- Difference of two `size_t`. -/
def sizeSub (a b : ℕ) : ℕ := (a + 18446744073709551616 - b) % 18446744073709551616

def findFirstOf (name : Bytes) (c : UInt8) (begin : ℕ) : Option ℕ :=
  ((name.drop begin).findIdx? (· == c)).map (begin + ·)

/-- Where the label that begins at a position ends. -/
def labelEnd (name : Bytes) (begin : ℕ) : ℕ := (findFirstOf name dot begin).getD name.length

/-- One turn of the loop over the characters between the first and the last of a label. -/
def scanInner (name : Bytes) (stop i : ℕ) : Scan (Turn ℕ Bool) :=
  if i < sizeSub stop 1 then do
    let c ← charAt name i
    if isLetDigHyp c then pure (.again (i + 1)) else pure (.done false)
  else pure (.done true)

/-- One turn of the loop over the labels. -/
def scanLabel (name : Bytes) (turns begin : ℕ) : Scan (Turn ℕ Bool) :=
  let stop := labelEnd name begin
  if sizeSub stop begin < 3 then pure (.done false)
  else do
    let first ← charAt name begin
    if ¬ isLetter first then pure (.done false)
    else do
      let last ← charAt name (sizeSub stop 1)
      if ¬ isLetDig last then pure (.done false)
      else do
        let inner ← loop (scanInner name stop) turns (begin + 1)
        if ¬ inner then pure (.done false)
        else if stop = name.length then pure (.done true)
        else pure (.again (stop + 1))

def isValidAccountName (name : Bytes) (turns : ℕ) : Scan Bool :=
  if name.length < minAccountNameLength then pure false
  else if maxAccountNameLength < name.length then pure false
  else loop (scanLabel name turns) turns 0

/-! ## The grammar -/

/-- `<label>`, of three characters or more. -/
structure IsLabel (label : Bytes) : Prop where
  three_le : 3 ≤ label.length
  first : ∀ c ∈ label.head?, isLetter c = true
  last : ∀ c ∈ label.getLast?, isLetDig c = true
  inner : ∀ c ∈ label, isLetDigHyp c = true

/-- `<subdomain>`. -/
def IsSubdomain (name : Bytes) : Prop :=
  ∃ labels : List Bytes, labels ≠ [] ∧ (∀ label ∈ labels, IsLabel label) ∧
    name = [dot].intercalate labels

structure IsAccountName (name : Bytes) : Prop where
  min_le : minAccountNameLength ≤ name.length
  le_max : name.length ≤ maxAccountNameLength
  subdomain : IsSubdomain name

theorem IsLabel.dot_notMem {label : Bytes} (h : IsLabel label) : dot ∉ label := by
  intro hdot
  have htrue := h.inner dot hdot
  rw [isLetDigHyp_dot] at htrue
  cases htrue

/-- A subdomain is what splits into labels at its dots. -/
theorem isSubdomain_iff {name : Bytes} :
    IsSubdomain name ↔ ∀ label ∈ name.splitOn dot, IsLabel label := by
  constructor
  · rintro ⟨labels, hne, hlabels, rfl⟩
    rw [List.splitOn_intercalate dot (fun label hlabel ↦ (hlabels label hlabel).dot_notMem) hne]
    exact hlabels
  · intro hlabels
    exact ⟨name.splitOn dot, List.splitOn_ne_nil dot name, hlabels,
      (List.intercalate_splitOn dot).symm⟩

theorem isSubdomain_iff_isLabel {label : Bytes} (hdot : dot ∉ label) :
    IsSubdomain label ↔ IsLabel label := by
  rw [isSubdomain_iff, List.splitOn_eq_singleton hdot, List.forall_mem_singleton]

theorem isSubdomain_append {label rest : Bytes} (hdot : dot ∉ label) :
    IsSubdomain (label ++ dot :: rest) ↔ IsLabel label ∧ IsSubdomain rest := by
  rw [isSubdomain_iff, isSubdomain_iff, List.splitOn_append_cons_self_of_not_mem hdot,
    List.forall_mem_cons]

theorem isLabel_iff_all (label : Bytes) :
    IsLabel label ↔ 3 ≤ label.length ∧ label.head?.all isLetter = true ∧
      label.getLast?.all isLetDig = true ∧ label.all isLetDigHyp = true := by
  rw [Option.all_eq_true, Option.all_eq_true, List.all_eq_true]
  constructor
  · intro h
    exact ⟨h.three_le, h.first, h.last, h.inner⟩
  · intro ⟨h, hfirst, hlast, hinner⟩
    exact ⟨h, hfirst, hlast, hinner⟩

instance (label : Bytes) : Decidable (IsLabel label) :=
  decidable_of_iff (3 ≤ label.length ∧ label.head?.all isLetter = true ∧
    label.getLast?.all isLetDig = true ∧ label.all isLetDigHyp = true) (isLabel_iff_all label).symm

instance (name : Bytes) : Decidable (IsSubdomain name) := decidable_of_iff' _ isSubdomain_iff

/-! ## One label -/

section Label

variable {before label after : Bytes}

theorem labelEnd_eq (hdot : dot ∉ label) (hafter : after = [] ∨ after.head? = some dot) :
    labelEnd (before ++ (label ++ after)) before.length = before.length + label.length := by
  have hlabel : label.findIdx? (· == dot) = none := by
    rw [List.findIdx?_eq_none_iff]
    intro c hc
    apply beq_eq_false_iff_ne.2
    rintro rfl
    exact hdot hc
  rcases hafter with rfl | hhead
  · simp [labelEnd, findFirstOf, hlabel]
  · obtain ⟨rest, rfl⟩ := List.head?_eq_some_iff.1 hhead
    simp [labelEnd, findFirstOf, hlabel, List.findIdx?_append, List.findIdx?_cons]

theorem charAt_label {i : ℕ} (hi : i < label.length) :
    charAt (before ++ (label ++ after)) (before.length + i) = .ok label[i] := by
  rw [charAt, List.getElem?_append_right (Nat.le_add_right _ _), Nat.add_sub_cancel_left,
    List.getElem?_append_left hi, List.getElem?_eq_getElem hi]

theorem sizeSub_of_le {a b : ℕ} (h : b ≤ a) (ha : a < 18446744073709551616) :
    sizeSub a b = a - b := by
  rw [sizeSub]
  omega

/-- The characters from a position to the last but one are letters, digits or hyphens. -/
def InnerFrom (label : Bytes) (i : ℕ) : Prop :=
  ∀ j (_ : j + 1 < label.length), i ≤ j → isLetDigHyp label[j] = true

theorem InnerFrom.succ_iff {i : ℕ} (hi : i + 1 < label.length) :
    InnerFrom label i ↔ isLetDigHyp label[i] = true ∧ InnerFrom label (i + 1) := by
  constructor
  · intro h
    exact ⟨h i hi le_rfl, fun j hj hle ↦ h j hj (Nat.le_of_succ_le hle)⟩
  · rintro ⟨hfirst, hrest⟩ j hj hle
    rcases hle.eq_or_lt with rfl | hlt
    · exact hfirst
    · exact hrest j hj hlt

theorem isLabel_iff (h : 3 ≤ label.length) :
    IsLabel label ↔ isLetter label[0] = true ∧ isLetDig label[label.length - 1] = true ∧
      InnerFrom label 1 := by
  have hhead : label.head? = some label[0] := List.head?_eq_getElem? ▸ List.getElem?_eq_getElem _
  have hlast : label.getLast? = some label[label.length - 1] := by
    rw [List.getLast?_eq_getElem?, List.getElem?_eq_getElem]
  constructor
  · intro hlabel
    apply And.intro (hlabel.first _ hhead)
    apply And.intro (hlabel.last _ hlast)
    intro j hj _
    exact hlabel.inner _ (List.getElem_mem _)
  · rintro ⟨hfirst, hend, hinner⟩
    refine ⟨h, ?_, ?_, ?_⟩
    · intro c hc
      rw [hhead] at hc
      exact Option.some.inj hc ▸ hfirst
    · intro c hc
      rw [hlast] at hc
      exact Option.some.inj hc ▸ hend
    · intro c hc
      obtain ⟨j, hj, rfl⟩ := List.getElem_of_mem hc
      rcases Nat.eq_zero_or_pos j with rfl | hpos
      · exact isLetDigHyp_of_isLetDig (isLetDig_of_isLetter hfirst)
      · rcases Nat.lt_or_ge (j + 1) label.length with hlt | hge
        · exact hinner j hlt hpos
        · obtain rfl : j = label.length - 1 := by omega
          exact isLetDigHyp_of_isLetDig hend

variable (hlength : (before ++ (label ++ after)).length < 18446744073709551616)
include hlength

theorem sizeSub_labelEnd {n : ℕ} (hn : n ≤ before.length + label.length) :
    sizeSub (before.length + label.length) n = before.length + label.length - n := by
  apply sizeSub_of_le hn
  rw [List.length_append, List.length_append] at hlength
  omega

theorem scanInner_returns (h : 3 ≤ label.length) :
    ∃ r, Returns (fun turns ↦ loop (scanInner (before ++ (label ++ after))
        (before.length + label.length)) turns (before.length + 1)) r ∧
      (r = true ↔ InnerFrom label 1) := by
  apply Returns.loop (I := fun s ↦ ∃ i, s = before.length + i ∧ i < label.length ∧
    (InnerFrom label i ↔ InnerFrom label 1)) (fun s ↦ before.length + label.length - s)
  · rintro s ⟨i, rfl, hi, hiff⟩
    have hstop := sizeSub_labelEnd hlength (n := 1) (by omega)
    by_cases hlast : i + 1 < label.length
    · have hcond : before.length + i < before.length + label.length - 1 := by omega
      rw [InnerFrom.succ_iff hlast] at hiff
      by_cases hc : isLetDigHyp label[i] = true
      · left
        refine ⟨before.length + (i + 1), Returns.of_eq fun _ ↦ ?_, ⟨i + 1, rfl, hlast, ?_⟩, ?_⟩
        · rw [scanInner, hstop, if_pos hcond, charAt_label hi, ok_bind, if_pos hc]
          rfl
        · rw [← hiff, and_iff_right hc]
        · omega
      · right
        refine ⟨false, Returns.of_eq fun _ ↦ ?_, ?_⟩
        · rw [scanInner, hstop, if_pos hcond, charAt_label hi, ok_bind, if_neg hc]
          rfl
        · rw [← hiff]
          simp [hc]
    · right
      have hcond : ¬ before.length + i < before.length + label.length - 1 := by omega
      refine ⟨true, Returns.of_eq fun _ ↦ ?_, ?_⟩
      · rw [scanInner, hstop, if_neg hcond]
        rfl
      · apply iff_of_true rfl
        rw [← hiff]
        intro j hj hle
        omega
  · exact ⟨1, rfl, by omega, Iff.rfl⟩

/-- A turn over a label goes on behind the dot after a good one, and stops otherwise. -/
theorem scanLabel_returns (hdot : dot ∉ label) (hafter : after = [] ∨ after.head? = some dot) :
    Returns (fun turns ↦ scanLabel (before ++ (label ++ after)) turns before.length)
      (if IsLabel label then
        if after = [] then .done true else .again (before.length + label.length + 1)
      else .done false) := by
  have hstop : labelEnd (before ++ (label ++ after)) before.length =
      before.length + label.length := labelEnd_eq hdot hafter
  have hwidth : sizeSub (before.length + label.length) before.length = label.length := by
    rw [sizeSub_labelEnd hlength (Nat.le_add_right _ _), Nat.add_sub_cancel_left]
  have hends : before.length + label.length = (before ++ (label ++ after)).length ↔
      after = [] := by
    rw [← List.append_assoc, List.length_append, List.length_append, ← List.length_eq_zero_iff]
    omega
  unfold scanLabel
  simp only [hstop, hwidth, hends]
  by_cases hshort : label.length < 3
  · have hbad : ¬ IsLabel label := fun h ↦ absurd h.three_le (Nat.not_le_of_lt hshort)
    simp only [if_pos hshort, if_neg hbad]
    exact Returns.of_eq fun _ ↦ rfl
  have hthree : 3 ≤ label.length := Nat.le_of_not_lt hshort
  have hlast : sizeSub (before.length + label.length) 1 = before.length + (label.length - 1) := by
    rw [sizeSub_labelEnd hlength (by omega)]
    omega
  have hfirst : charAt (before ++ (label ++ after)) before.length = .ok label[0] :=
    charAt_label (i := 0) (by omega)
  have hend : charAt (before ++ (label ++ after)) (before.length + (label.length - 1)) =
      .ok label[label.length - 1] := charAt_label (by omega)
  obtain ⟨inner, hinner, hiff⟩ := scanInner_returns hlength hthree
  simp only [if_neg hshort, hfirst, hlast, hend, ok_bind, isLabel_iff hthree, ← hiff]
  by_cases hletter : isLetter label[0] = true
  · by_cases hletDig : isLetDig label[label.length - 1] = true
    · simp only [hletter, hletDig, not_true_eq_false, if_false, true_and]
      apply hinner.bind
      apply Returns.of_eq
      intro turns
      by_cases hnil : after = [] <;> cases inner <;> simp [hnil, pure, Except.pure]
    · simp only [hletter, hletDig, not_true_eq_false, if_false]
      exact Returns.of_eq fun _ ↦ rfl
  · simp only [hletter]
    exact Returns.of_eq fun _ ↦ rfl

end Label

/-! ## Whole names -/

theorem exists_label (rest : Bytes) :
    ∃ label after, rest = label ++ after ∧ dot ∉ label ∧
      (after = [] ∨ after.head? = some dot) := by
  refine ⟨rest.takeWhile (· != dot), rest.dropWhile (· != dot), ?_, ?_, ?_⟩
  · exact List.takeWhile_append_dropWhile.symm
  · intro hdot
    have hne := List.mem_takeWhile_imp hdot
    simp at hne
  · cases hafter : rest.dropWhile (· != dot) with
    | nil => exact Or.inl rfl
    | cons c after =>
      right
      have hc := List.head?_dropWhile_not (· != dot) rest
      rw [hafter] at hc
      simpa using hc

/-- The loop over the labels accepts the subdomains, whatever the length of the string. -/
theorem scanLabels_returns {name : Bytes} (hlength : name.length < 18446744073709551616) :
    ∃ r, Returns (fun turns ↦ loop (scanLabel name turns) turns 0) r ∧
      (r = true ↔ IsSubdomain name) := by
  apply Returns.loop (I := fun s ↦ ∃ before rest, name = before ++ rest ∧ s = before.length ∧
    (IsSubdomain rest ↔ IsSubdomain name)) (fun s ↦ name.length + 1 - s)
  · rintro s ⟨before, rest, rfl, rfl, hiff⟩
    obtain ⟨label, after, rfl, hdot, hafter⟩ := exists_label rest
    have hturn := scanLabel_returns hlength hdot hafter
    by_cases hlabel : IsLabel label
    · rw [if_pos hlabel] at hturn
      rcases hafter with rfl | hhead
      · rw [if_pos rfl] at hturn
        right
        refine ⟨true, hturn, iff_of_true rfl (hiff.1 ?_)⟩
        rw [List.append_nil]
        exact (isSubdomain_iff_isLabel hdot).2 hlabel
      · obtain ⟨rest, rfl⟩ := List.head?_eq_some_iff.1 hhead
        rw [if_neg (List.cons_ne_nil _ _)] at hturn
        left
        refine ⟨_, hturn, ⟨before ++ (label ++ [dot]), rest, by simp, ?_, ?_⟩, ?_⟩
        · simp [Nat.add_assoc]
        · rw [← hiff, isSubdomain_append hdot, and_iff_right hlabel]
        · simp only [List.length_append, List.length_cons]
          omega
    · rw [if_neg hlabel] at hturn
      right
      refine ⟨false, hturn, iff_of_false Bool.false_ne_true fun h ↦ hlabel ?_⟩
      rw [← hiff] at h
      rcases hafter with rfl | hhead
      · rw [List.append_nil] at h
        exact (isSubdomain_iff_isLabel hdot).1 h
      · obtain ⟨rest, rfl⟩ := List.head?_eq_some_iff.1 hhead
        exact ((isSubdomain_append hdot).1 h).1
  · exact ⟨[], name, rfl, rfl, Iff.rfl⟩

/-- The scanner ends on every string, reads only inside it and accepts exactly the names of the
grammar. -/
theorem isValidAccountName_returns (name : Bytes) :
    ∃ accepted, Returns (isValidAccountName name) accepted ∧
      (accepted = true ↔ IsAccountName name) := by
  by_cases hmin : name.length < minAccountNameLength
  · refine ⟨false, Returns.of_eq fun _ ↦ if_pos hmin, iff_of_false Bool.false_ne_true ?_⟩
    intro h
    exact absurd h.min_le (Nat.not_le_of_lt hmin)
  by_cases hmax : maxAccountNameLength < name.length
  · refine ⟨false, Returns.of_eq fun _ ↦ ?_, iff_of_false Bool.false_ne_true ?_⟩
    · rw [isValidAccountName, if_neg hmin, if_pos hmax]
      rfl
    · intro h
      exact absurd h.le_max (Nat.not_le_of_lt hmax)
  have hlength : name.length < 18446744073709551616 :=
    lt_of_le_of_lt (Nat.le_of_not_lt hmax) (by decide)
  obtain ⟨accepted, hreturns, hiff⟩ := scanLabels_returns hlength
  refine ⟨accepted, ?_, hiff.trans ?_⟩
  · apply hreturns.congr
    intro turns
    rw [isValidAccountName, if_neg hmin, if_neg hmax]
  · constructor
    · exact fun h ↦ ⟨Nat.le_of_not_lt hmin, Nat.le_of_not_lt hmax, h⟩
    · exact fun h ↦ h.subdomain

end SophiaTX.Protocol
