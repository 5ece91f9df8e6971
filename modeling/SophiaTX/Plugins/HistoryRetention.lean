import SophiaTX.Plugins.AccountHistory

/-!
# The history of an account is kept in one piece

Pruning takes away the oldest operations of an account, and none of its newest 31. The sequence
numbers that are left have no gap, as long as they fit into 32 bits.
-/

namespace SophiaTX.Plugins

open SophiaTX.Protocol SophiaTX.Lib

/-! ## Ranges -/

namespace TrackedAccounts

variable {tracked : TrackedAccounts} {item : AccountName}

/-- The account lies in one of the ranges, or there are none. -/
def InRange (tracked : TrackedAccounts) (item : AccountName) : Prop :=
  tracked.ranges = [] ∨ ∃ range ∈ tracked.ranges, range.1 ≤ item ∧ item ≤ range.2

instance : Decidable (tracked.InRange item) := inferInstanceAs (Decidable (_ ∨ _))

/-- Every range ends before the next one begins. -/
def Disjoint (tracked : TrackedAccounts) : Prop :=
  ∀ range ∈ tracked.ranges, ∀ range' ∈ tracked.ranges, range.1 < range'.1 → range.2 < range'.1

/-- The iterator stands at the last range that does not begin behind the account, if there is
one. -/
theorem rangeOf_eq_some {range : AccountName × AccountName}
    (h : tracked.rangeOf item = some range) :
    range ∈ tracked.ranges ∧
      ((range.1 ≤ item ∧ ∀ other ∈ tracked.ranges, other.1 ≤ item → other.1 ≤ range.1) ∨
        ∀ other ∈ tracked.ranges, item < other.1) := by
  have hsplit := List.takeWhile_append_dropWhile
    (p := fun range : AccountName × AccountName ↦ decide (range.1 < item)) (l := tracked.ranges)
  have hsorted := tracked.sorted
  have hbefore : ∀ other ∈ tracked.ranges.takeWhile (fun range ↦ decide (range.1 < item)),
      other.1 < item := fun other hother ↦ of_decide_eq_true (List.mem_takeWhile_imp
        (p := fun range : AccountName × AccountName ↦ decide (range.1 < item)) hother)
  have hafter : ∀ other ∈ (tracked.ranges.dropWhile (fun range ↦ decide (range.1 < item))).head?,
      item ≤ other.1 := by
    intro other hother
    have hnot := List.head?_dropWhile_not
      (fun range : AccountName × AccountName ↦ decide (range.1 < item)) tracked.ranges
    rw [Option.mem_def.1 hother] at hnot
    exact not_lt.1 (of_decide_eq_false hnot)
  unfold rangeOf at h
  generalize tracked.ranges.takeWhile (fun range ↦ decide (range.1 < item)) = before at *
  generalize tracked.ranges.dropWhile (fun range ↦ decide (range.1 < item)) = after at *
  rw [← hsplit] at hsorted ⊢
  dsimp only at h
  split at h
  · rename_i hstep
    obtain ⟨front, rfl⟩ := List.getLast?_eq_some_iff.1 h
    have hrange : range ∈ front ++ [range] := List.mem_append_right _ List.mem_cons_self
    refine ⟨List.mem_append_left _ hrange, .inl ⟨(hbefore range hrange).le, ?_⟩⟩
    intro other hother hle
    rcases List.mem_append.1 hother with hother | hother
    · rcases List.mem_append.1 hother with hfront | hlast
      · have hordered := (List.pairwise_append.1 hsorted).1
        exact ((List.pairwise_append.1 hordered).2.2 other hfront range List.mem_cons_self).le
      · rw [List.mem_singleton.1 hlast]
    · cases after with
      | nil => cases hother
      | cons next rest =>
        have hnext : item < next.1 := by
          rcases hstep.2 with ⟨other, hhead, hne⟩ | hnil
          · cases Option.mem_some_iff.1 hhead
            exact lt_of_le_of_ne (hafter next rfl) hne.symm
          · cases hnil
        have hbehind : next.1 ≤ other.1 := by
          rcases List.mem_cons.1 hother with rfl | hrest
          · exact le_rfl
          · exact ((List.pairwise_cons.1 (List.pairwise_append.1 hsorted).2.1).1 other hrest).le
        exact absurd hle (not_le.2 (hnext.trans_le hbehind))
  · rename_i hstay
    obtain ⟨rest, rfl⟩ := List.head?_eq_some_iff.1 h
    refine ⟨List.mem_append_right _ List.mem_cons_self, ?_⟩
    rcases (hafter range rfl).eq_or_lt with heq | hlt
    · exact .inl ⟨heq.ge, fun other _ hle ↦ hle.trans heq.le⟩
    · right
      have hnone : before = [] := by
        by_contra hne
        exact hstay ⟨hne, .inl ⟨range, rfl, hlt.ne'⟩⟩
      rw [hnone, List.nil_append] at hsorted ⊢
      intro other hother
      rcases List.mem_cons.1 hother with rfl | hrest
      · exact hlt
      · exact hlt.trans ((List.pairwise_cons.1 hsorted).1 other hrest)

theorem ranges_eq_nil (h : tracked.rangeOf item = none) : tracked.ranges = [] := by
  have hsplit := List.takeWhile_append_dropWhile
    (p := fun range : AccountName × AccountName ↦ decide (range.1 < item)) (l := tracked.ranges)
  unfold rangeOf at h
  dsimp only at h
  split at h
  · rename_i hstep
    exact absurd (List.getLast?_eq_none_iff.1 h) hstep.1
  · rename_i hstay
    have hafter := List.head?_eq_none_iff.1 h
    have hbefore := by_contra fun hne ↦ hstay ⟨hne, .inr hafter⟩
    rw [← hsplit, hbefore, hafter, List.append_nil]

/-- Two ranges do not begin at the same account. -/
theorem eq_of_fst_eq {range range' : AccountName × AccountName} (h : range ∈ tracked.ranges)
    (h' : range' ∈ tracked.ranges) (heq : range.1 = range'.1) : range = range' := by
  have hnodup : (tracked.ranges.map Prod.fst).Nodup := by
    rw [List.nodup_iff_pairwise_ne, List.pairwise_map]
    exact tracked.sorted.imp fun hlt ↦ ne_of_lt hlt
  exact List.inj_on_of_nodup_map hnodup h h' heq

/-- The range test finds out whether the account lies in one of the ranges. -/
theorem tracks_iff (hdisjoint : tracked.Disjoint) :
    tracked.tracks item = true ↔ tracked.InRange item := by
  rw [tracks, Bool.or_eq_true, List.isEmpty_iff, InRange]
  refine or_congr_right ?_
  cases hfound : tracked.rangeOf item with
  | none =>
    rw [ranges_eq_nil hfound]
    simp
  | some range =>
    obtain ⟨hmem, hplace⟩ := rangeOf_eq_some hfound
    rw [Option.any_some, decide_eq_true_eq]
    constructor
    · intro hin
      exact ⟨range, hmem, hin⟩
    · rintro ⟨other, hother, hlower, hupper⟩
      rcases hplace with ⟨hle, hlast⟩ | hbehind
      · rcases (hlast other hother hlower).eq_or_lt with heq | hlt
        · rw [← eq_of_fst_eq hother hmem heq]
          exact ⟨hlower, hupper⟩
        · exact absurd (hle.trans hupper) (not_le.2 (hdisjoint other hother range hmem hlt))
      · exact absurd hlower (not_le.2 (hbehind other hother))

end TrackedAccounts

namespace HistoryTables

variable {s s' : HistoryTables} {item : AccountName} {sequence : Sequence} {now : Time} {op : ℕ}
  {key : HistoryKey}

/-! ## Keys -/

@[simp]
theorem account_historyKey (item : AccountName) (sequence : Sequence) :
    (historyKey item sequence).account = item := rfl

@[simp]
theorem sequence_historyKey (item : AccountName) (sequence : Sequence) :
    (historyKey item sequence).sequence = sequence := rfl

theorem historyKey_eta (key : HistoryKey) : historyKey key.account key.sequence = key := rfl

theorem historyKey_inj {other : AccountName} {sequence' : Sequence} :
    historyKey item sequence = historyKey other sequence' ↔
      item = other ∧ sequence = sequence' := by
  constructor
  · intro h
    exact ⟨congrArg HistoryKey.account h, congrArg HistoryKey.sequence h⟩
  · rintro ⟨rfl, rfl⟩
    rfl

/-- Accounts ascend, and the sequence numbers of one account descend. -/
theorem historyKey_lt {key' : HistoryKey} :
    key < key' ↔ key.account < key'.account ∨
      key.account = key'.account ∧ key'.sequence < key.sequence := Prod.Lex.lt_iff

/-! ## What an account has -/

/-- The sequence numbers under which operations of an account are stored. -/
def numbers (s : HistoryTables) (item : AccountName) : Set ℕ :=
  {n | ∃ sequence : Sequence, sequence.val = n ∧
    (s.histories.find? (historyKey item sequence)).isSome = true}

/-- The numbers from one on up to the last, among them the newest 31. -/
structure Kept (s : HistoryTables) (item : AccountName) (first last : ℕ) : Prop where
  first_pos : 1 ≤ first
  first_le : first ≤ last + 1
  contiguous : s.numbers item = Set.Icc first last
  newest : ∀ n, 1 ≤ n → n ≤ last → last ≤ n + 30 → first ≤ n

theorem mem_numbers :
    sequence.val ∈ s.numbers item ↔
      (s.histories.find? (historyKey item sequence)).isSome = true := by
  constructor
  · rintro ⟨other, hval, hfound⟩
    rwa [Fin.ext hval] at hfound
  · intro h
    exact ⟨sequence, rfl, h⟩

theorem Kept.mem_iff {first last : ℕ} (h : s.Kept item first last) (sequence : Sequence) :
    (s.histories.find? (historyKey item sequence)).isSome = true ↔
      first ≤ sequence.val ∧ sequence.val ≤ last := by
  rw [← mem_numbers, h.contiguous, Set.mem_Icc]

/-- Numbers that reach up to the count of the operations fit into 32 bits. -/
theorem Kept.last_lt {first last : ℕ} (h : s.Kept item first last) : last < 4294967296 := by
  rcases Nat.eq_zero_or_pos last with rfl | hpos
  · decide
  · have hmem : last ∈ s.numbers item := by
      rw [h.contiguous, Set.mem_Icc]
      exact ⟨h.newest last hpos le_rfl (Nat.le_add_right last 30), le_rfl⟩
    obtain ⟨sequence, rfl, _⟩ := hmem
    exact sequence.isLt

/-- The next number follows the last one. -/
theorem nextSequence_eq {first last : ℕ} (h : s.Kept item first last)
    (hlast : last + 1 < 4294967296) : (s.nextSequence item).val = last + 1 := by
  rcases Nat.eq_zero_or_pos last with rfl | hpos
  · have hnone : ∀ sequence : Sequence, s.histories.find? (historyKey item sequence) = none := by
      intro sequence
      have hmem := h.mem_iff sequence
      have hfirst := h.first_pos
      rw [← Option.not_isSome_iff_eq_none, hmem]
      omega
    rw [nextSequence]
    split
    · rename_i key op hfound
      rw [if_neg]
      · rfl
      · intro haccount
        have hrow := (Table.lowerBound_eq_some hfound).1
        rw [← historyKey_eta key, haccount, hnone] at hrow
        cases hrow
    · rfl
  · have hlt := h.last_lt
    obtain ⟨op, hop⟩ := Option.isSome_iff_exists.1
      ((h.mem_iff ⟨last, hlt⟩).2 ⟨h.newest last hpos le_rfl (Nat.le_add_right last 30), le_rfl⟩)
    have hfound : s.histories.lowerBound (historyKey item (Fin.last 4294967295)) =
        some (historyKey item ⟨last, hlt⟩, op) := by
      apply Table.lowerBound_eq hop
      · rw [← not_lt, historyKey_lt]
        rintro (haccount | ⟨_, hsequence⟩)
        · exact lt_irrefl _ haccount
        · exact absurd (Fin.le_last _) (not_le.2 hsequence)
      · intro key other hrow hle
        rw [← not_lt, historyKey_lt] at hle ⊢
        rintro (haccount | ⟨haccount, hsequence⟩)
        · exact hle (.inl haccount)
        · rw [← historyKey_eta key, haccount] at hrow
          have hmem := (h.mem_iff key.sequence).1 (Option.isSome_iff_exists.2 ⟨other, hrow⟩)
          exact absurd hmem.2 (not_le.2 hsequence)
    rw [nextSequence, hfound]
    dsimp only
    rw [if_pos (account_historyKey _ _), sequence_historyKey, Fin.val_add_eq_of_add_lt]
    · rfl
    · exact hlast

/-! ## Pruning -/

/-- The pruning loop would remove this history object. -/
def isExpired (s : HistoryTables) (now : Time) (item : AccountName) (sequence : Sequence)
    (entry : HistoryKey × ℕ) : Bool := okAnd (s.expired now item sequence entry.1 entry.2) id

/-- The operation of a history object is more than 30 days old. -/
def Old (s : HistoryTables) (now : Time) (op : ℕ) : Prop :=
  ∃ object, s.operations.find? op = some object ∧ retentionTime < (now : ℤ) - object.timestamp

/-- Every history object refers to an operation that is there. -/
def Linked (s : HistoryTables) : Prop :=
  ∀ key op, s.histories.find? key = some op → ∃ object, s.operations.find? op = some object

theorem exists_expired (hlinked : s.Linked) (hrow : s.histories.find? key = some op) :
    ∃ b, s.expired now item sequence key op = .ok b := by
  obtain ⟨object, hobject⟩ := hlinked key op hrow
  unfold expired
  split
  · rw [hobject]
    exact ⟨_, rfl⟩
  · exact ⟨false, rfl⟩

theorem of_expired (h : s.expired now item sequence key op = .ok true) :
    (key.account = item ∧ 30 < sequence - key.sequence) ∧ s.Old now op := by
  unfold expired at h
  split at h
  · rename_i hplace
    obtain ⟨object, hobject, hold⟩ := bind_eq_ok.1 h
    exact ⟨hplace, object, orUnknownKey_eq_ok.1 hobject, of_decide_eq_true (Except.ok.inj hold)⟩
  · cases Except.ok.inj h

theorem expiredFrom_eq {entries : List (HistoryKey × ℕ)}
    (htotal : ∀ entry ∈ entries, ∃ b, s.expired now item sequence entry.1 entry.2 = .ok b)
    (hstop : ∃ entry ∈ entries, s.expired now item sequence entry.1 entry.2 = .ok false) :
    s.expiredFrom now item sequence entries =
      .ok ((entries.takeWhile (s.isExpired now item sequence)).map Prod.fst) := by
  induction entries with
  | nil =>
    obtain ⟨entry, hentry, _⟩ := hstop
    cases hentry
  | cons entry rest ih =>
    obtain ⟨b, hb⟩ := htotal entry List.mem_cons_self
    have hexpired : s.isExpired now item sequence entry = b := by
      rw [isExpired, hb]
      rfl
    cases b with
    | false =>
      rw [expiredFrom, hb, List.takeWhile_cons, hexpired]
      rfl
    | true =>
      have hrest : ∃ other ∈ rest, s.expired now item sequence other.1 other.2 = .ok false := by
        obtain ⟨other, hother, hfalse⟩ := hstop
        rcases List.mem_cons.1 hother with rfl | hother
        · cases hb.symm.trans hfalse
        · exact ⟨other, hother, hfalse⟩
      rw [expiredFrom, hb, ok_bind, if_pos rfl,
        ih (fun other hother ↦ htotal other (List.mem_cons_of_mem entry hother)) hrest,
        List.takeWhile_cons, hexpired]
      rfl

theorem find?_removeHistories (s : HistoryTables) (toRemove : List HistoryKey) (key : HistoryKey) :
    (s.removeHistories toRemove).histories.find? key =
      if key ∈ toRemove then none else s.histories.find? key := by
  rw [removeHistories, Table.find?_filterRows]
  by_cases h : key ∈ toRemove
  · rw [if_pos h]
    cases s.histories.find? key <;> simp [h]
  · rw [if_neg h]
    cases s.histories.find? key <;> simp [h]

/-- The history objects that the pruning loop collects. -/
def removed (s : HistoryTables) (now : Time) (item : AccountName) (sequence : Sequence) :
    List HistoryKey :=
  ((s.histories.below (lastHistoryKey item)).takeWhile
    (s.isExpired now item sequence)).map Prod.fst

theorem mem_below_of_pos (hrow : s.histories.find? (historyKey item sequence) = some op)
    (hpos : 0 < sequence) :
    (historyKey item sequence, op) ∈ s.histories.below (historyKey item 0) := by
  rw [Table.mem_below, historyKey_lt]
  exact ⟨hrow, .inr ⟨rfl, hpos⟩⟩

/-- The newest operation of the account stops the loop. -/
theorem pruneHistories_eq (now : Time) (hlinked : s.Linked) (hpos : 0 < sequence)
    (hrow : s.histories.find? (historyKey item sequence) = some op) :
    s.pruneHistories now item sequence = .ok (s.removeHistories (s.removed now item sequence)) := by
  have hmem := mem_below_of_pos hrow hpos
  have htop : s.expired now item sequence (historyKey item sequence) op = .ok false := by
    have hnot : ¬ (item = item ∧ 30 < sequence - sequence) := by
      rw [Fin.lt_def, Fin.sub_val_of_le le_rfl, Nat.sub_self]
      exact fun h ↦ Nat.not_lt_zero _ h.2
    exact if_neg hnot
  have hloop : s.expiredFrom now item sequence (s.histories.below (historyKey item 0)) =
      .ok (s.removed now item sequence) :=
    expiredFrom_eq (fun entry hentry ↦ exists_expired hlinked (Table.mem_below.1 hentry).1)
      ⟨_, hmem, htop⟩
  rw [pruneHistories]
  split
  · rename_i hnil
    rw [hnil] at hmem
    cases hmem
  · rename_i first rest hbelow
    rw [← hbelow, hloop, ok_bind]
    rfl

theorem of_mem_removed (h : key ∈ s.removed now item sequence) :
    ∃ op, s.histories.find? key = some op ∧ s.expired now item sequence key op = .ok true := by
  obtain ⟨⟨_, op⟩, hentry, rfl⟩ := List.mem_map.1 h
  have hexpired := List.mem_takeWhile_imp (p := s.isExpired now item sequence) hentry
  obtain ⟨b, hb, htrue⟩ := exists_of_okAnd hexpired
  have hbelow := (Table.mem_below.1 (List.takeWhile_subset _ hentry)).1
  exact ⟨op, hbelow, hb.trans (congrArg Except.ok htrue)⟩

/-- What is older than something removed is removed. -/
theorem removed_of_older {older current : Sequence}
    (h : historyKey item sequence ∈ s.removed now item current)
    (hrow : s.histories.find? (historyKey item older) = some op) (hpos : 0 < older)
    (hlt : older < sequence) : historyKey item older ∈ s.removed now item current := by
  obtain ⟨⟨_, other⟩, hentry, heq⟩ := List.mem_map.1 h
  have hbefore := mem_takeWhile_of_before (s.histories.below_pairwise (historyKey item 0))
    (fun _ _ hxy hyx ↦ lt_asymm hxy hyx) hentry (mem_below_of_pos hrow hpos)
    (by
      rw [show _ = historyKey item sequence from heq, historyKey_lt]
      exact .inr ⟨rfl, hlt⟩)
  exact List.mem_map_of_mem hbefore

/-- Pruning leaves the numbers of the account in one piece, with the newest ones. -/
theorem kept_removeHistories {first last : ℕ} (hkept : s.Kept item first last) (hpos : 0 < last)
    (hsequence : sequence.val = last) (now : Time) :
    ∃ first', (s.removeHistories (s.removed now item sequence)).Kept item first' last := by
  have hfirst := hkept.first_pos
  have hfirstLast : first ≤ last := hkept.newest last hpos le_rfl (Nat.le_add_right last 30)
  -- What is removed is more than 30 operations old.
  have hold : ∀ m : Sequence, historyKey item m ∈ s.removed now item sequence →
      m.val + 30 < last := by
    intro m hm
    obtain ⟨op, hrow, hexpired⟩ := of_mem_removed hm
    have hmem := (hkept.mem_iff m).1 (Option.isSome_iff_exists.2 ⟨op, hrow⟩)
    have hgap := (of_expired hexpired).1.2
    rw [sequence_historyKey, Fin.lt_def, Fin.sub_val_of_le (Fin.le_def.2 (by omega)), hsequence]
      at hgap
    have hthirty : ((30 : Sequence) : ℕ) = 30 := rfl
    omega
  -- The least number that is left.
  let Left (n : ℕ) : Prop := first ≤ n ∧
    ∃ m : Sequence, m.val = n ∧ historyKey item m ∉ s.removed now item sequence
  have hleft : ∃ n, Left n := by
    refine ⟨last, hfirstLast, sequence, hsequence, fun hmem ↦ ?_⟩
    have hgap := hold sequence hmem
    omega
  classical
  obtain ⟨hle, m₀, hm₀, hstays⟩ := Nat.find_spec hleft
  have hbelow : ∀ m : Sequence, first ≤ m.val → m.val < Nat.find hleft →
      historyKey item m ∈ s.removed now item sequence := by
    intro m hm hlt
    by_contra hnot
    exact Nat.find_min hleft hlt ⟨hm, m, rfl, hnot⟩
  have hleast : Nat.find hleft ≤ last := Nat.find_min' hleft
    ⟨hfirstLast, sequence, hsequence, fun hmem ↦ by have hgap := hold sequence hmem; omega⟩
  have hlast := hkept.last_lt
  refine ⟨Nat.find hleft, hfirst.trans hle, Nat.le_succ_of_le hleast, ?_, ?_⟩
  · ext n
    rw [Set.mem_Icc]
    constructor
    · rintro ⟨m, rfl, hfound⟩
      rw [find?_removeHistories] at hfound
      split_ifs at hfound with hremoved
      · cases hfound
      · have hmem := (hkept.mem_iff m).1 hfound
        exact ⟨not_lt.1 fun hlt ↦ hremoved (hbelow m hmem.1 hlt), hmem.2⟩
    · rintro ⟨hlower, hupper⟩
      refine ⟨⟨n, by omega⟩, rfl, ?_⟩
      rw [find?_removeHistories, if_neg, hkept.mem_iff]
      · exact ⟨hle.trans hlower, hupper⟩
      · intro hremoved
        rcases (hm₀.trans_le hlower).eq_or_lt with heq | hlt
        · have hsame : m₀ = ⟨n, by omega⟩ := Fin.ext heq
          exact hstays (hsame ▸ hremoved)
        · obtain ⟨op, hrow⟩ := Option.isSome_iff_exists.1 ((hkept.mem_iff m₀).2 (by omega))
          exact hstays (removed_of_older hremoved hrow (Fin.lt_def.2 (by omega)) hlt)
  · intro n hn hnLast hnew
    by_contra hlt
    have hlow := hkept.newest n hn hnLast hnew
    have hgap := hold ⟨n, by omega⟩ (hbelow ⟨n, by omega⟩ hlow (not_le.1 hlt))
    dsimp only at hgap
    omega

/-! ## Recording an operation -/

/-- The tables after so many operations have been recorded for each account. -/
structure InOrder (s : HistoryTables) (recorded : AccountName → ℕ) : Prop where
  kept : ∀ item, ∃ first, s.Kept item first (recorded item)
  linked : s.Linked
  fresh : ∀ op object, s.operations.find? op = some object → op < s.nextOperation

/-- Operations stay, and history objects stay unless their operation is old. -/
structure Retains (now : Time) (s s' : HistoryTables) : Prop where
  operations : ∀ op object, s.operations.find? op = some object →
    s'.operations.find? op = some object
  histories : ∀ key op, s.histories.find? key = some op →
    s'.histories.find? key = some op ∨ s'.Old now op

theorem Retains.refl (now : Time) (s : HistoryTables) : Retains now s s :=
  ⟨fun _ _ h ↦ h, fun _ _ h ↦ .inl h⟩

theorem Retains.trans {s₁ s₂ s₃ : HistoryTables} (h : Retains now s₁ s₂) (h' : Retains now s₂ s₃) :
    Retains now s₁ s₃ where
  operations op object hobject := h'.operations op object (h.operations op object hobject)
  histories key op hrow := by
    rcases h.histories key op hrow with hrow | ⟨object, hobject, hold⟩
    · exact h'.histories key op hrow
    · exact .inr ⟨object, h'.operations op object hobject, hold⟩

theorem Kept.congr {first last : ℕ} (h : s.Kept item first last)
    (hsame : ∀ sequence, s'.histories.find? (historyKey item sequence) =
      s.histories.find? (historyKey item sequence)) : s'.Kept item first last where
  first_pos := h.first_pos
  first_le := h.first_le
  contiguous := by
    rw [← h.contiguous]
    ext n
    simp only [numbers, hsame]
  newest := h.newest

variable {recorded : AccountName → ℕ} {plugin : AccountHistoryPlugin} {note : OperationNotification}

theorem createOperation_ok (h : s.InOrder recorded) :
    ∃ s', s.createOperation plugin now note = .ok (s', s.nextOperation) ∧
      s'.InOrder recorded ∧ (∃ object, s'.operations.find? s.nextOperation = some object) ∧
      Retains now s s' := by
  have hnone : s.operations.find? s.nextOperation = none := by
    by_contra hsome
    obtain ⟨object, hobject⟩ := Option.ne_none_iff_exists'.1 hsome
    exact lt_irrefl _ (h.fresh _ object hobject)
  have hemplace := Table.emplace?_of_find?_eq_none hnone (⟨note.trxId, note.block, note.trxInBlock,
    note.opInTrx, note.virtualOp, now, plugin.pack note.op, note.feePayer⟩ : OperationObject)
  generalize s.operations.emplace _ _ = operations at hemplace
  have hfind := Table.find?_emplace? hemplace
  have hgrow : ∀ op object, s.operations.find? op = some object →
      operations.find? op = some object := by
    intro op object hobject
    rw [hfind, if_neg (h.fresh op object hobject).ne, hobject]
  refine ⟨{ s with operations := operations, nextOperation := s.nextOperation + 1 },
    by rw [createOperation, hemplace], ⟨?_, ?_, ?_⟩, ?_, ⟨hgrow, fun _ _ hrow ↦ .inl hrow⟩⟩
  · intro item
    obtain ⟨first, hkept⟩ := h.kept item
    exact ⟨first, hkept.congr fun _ ↦ rfl⟩
  · intro key op hrow
    obtain ⟨object, hobject⟩ := h.linked key op hrow
    exact ⟨object, hgrow op object hobject⟩
  · intro op object hobject
    have hlookup := (hfind op).symm.trans hobject
    split_ifs at hlookup with hop
    · exact hop ▸ Nat.lt_succ_self _
    · exact Nat.lt_succ_of_lt (h.fresh op object hlookup)
  · exact ⟨_, (hfind _).trans (if_pos rfl)⟩

theorem createHistory_ok (now : Time) (h : s.InOrder recorded)
    (hop : ∃ object, s.operations.find? op = some object)
    (hroom : recorded item + 1 < 4294967296) :
    ∃ s', s.createHistory item (s.nextSequence item) op = .ok s' ∧
      s'.InOrder (Function.update recorded item (recorded item + 1)) ∧ Retains now s s' ∧
      s'.histories.find? (historyKey item (s.nextSequence item)) = some op := by
  obtain ⟨first, hkept⟩ := h.kept item
  have hnext := nextSequence_eq hkept hroom
  generalize s.nextSequence item = sequence at hnext ⊢
  have hnone : s.histories.find? (historyKey item sequence) = none := by
    rw [← Option.not_isSome_iff_eq_none, hkept.mem_iff]
    omega
  have hemplace := Table.emplace?_of_find?_eq_none hnone op
  generalize s.histories.emplace _ _ = histories at hemplace
  have hfind := Table.find?_emplace? hemplace
  refine ⟨{ s with histories := histories }, by rw [createHistory, hemplace],
    ⟨?_, ?_, h.fresh⟩, ⟨fun _ _ hobject ↦ hobject, ?_⟩, (hfind _).trans (if_pos rfl)⟩
  · intro other
    by_cases hother : other = item
    · subst hother
      rw [Function.update_self]
      have hsome : ∀ m : Sequence, (histories.find? (historyKey other m)).isSome = true ↔
          m = sequence ∨ (first ≤ m.val ∧ m.val ≤ recorded other) := by
        intro m
        rw [hfind, ← hkept.mem_iff]
        split_ifs with hkey
        · exact iff_of_true rfl (.inl (historyKey_inj.1 hkey).2)
        · have hne : m ≠ sequence := fun heq ↦ hkey (congrArg _ heq)
          exact (or_iff_right hne).symm
      refine ⟨first, hkept.first_pos, Nat.le_succ_of_le hkept.first_le, ?_, ?_⟩
      · have hle := hkept.first_le
        ext n
        rw [Set.mem_Icc]
        constructor
        · rintro ⟨m, rfl, hfound⟩
          rcases (hsome m).1 hfound with rfl | hmem
          · omega
          · omega
        · rintro ⟨hlower, hupper⟩
          refine ⟨⟨n, by omega⟩, rfl, (hsome _).2 ?_⟩
          rcases Nat.lt_or_ge (recorded other) n with hlt | hle
          · exact .inl (Fin.ext (by dsimp only; omega))
          · exact .inr ⟨hlower, hle⟩
      · intro n hn hnLast hnew
        rcases Nat.lt_or_ge (recorded other) n with hlt | hle
        · exact hkept.first_le.trans (Nat.succ_le_of_lt hlt)
        · exact hkept.newest n hn hle (by omega)
    · rw [Function.update_of_ne hother]
      obtain ⟨first', hkept'⟩ := h.kept other
      refine ⟨first', hkept'.congr fun sequence' ↦ ?_⟩
      have hne : historyKey other sequence' ≠ historyKey item sequence :=
        fun heq ↦ hother (historyKey_inj.1 heq).1
      exact (hfind _).trans (if_neg hne)
  · intro key other hrow
    have hlookup := (hfind key).symm.trans hrow
    split_ifs at hlookup with hkey
    · cases hlookup
      exact hop
    · exact h.linked key other hlookup
  · intro key other hrow
    left
    have hne : key ≠ historyKey item sequence := by
      rintro rfl
      cases hnone.symm.trans hrow
    exact ((hfind key).trans (if_neg hne)).trans hrow

theorem pruneHistories_ok (now : Time) (h : s.InOrder recorded) (hpos : 0 < recorded item)
    (hsequence : sequence.val = recorded item)
    (hrow : s.histories.find? (historyKey item sequence) = some op) :
    ∃ s', s.pruneHistories now item sequence = .ok s' ∧ s'.InOrder recorded ∧ Retains now s s' := by
  have hprune := pruneHistories_eq now h.linked
    (Fin.lt_def.2 (by rw [hsequence]; exact hpos)) hrow
  refine ⟨_, hprune, ⟨?_, ?_, h.fresh⟩, ⟨fun _ _ hobject ↦ hobject, ?_⟩⟩
  · intro other
    obtain ⟨first, hkept⟩ := h.kept other
    by_cases hother : other = item
    · subst hother
      exact kept_removeHistories hkept hpos hsequence now
    · refine ⟨first, hkept.congr fun m ↦ ?_⟩
      rw [find?_removeHistories, if_neg]
      intro hremoved
      obtain ⟨_, _, hexpired⟩ := of_mem_removed hremoved
      exact hother (of_expired hexpired).1.1
  · intro key other hlookup
    rw [find?_removeHistories] at hlookup
    split_ifs at hlookup
    exact h.linked key other hlookup
  · intro key other hlookup
    by_cases hremoved : key ∈ s.removed now item sequence
    · obtain ⟨op', hop', hexpired⟩ := of_mem_removed hremoved
      cases hop'.symm.trans hlookup
      exact .inr (of_expired hexpired).2
    · left
      rw [find?_removeHistories, if_neg hremoved, hlookup]

/-- Recording an operation for an account adds one to what the account has recorded. -/
theorem visit_ok (now : Time) (note : OperationNotification) (hprune : plugin.prune = true)
    (h : s.InOrder recorded) {created : Option ℕ}
    (hcreated : ∀ op ∈ created, ∃ object, s.operations.find? op = some object)
    (hroom : recorded item + 1 < 4294967296) :
    ∃ s' op, visit plugin now note item (s, created) = .ok (s', some op) ∧
      s'.InOrder (Function.update recorded item (recorded item + 1)) ∧
      (∃ object, s'.operations.find? op = some object) ∧ Retains now s s' := by
  obtain ⟨s₁, op, hstart, h₁, hop, hretains₁⟩ : ∃ s₁ op,
      currentOperation plugin now note (s, created) = .ok (s₁, op) ∧ s₁.InOrder recorded ∧
        (∃ object, s₁.operations.find? op = some object) ∧ Retains now s s₁ := by
    cases created with
    | some op => exact ⟨s, op, rfl, h, hcreated op rfl, Retains.refl now s⟩
    | none =>
      obtain ⟨s₁, hcreate, h₁, hop, hretains⟩ := createOperation_ok h
      exact ⟨s₁, _, hcreate, h₁, hop, hretains⟩
  obtain ⟨s₂, hhistory, h₂, hretains₂, hrow⟩ := createHistory_ok now h₁ hop hroom
  obtain ⟨first, hkept⟩ := h₁.kept item
  have hsequence := nextSequence_eq hkept hroom
  have hcount : Function.update recorded item (recorded item + 1) item = recorded item + 1 :=
    Function.update_self _ _ _
  have hpos : 0 < Function.update recorded item (recorded item + 1) item := by omega
  obtain ⟨s₃, hpruned, h₃, hretains₃⟩ := pruneHistories_ok now h₂ hpos
    (hsequence.trans hcount.symm) hrow
  obtain ⟨object, hobject⟩ := hop
  refine ⟨s₃, op, ?_, h₃, ⟨object, ?_⟩, hretains₁.trans (hretains₂.trans hretains₃)⟩
  · rw [visit, hstart, ok_bind]
    dsimp only
    rw [hhistory, ok_bind, hprune, if_pos rfl, hpruned, ok_bind]
    rfl
  · exact hretains₃.operations op object (hretains₂.operations op object hobject)

/-- One operation more for each account in a list that lies in a range. -/
def countItems (tracked : TrackedAccounts) (items : List AccountName)
    (recorded : AccountName → ℕ) : AccountName → ℕ :=
  fun item ↦ recorded item + if item ∈ items ∧ tracked.InRange item then 1 else 0

variable {tracked : TrackedAccounts} {items : List AccountName}

theorem countItems_cons_of_inRange (hin : tracked.InRange item) (hnotMem : item ∉ items) :
    countItems tracked (item :: items) recorded =
      countItems tracked items (Function.update recorded item (recorded item + 1)) := by
  funext other
  rw [countItems, countItems]
  by_cases hother : other = item
  · subst hother
    rw [Function.update_self, if_pos ⟨List.mem_cons_self, hin⟩, if_neg fun h ↦ hnotMem h.1]
  · rw [Function.update_of_ne hother]
    simp only [List.mem_cons, hother, false_or]

theorem countItems_cons_of_not_inRange (hout : ¬ tracked.InRange item) :
    countItems tracked (item :: items) recorded = countItems tracked items recorded := by
  funext other
  rw [countItems, countItems]
  by_cases hother : other = item
  · subst hother
    rw [if_neg fun h ↦ hout h.2, if_neg fun h ↦ hout h.2]
  · simp only [List.mem_cons, hother, false_or]

/-- All the accounts that an operation concerns. -/
theorem foldlM_onItem (now : Time) (note : OperationNotification)
    (hprune : plugin.prune = true) (hfilter : plugin.filterContent = false)
    (hdisjoint : plugin.trackedAccounts.Disjoint) (hnodup : items.Nodup)
    (h : s.InOrder recorded) {created : Option ℕ}
    (hcreated : ∀ op ∈ created, ∃ object, s.operations.find? op = some object)
    (hroom : ∀ item ∈ items, plugin.trackedAccounts.InRange item →
      recorded item + 1 < 4294967296) :
    ∃ s' created', items.foldlM (onItem plugin now note) (s, created) = .ok (s', created') ∧
      s'.InOrder (countItems plugin.trackedAccounts items recorded) ∧ Retains now s s' := by
  induction items generalizing s recorded created with
  | nil =>
    have hcount : countItems plugin.trackedAccounts [] recorded = recorded := by
      funext item
      simp [countItems]
    exact ⟨s, created, rfl, hcount.symm ▸ h, Retains.refl now s⟩
  | cons item items ih =>
    obtain ⟨hnotMem, hnodup⟩ := List.nodup_cons.1 hnodup
    rw [List.foldlM_cons, onItem]
    by_cases hin : plugin.trackedAccounts.InRange item
    · obtain ⟨s₁, op, hvisit, h₁, hop, hretains₁⟩ := visit_ok now note hprune h hcreated
        (hroom item List.mem_cons_self hin)
      have hother : ∀ other ∈ items,
          Function.update recorded item (recorded item + 1) other = recorded other := by
        intro other hother
        have hne : other ≠ item := fun heq ↦ hnotMem (heq ▸ hother)
        exact Function.update_of_ne hne _ _
      have hcreated₁ : ∀ op' ∈ some op, ∃ object, s₁.operations.find? op' = some object := by
        intro op' hop'
        rwa [← Option.mem_some_iff.1 hop']
      obtain ⟨s₂, created₂, hrest, h₂, hretains₂⟩ := ih hnodup h₁ hcreated₁
        (fun other hmem hrange ↦ by
          rw [hother other hmem]
          exact hroom other (List.mem_cons_of_mem item hmem) hrange)
      refine ⟨s₂, created₂, ?_, ?_, hretains₁.trans hretains₂⟩
      · rw [if_pos ((TrackedAccounts.tracks_iff hdisjoint).2 hin), hfilter, if_neg (by decide),
          hvisit, ok_bind, hrest]
      · rw [countItems_cons_of_inRange hin hnotMem]
        exact h₂
    · have hskip : ¬ plugin.trackedAccounts.tracks item = true := by
        rwa [TrackedAccounts.tracks_iff hdisjoint]
      obtain ⟨s₂, created₂, hrest, h₂, hretains₂⟩ := ih hnodup h hcreated
        (fun other hmem ↦ hroom other (List.mem_cons_of_mem item hmem))
      refine ⟨s₂, created₂, ?_, ?_, hretains₂⟩
      · rw [if_neg hskip, ok_bind, hrest]
      · rw [countItems_cons_of_not_inRange hin]
        exact h₂

/-! ## Runs -/

/-- An operation is recorded for an account. -/
def Records (plugin : AccountHistoryPlugin) (note : OperationNotification)
    (item : AccountName) : Prop :=
  (item = note.feePayer ∨ item ∈ plugin.impactedAccounts note.op) ∧
    plugin.trackedAccounts.InRange item

instance (plugin : AccountHistoryPlugin) (note : OperationNotification) (item : AccountName) :
    Decidable (Records plugin note item) := inferInstanceAs (Decidable (_ ∧ _))

/-- Operations with the head block times at which they are applied. -/
abbrev Events := List (Time × OperationNotification)

/-- How many of the operations are recorded for an account. -/
def recordedOperations (plugin : AccountHistoryPlugin) (events : Events) (item : AccountName) : ℕ :=
  events.countP fun event ↦ decide (Records plugin event.2 item)

/-- The tables after a sequence of operations. -/
def run (plugin : AccountHistoryPlugin) (events : Events) : Exec HistoryTables :=
  events.foldlM (fun s event ↦ s.onOperation plugin event.1 event.2) empty

theorem onOperation_ok (now : Time) (hprune : plugin.prune = true)
    (hfilter : plugin.filterContent = false) (hdisjoint : plugin.trackedAccounts.Disjoint)
    (h : s.InOrder recorded)
    (hroom : ∀ item, Records plugin note item → recorded item + 1 < 4294967296) :
    ∃ s', s.onOperation plugin now note = .ok s' ∧
      s'.InOrder (fun item ↦ recorded item + if Records plugin note item then 1 else 0) ∧
      Retains now s s' := by
  have hmem : ∀ item, item ∈ (insert note.feePayer (plugin.impactedAccounts note.op)).sort (· ≤ ·)
      ↔ item = note.feePayer ∨ item ∈ plugin.impactedAccounts note.op := by
    intro item
    rw [Finset.mem_sort, Finset.mem_insert]
  have hnone : ∀ op ∈ (none : Option ℕ), ∃ object, s.operations.find? op = some object := by
    intro op hop
    cases hop
  obtain ⟨s', created, hfold, h', hretains⟩ := foldlM_onItem now note hprune hfilter hdisjoint
    (Finset.sort_nodup _ _) h hnone (fun item hitem hin ↦ hroom item ⟨(hmem item).1 hitem, hin⟩)
  have hcount : countItems plugin.trackedAccounts
        ((insert note.feePayer (plugin.impactedAccounts note.op)).sort (· ≤ ·)) recorded =
      fun item ↦ recorded item + if Records plugin note item then 1 else 0 := by
    funext item
    have hiff : (item ∈ (insert note.feePayer (plugin.impactedAccounts note.op)).sort (· ≤ ·) ∧
        plugin.trackedAccounts.InRange item) ↔ Records plugin note item :=
      and_congr_left' (hmem item)
    rw [countItems]
    by_cases hrecords : Records plugin note item
    · rw [if_pos (hiff.2 hrecords), if_pos hrecords]
    · rw [if_neg (mt hiff.1 hrecords), if_neg hrecords]
  refine ⟨s', by rw [onOperation, hfold]; rfl, ?_, hretains⟩
  rw [← hcount]
  exact h'

theorem inOrder_empty : InOrder empty fun _ ↦ 0 where
  kept item := by
    refine ⟨1, le_rfl, le_rfl, ?_, fun n hn _ _ ↦ hn⟩
    ext n
    rw [Set.mem_Icc]
    constructor
    · rintro ⟨sequence, _, hfound⟩
      cases hfound
    · rintro ⟨hlower, hupper⟩
      omega
  linked key op hrow := by cases hrow
  fresh op object hobject := by cases hobject

theorem recordedOperations_concat (plugin : AccountHistoryPlugin) (events : Events)
    (event : Time × OperationNotification) (item : AccountName) :
    recordedOperations plugin (events ++ [event]) item =
      recordedOperations plugin events item + if Records plugin event.2 item then 1 else 0 := by
  rw [recordedOperations, List.countP_append, List.countP_singleton, ← recordedOperations]
  simp only [decide_eq_true_eq]

theorem run_concat (events : Events) (event : Time × OperationNotification) :
    run plugin (events ++ [event]) =
      run plugin events >>= fun s ↦ s.onOperation plugin event.1 event.2 := by
  rw [run, List.foldlM_append, ← run]
  simp only [List.foldlM_cons, List.foldlM_nil, bind_pure]

/-- As long as the numbers fit into 32 bits, every operation is recorded. -/
theorem run_inOrder (hprune : plugin.prune = true) (hfilter : plugin.filterContent = false)
    (hdisjoint : plugin.trackedAccounts.Disjoint) {events : Events}
    (hroom : ∀ item, recordedOperations plugin events item < 4294967296) :
    ∃ s, run plugin events = .ok s ∧ s.InOrder (recordedOperations plugin events) := by
  induction events using List.reverseRecOn with
  | nil => exact ⟨empty, rfl, inOrder_empty⟩
  | append_singleton events event ih =>
    have hconcat := recordedOperations_concat plugin events event
    obtain ⟨s, hrun, h⟩ := ih fun item ↦ by
      have hlt := hroom item
      have heq := hconcat item
      omega
    obtain ⟨s', hstep, h', _⟩ := onOperation_ok event.1 hprune hfilter hdisjoint
      h fun item hrecords ↦ by
        have hlt := hroom item
        rwa [hconcat, if_pos hrecords] at hlt
    refine ⟨s', by rw [run_concat, hrun, ok_bind, hstep], ?_⟩
    rw [show recordedOperations plugin (events ++ [event]) = _ from funext hconcat]
    exact h'

/-- With pruning, without a filter and with disjoint ranges, as long as no account has recorded
2^32 operations: every operation is recorded for the accounts in the ranges, what an account has
left is one piece with the newest 31 operations, and a step removes only what is old. -/
theorem history_retained (hprune : plugin.prune = true) (hfilter : plugin.filterContent = false)
    (hdisjoint : plugin.trackedAccounts.Disjoint) {events : Events}
    (hroom : ∀ item, recordedOperations plugin events item < 4294967296) :
    (∃ s, run plugin events = .ok s ∧
      ∀ item, ∃ first, s.Kept item first (recordedOperations plugin events item)) ∧
    ∀ before event after, events = before ++ event :: after → ∃ s s',
      run plugin before = .ok s ∧ s.onOperation plugin event.1 event.2 = .ok s' ∧
        ∀ key op, s.histories.find? key = some op → s'.histories.find? key ≠ some op →
          s'.Old event.1 op := by
  constructor
  · obtain ⟨s, hrun, h⟩ := run_inOrder hprune hfilter hdisjoint hroom
    exact ⟨s, hrun, h.kept⟩
  · rintro before event after rfl
    have hle : ∀ item, recordedOperations plugin (before ++ [event]) item ≤
        recordedOperations plugin (before ++ event :: after) item := by
      intro item
      have hsplit : before ++ event :: after = (before ++ [event]) ++ after :=
        List.append_cons before event after
      rw [hsplit]
      exact (List.sublist_append_left _ _).countP_le
    have hbefore : ∀ item, recordedOperations plugin before item < 4294967296 := by
      intro item
      have hconcat := recordedOperations_concat plugin before event item
      have hlt := (hle item).trans_lt (hroom item)
      omega
    obtain ⟨s, hrun, h⟩ := run_inOrder hprune hfilter hdisjoint hbefore
    obtain ⟨s', hstep, _, hretains⟩ := onOperation_ok event.1 hprune hfilter
      hdisjoint h fun item hrecords ↦ by
        have hlt := (hle item).trans_lt (hroom item)
        rwa [recordedOperations_concat, if_pos hrecords] at hlt
    refine ⟨s, s', hrun, hstep, fun key op hrow hgone ↦ ?_⟩
    exact (hretains.histories key op hrow).resolve_left hgone

/-- A plugin that records the operations of their fee payers. -/
def payersPlugin (ranges : TrackedAccounts) : AccountHistoryPlugin where
  trackedAccounts := ranges
  filterContent := false
  blacklist := false
  opList := []
  prune := true
  impactedAccounts _ := ∅
  pack _ := []
  typename _ := ""

def transferNotification : OperationNotification :=
  ⟨1, 1, 0, 0, 0, 5, .transfer 5 6 ⟨1, sophiatxSymbol⟩ []⟩

def twoRanges : TrackedAccounts := ⟨[(0, 9), (20, 29)], by decide⟩

def transferOf (feePayer : AccountName) : OperationNotification :=
  { transferNotification with feePayer := feePayer }

/-- Thirty-three transfers of account 5 and some of others, and another one a month later. -/
def busyMonth : Events :=
  List.replicate 33 (1531512803, transferOf 5) ++
    [(1531512806, transferOf 25), (1531512809, transferOf 15), (1531512812, transferOf 25),
      (1534191212, transferOf 5)]

/-- The transfers that are left are numbered up to the last one. The first one has been pruned, and
those of an account in no range have not been recorded. -/
theorem history_retained_two_ranges :
    ∃ s, run (payersPlugin twoRanges) busyMonth = .ok s ∧
      (∃ first, s.Kept 5 first 34) ∧ (∃ first, s.Kept 25 first 2) ∧ (∃ first, s.Kept 15 first 0) ∧
      s.histories.find? (historyKey 5 1) = none := by
  have hdisjoint : (payersPlugin twoRanges).trackedAccounts.Disjoint := by
    unfold TrackedAccounts.Disjoint
    decide
  have hroom : ∀ item, recordedOperations (payersPlugin twoRanges) busyMonth item < 4294967296 :=
    fun item ↦ List.countP_le_length.trans_lt (by decide)
  obtain ⟨⟨s, hrun, hkept⟩, _⟩ := history_retained rfl rfl hdisjoint hroom
  have hpruned : okAnd (run (payersPlugin twoRanges) busyMonth) (fun s ↦
      decide (s.histories.find? (historyKey 5 1) = none)) = true := by decide +kernel
  rw [hrun] at hpruned
  exact ⟨s, hrun, hkept 5, hkept 25, hkept 15, of_decide_eq_true hpruned⟩

/-- The numbers of an account with 2^32 recorded operations do not reach up to their count. -/
theorem history_not_retained :
    ¬ ∃ s, run (payersPlugin ⟨[], List.Pairwise.nil⟩)
        (List.replicate 4294967296 (1531512803, transferNotification)) = .ok s ∧
      ∀ item, ∃ first, s.Kept item first (recordedOperations (payersPlugin ⟨[], List.Pairwise.nil⟩)
        (List.replicate 4294967296 (1531512803, transferNotification)) item) := by
  rintro ⟨s, _, hkept⟩
  obtain ⟨first, hkept⟩ := hkept 5
  have hlast := hkept.last_lt
  have hrecords : Records (payersPlugin ⟨[], List.Pairwise.nil⟩) transferNotification 5 :=
    ⟨.inl rfl, .inl rfl⟩
  rw [recordedOperations, List.countP_replicate, if_pos (decide_eq_true hrecords)] at hlast
  exact lt_irrefl _ hlast

end HistoryTables

end SophiaTX.Plugins
