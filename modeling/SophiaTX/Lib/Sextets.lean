import Mathlib.Data.List.DropRight
import Mathlib.Tactic.Ring

/-!
# Bytes and groups of six bits

Three bytes hold four groups of six bits. Lists of whole groups can be turned into each other, and
zeros at the end of one are zeros at the end of the other.
-/

namespace SophiaTX.Lib

/-! ## Lists of threes and of fours -/

/-- Induction over a list of whole groups of three. -/
@[elab_as_elim]
theorem induction_threes {α : Type*} {motive : (l : List α) → 3 ∣ l.length → Prop}
    (nil : motive [] (Nat.dvd_zero 3))
    (group : ∀ (a b c : α) (l : List α) (h : 3 ∣ l.length) (h' : 3 ∣ (a :: b :: c :: l).length),
      motive l h → motive (a :: b :: c :: l) h') : ∀ (l : List α) (h : 3 ∣ l.length), motive l h
  | [], _ => nil
  | [_], h => absurd (show 3 ∣ 1 from h) (by decide)
  | [_, _], h => absurd (show 3 ∣ 2 from h) (by decide)
  | a :: b :: c :: l, h => by
    have hrest : 3 ∣ l.length := by
      simp only [List.length_cons] at h
      omega
    exact group a b c l hrest h (induction_threes nil group l hrest)

/-- Induction over a list of whole groups of four. -/
@[elab_as_elim]
theorem induction_fours {α : Type*} {motive : (l : List α) → 4 ∣ l.length → Prop}
    (nil : motive [] (Nat.dvd_zero 4))
    (group : ∀ (a b c d : α) (l : List α) (h : 4 ∣ l.length)
      (h' : 4 ∣ (a :: b :: c :: d :: l).length), motive l h → motive (a :: b :: c :: d :: l) h') :
    ∀ (l : List α) (h : 4 ∣ l.length), motive l h
  | [], _ => nil
  | [_], h => absurd (show 4 ∣ 1 from h) (by decide)
  | [_, _], h => absurd (show 4 ∣ 2 from h) (by decide)
  | [_, _, _], h => absurd (show 4 ∣ 3 from h) (by decide)
  | a :: b :: c :: d :: l, h => by
    have hrest : 4 ∣ l.length := by
      simp only [List.length_cons] at h
      omega
    exact group a b c d l hrest h (induction_fours nil group l hrest)

/-! ## Sextets and octets -/

/-- The groups of six bits in the bytes, highest bits first. -/
def sextets : List UInt8 → List ℕ
  | a :: b :: c :: bytes =>
    a.toNat / 4 :: (a.toNat % 4 * 16 + b.toNat / 16) :: (b.toNat % 16 * 4 + c.toNat / 64) ::
      c.toNat % 64 :: sextets bytes
  | _ => []

/-- The bytes made of the groups of six bits. -/
def octets : List ℕ → List UInt8
  | a :: b :: c :: d :: groups =>
    UInt8.ofNat (a * 4 + b / 16) :: UInt8.ofNat (b % 16 * 16 + c / 4) ::
      UInt8.ofNat (c % 4 * 64 + d) :: octets groups
  | _ => []

variable {bytes : List UInt8} {groups : List ℕ}

theorem length_sextets (h : 3 ∣ bytes.length) : 3 * (sextets bytes).length = 4 * bytes.length := by
  induction bytes, h using induction_threes with
  | nil => rfl
  | group a b c bytes _ _ ih =>
    simp only [sextets, List.length_cons]
    omega

theorem length_octets (h : 4 ∣ groups.length) :
    4 * (octets groups).length = 3 * groups.length := by
  induction groups, h using induction_fours with
  | nil => rfl
  | group a b c d groups _ _ ih =>
    simp only [octets, List.length_cons]
    omega

theorem lt_of_mem_sextets (h : 3 ∣ bytes.length) : ∀ n ∈ sextets bytes, n < 64 := by
  induction bytes, h using induction_threes with
  | nil =>
    intro n hn
    cases hn
  | group a b c bytes _ _ ih =>
    have ha := a.toNat_lt
    have hb := b.toNat_lt
    have hc := c.toNat_lt
    simp only [sextets, List.mem_cons, forall_eq_or_imp]
    exact ⟨by omega, by omega, by omega, by omega, ih⟩

theorem octets_sextets (h : 3 ∣ bytes.length) : octets (sextets bytes) = bytes := by
  induction bytes, h using induction_threes with
  | nil => rfl
  | group a b c bytes _ _ ih =>
    have ha := a.toNat_lt
    have hb := b.toNat_lt
    have hc := c.toNat_lt
    have hfirst : a.toNat / 4 * 4 + (a.toNat % 4 * 16 + b.toNat / 16) / 16 = a.toNat := by omega
    have hsecond : (a.toNat % 4 * 16 + b.toNat / 16) % 16 * 16 +
        (b.toNat % 16 * 4 + c.toNat / 64) / 4 = b.toNat := by omega
    have hthird : (b.toNat % 16 * 4 + c.toNat / 64) % 4 * 64 + c.toNat % 64 = c.toNat := by omega
    rw [sextets, octets, ih, hfirst, hsecond, hthird, UInt8.ofNat_toNat, UInt8.ofNat_toNat,
      UInt8.ofNat_toNat]

theorem sextets_octets (h : 4 ∣ groups.length) (hsmall : ∀ n ∈ groups, n < 64) :
    sextets (octets groups) = groups := by
  induction groups, h using induction_fours with
  | nil => rfl
  | group a b c d groups _ _ ih =>
    simp only [List.mem_cons, forall_eq_or_imp] at hsmall
    obtain ⟨ha, hb, hc, hd, hgroups⟩ := hsmall
    have hbyte {n : ℕ} (hn : n < 256) : (UInt8.ofNat n).toNat = n := by
      rw [UInt8.toNat_ofNat', Nat.mod_eq_of_lt hn]
    have hfirst : (a * 4 + b / 16) / 4 = a := by omega
    have hsecond : (a * 4 + b / 16) % 4 * 16 + (b % 16 * 16 + c / 4) / 16 = b := by omega
    have hthird : (b % 16 * 16 + c / 4) % 16 * 4 + (c % 4 * 64 + d) / 64 = c := by omega
    have hfourth : (c % 4 * 64 + d) % 64 = d := by omega
    rw [octets, sextets, ih hgroups, hbyte (by omega), hbyte (by omega), hbyte (by omega), hfirst,
      hsecond, hthird, hfourth]

theorem sextets_append (h : 3 ∣ bytes.length) (bytes' : List UInt8) :
    sextets (bytes ++ bytes') = sextets bytes ++ sextets bytes' := by
  induction bytes, h using induction_threes with
  | nil => rfl
  | group a b c bytes _ _ ih => simp only [List.cons_append, sextets, ih]

theorem octets_append (h : 4 ∣ groups.length) (groups' : List ℕ) :
    octets (groups ++ groups') = octets groups ++ octets groups' := by
  induction groups, h using induction_fours with
  | nil => rfl
  | group a b c d groups _ _ ih => simp only [List.cons_append, octets, ih]

theorem sextets_replicate_zero (n : ℕ) :
    sextets (List.replicate (3 * n) 0) = List.replicate (4 * n) 0 := by
  induction n with
  | zero => rfl
  | succ n ih =>
    calc sextets (List.replicate (3 * n + 3) 0)
        = 0 :: 0 :: 0 :: 0 :: sextets (List.replicate (3 * n) 0) := rfl
      _ = List.replicate (4 * n + 4) 0 := by rw [ih]; rfl

theorem octets_replicate_zero (n : ℕ) :
    octets (List.replicate (4 * n) 0) = List.replicate (3 * n) 0 := by
  rw [← sextets_replicate_zero, octets_sextets]
  rw [List.length_replicate]
  exact Nat.dvd_mul_right 3 n

/-! ## Zeros at the end -/

/-- The list without the zeros at its end. -/
def trim (groups : List ℕ) : List ℕ := groups.rdropWhile (· = 0)

theorem trim_append_replicate (groups : List ℕ) (k : ℕ) :
    trim (groups ++ List.replicate k 0) = trim groups := by
  induction k with
  | zero => rw [List.replicate_zero, List.append_nil]
  | succ k ih =>
    rw [List.replicate_succ', ← List.append_assoc, trim, List.rdropWhile_concat,
      if_pos (decide_eq_true rfl), ← trim, ih]

theorem exists_eq_trim_append (groups : List ℕ) :
    ∃ k, groups = trim groups ++ List.replicate k 0 := by
  have hzeros : groups.rtakeWhile (· = 0) =
      List.replicate (groups.rtakeWhile (· = 0)).length 0 := by
    apply List.eq_replicate_of_mem
    intro n hn
    have hzero : decide (n = 0) = true := List.mem_rtakeWhile_imp (p := fun n ↦ decide (n = 0)) hn
    exact of_decide_eq_true hzero
  refine ⟨(groups.rtakeWhile (· = 0)).length, ?_⟩
  rw [← hzeros, trim, List.rdropWhile_append_rtakeWhile]

theorem trim_eq_nil_iff : trim groups = [] ↔ ∀ n ∈ groups, n = 0 := by
  rw [trim, List.rdropWhile_eq_nil_iff]
  simp only [decide_eq_true_eq]

/-- The bytes are restored from their groups without the zeros at the end, up to zeros. -/
theorem exists_eq_octets_append (h : 3 ∣ bytes.length) {k : ℕ} (hk : k < 4)
    (hwhole : 4 ∣ (trim (sextets bytes)).length + k) :
    ∃ m, bytes = octets (trim (sextets bytes) ++ List.replicate k 0) ++ List.replicate m 0 := by
  obtain ⟨zeros, hzeros⟩ := exists_eq_trim_append (sextets bytes)
  have hlength := congrArg List.length hzeros
  have hsize := length_sextets h
  rw [List.length_append, List.length_replicate] at hlength
  obtain ⟨m, rfl⟩ : ∃ m, zeros = k + 4 * m := ⟨(zeros - k) / 4, by omega⟩
  have hgroups : sextets bytes =
      (trim (sextets bytes) ++ List.replicate k 0) ++ List.replicate (4 * m) 0 := by
    rw [List.append_assoc, ← List.replicate_add]
    exact hzeros
  have hdvd : 4 ∣ (trim (sextets bytes) ++ List.replicate k 0).length := by
    rwa [List.length_append, List.length_replicate]
  refine ⟨3 * m, ?_⟩
  calc bytes = octets (sextets bytes) := (octets_sextets h).symm
    _ = octets ((trim (sextets bytes) ++ List.replicate k 0) ++ List.replicate (4 * m) 0) :=
      congrArg octets hgroups
    _ = _ := by rw [octets_append hdvd, octets_replicate_zero]

theorem trim_sextets_eq_nil_iff (h : 3 ∣ bytes.length) :
    trim (sextets bytes) = [] ↔ ∀ b ∈ bytes, b = 0 := by
  rw [trim_eq_nil_iff]
  constructor
  · intro hzero
    have hgroups : sextets bytes = List.replicate (sextets bytes).length 0 :=
      List.eq_replicate_of_mem hzero
    have hsize := length_sextets h
    obtain ⟨m, hm⟩ : ∃ m, (sextets bytes).length = 4 * m :=
      ⟨(sextets bytes).length / 4, by omega⟩
    rw [← octets_sextets h, hgroups, hm, octets_replicate_zero]
    intro b hb
    exact List.eq_of_mem_replicate hb
  · intro hzero
    obtain ⟨m, hm⟩ := h
    rw [List.eq_replicate_of_mem hzero, hm, sextets_replicate_zero]
    intro n hn
    exact List.eq_of_mem_replicate hn

end SophiaTX.Lib
