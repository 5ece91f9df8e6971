import Mathlib.Data.List.Basic

/-!
# The past of a run

A history is a list of moments, the newest first. `Since P Q` is the past-time operator of
temporal logic: something happened, and has stood ever since.
-/

namespace SophiaTX.Lib

universe u

variable {α : Type u} {P P' : α → List α → Prop} {Q Q' : α → Prop} {past older : List α}
  {moment : α}

/-- A moment met `P`, given what came before it, and every later one met `Q`. -/
def Since (P : α → List α → Prop) (Q : α → Prop) (past : List α) : Prop :=
  ∃ newer moment older, past = newer ++ moment :: older ∧ P moment older ∧
    ∀ later ∈ newer, Q later

theorem Since.now (h : P moment older) : Since P Q (moment :: older) :=
  ⟨[], moment, older, rfl, h, fun _ hlater ↦ absurd hlater List.not_mem_nil⟩

theorem Since.step (hQ : Q moment) (h : Since P Q past) : Since P Q (moment :: past) := by
  obtain ⟨newer, first, older, rfl, hfirst, hnewer⟩ := h
  refine ⟨moment :: newer, first, older, rfl, hfirst, fun later hlater ↦ ?_⟩
  rcases List.mem_cons.1 hlater with rfl | hlater
  · exact hQ
  · exact hnewer later hlater

theorem since_cons : Since P Q (moment :: past) ↔ P moment past ∨ Q moment ∧ Since P Q past := by
  constructor
  · rintro ⟨newer, first, older, hpast, hfirst, hnewer⟩
    cases newer with
    | nil =>
      rw [List.nil_append, List.cons.injEq] at hpast
      obtain ⟨rfl, rfl⟩ := hpast
      exact .inl hfirst
    | cons newest newer =>
      rw [List.cons_append, List.cons.injEq] at hpast
      obtain ⟨rfl, rfl⟩ := hpast
      exact .inr ⟨hnewer moment List.mem_cons_self, newer, first, older, rfl, hfirst,
        fun later hlater ↦ hnewer later (List.mem_cons_of_mem _ hlater)⟩
  · rintro (h | ⟨hQ, h⟩)
    · exact .now h
    · exact h.step hQ

theorem not_since_nil : ¬ Since P Q [] := by
  rintro ⟨newer, moment, older, hpast, _⟩
  cases newer <;> cases hpast

theorem Since.mono
    (hP : ∀ moment older, (moment :: older) <:+ past → P moment older → P' moment older)
    (h : Since P Q past) : Since P' Q past := by
  obtain ⟨newer, moment, older, rfl, hmoment, hnewer⟩ := h
  exact ⟨newer, moment, older, rfl, hP moment older (List.suffix_append _ _) hmoment, hnewer⟩

/-! ## Back to the last one -/

/-- The newest moments, back to the last one that passes a test. -/
def sinceLast (p : α → Bool) : List α → List α
  | [] => []
  | moment :: older => if p moment = true then [moment] else moment :: sinceLast p older

variable {p : α → Bool} {newer : List α}

theorem sinceLast_append (h : ∀ later ∈ newer, p later = false) :
    sinceLast p (newer ++ older) = newer ++ sinceLast p older := by
  induction newer with
  | nil => rfl
  | cons later newer ih =>
    have hlater : p later = false := h later List.mem_cons_self
    rw [List.cons_append, sinceLast, hlater, if_neg Bool.false_ne_true,
      ih fun other hother ↦ h other (List.mem_cons_of_mem later hother), List.cons_append]

/-- Moments that all come after the last one, and one before them, are in the window. -/
theorem prefix_sinceLast (h : ∀ later ∈ newer, p later = false) :
    newer ++ [moment] <+: sinceLast p (newer ++ moment :: older) := by
  rw [sinceLast_append h, List.prefix_append_right_inj, sinceLast]
  split
  · exact List.prefix_refl _
  · exact List.cons_prefix_cons.2 ⟨rfl, List.nil_prefix⟩

end SophiaTX.Lib
