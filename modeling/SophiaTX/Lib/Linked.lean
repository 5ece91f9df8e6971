import Mathlib.Data.List.Induction
import SophiaTX.Lib.Partial

/-!
# Linked items

Items that are taken one after another, each on the name of the one before. Who knows the name of
the last item knows all of them, as long as no other item has the name of one of these.
-/

namespace SophiaTX.Lib

universe u v w

variable {ε : Type u} {α ι : Type v} {σ τ : Type v}

/-- An item is taken on a head and becomes the head. -/
structure TakesLinked (f : σ → α → Except ε σ) (head : σ → ι) (previous name : α → ι) : Prop where
  on : ∀ {s a s'}, f s a = .ok s' → head s = previous a
  becomes : ∀ {s a s'}, f s a = .ok s' → head s' = name a

namespace TakesLinked

variable {f : σ → α → Except ε σ} {g : τ → α → Except ε τ} {head : σ → ι} {head' : τ → ι}
  {previous name : α → ι}

/-- Two runs of as many items each that end on one name have taken the same items, when what the
second takes under the name of an item of the first is this item. -/
theorem unique (hf : TakesLinked f head previous name) (hg : TakesLinked g head' previous name)
    {l l' : List α} (hname : ∀ a ∈ l, ∀ t a' t', g t a' = .ok t' → name a' = name a → a' = a)
    (hlength : l'.length = l.length) {s s' : σ} {t t' : τ} (hl : l.foldlM f s = .ok s')
    (hl' : l'.foldlM g t = .ok t') (hhead : head' t' = head s') : l' = l := by
  induction l using List.reverseRecOn generalizing l' s' t' with
  | nil => exact List.length_eq_zero_iff.1 hlength
  | append_singleton l a ih =>
    obtain ⟨l', a', rfl⟩ : ∃ init last, l' = init ++ [last] := by
      rcases List.eq_nil_or_concat l' with rfl | ⟨init, last, rfl⟩
      · rw [List.length_append, List.length_singleton] at hlength
        cases hlength
      · exact ⟨init, last, List.concat_eq_append⟩
    simp only [List.foldlM_append, List.foldlM_cons, List.foldlM_nil, bind_eq_ok, pure_eq_ok]
      at hl hl'
    obtain ⟨s₁, hl, _, ha, rfl⟩ := hl
    obtain ⟨t₁, hl', _, ha', rfl⟩ := hl'
    have hsame : a' = a := by
      apply hname a (List.mem_append_right _ (List.mem_singleton_self a)) _ _ _ ha'
      rw [← hg.becomes ha', hhead, hf.becomes ha]
    subst hsame
    have hinit : l' = l := by
      apply ih (fun b hb ↦ hname b (List.mem_append_left _ hb)) _ hl hl'
      · rw [hg.on ha', hf.on ha]
      · simpa using hlength
    rw [hinit]

end TakesLinked

end SophiaTX.Lib
