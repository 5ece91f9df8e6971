import Mathlib.Order.Filter.AtTopBot.Basic
import SophiaTX.Lib.Partial

/-!
# Loops that may fail or never end

A loop takes turns until one of them is its last. Its runs are cut off after a number of turns, and
so are those of the loops inside a turn: a computation with loops is a function of that number. It
returns what it comes to from some number on; one that is cut off at every number never ends.
-/

namespace SophiaTX.Lib

universe u

variable {ε σ ρ α β : Type u}

/-- How a computation stops short of a result. -/
inductive Stop (ε : Type u) where
  | cutOff
  | fault (e : ε)
deriving DecidableEq

/-- What a turn leaves: a state for the next turn, or the result of the loop. -/
inductive Turn (σ ρ : Type u) where
  | again (s : σ)
  | done (r : ρ)
deriving DecidableEq

def loop (turn : σ → Except (Stop ε) (Turn σ ρ)) : ℕ → σ → Except (Stop ε) ρ
  | 0, _ => .error .cutOff
  | turns + 1, s =>
    match turn s with
    | .error e => .error e
    | .ok (.again s') => loop turn turns s'
    | .ok (.done r) => .ok r

theorem loop_again {turn : σ → Except (Stop ε) (Turn σ ρ)} {s s' : σ}
    (h : turn s = .ok (.again s')) (turns : ℕ) :
    loop turn (turns + 1) s = loop turn turns s' := by
  rw [loop, h]

theorem loop_done {turn : σ → Except (Stop ε) (Turn σ ρ)} {s : σ} {r : ρ}
    (h : turn s = .ok (.done r)) (turns : ℕ) : loop turn (turns + 1) s = .ok r := by
  rw [loop, h]

/-! ## Computations that return -/

/-- A computation comes to a result if it is not cut off too early. -/
def Returns (f : ℕ → Except (Stop ε) α) (a : α) : Prop :=
  ∀ᶠ turns in Filter.atTop, f turns = .ok a

namespace Returns

variable {f f' : ℕ → Except (Stop ε) α} {a b : α}

theorem of_eq (h : ∀ turns, f turns = .ok a) : Returns f a := Filter.Eventually.of_forall h

theorem congr (h : Returns f a) (heq : ∀ turns, f' turns = f turns) : Returns f' a := by
  apply h.mono
  intro turns hok
  rw [heq, hok]

theorem exists_turns (h : Returns f a) : ∃ enough, ∀ turns, enough ≤ turns → f turns = .ok a :=
  Filter.eventually_atTop.1 h

theorem not_of_cutOff (h : ∀ turns, f turns = .error .cutOff) : ¬ Returns f a := by
  intro hreturns
  obtain ⟨enough, hok⟩ := hreturns.exists_turns
  have heq := hok enough le_rfl
  rw [h enough] at heq
  cases heq

theorem bind {g : ℕ → α → Except (Stop ε) β} {b : β} (hf : Returns f a)
    (hg : Returns (fun turns ↦ g turns a) b) : Returns (fun turns ↦ f turns >>= g turns) b := by
  apply (hf.and hg).mono
  rintro turns ⟨hf, hg⟩
  calc
    f turns >>= g turns = g turns a := by rw [hf, ok_bind]
    _ = .ok b := hg

/-- A loop with a measure that each of its turns lowers ends, and its last turn has what the
invariant promises. -/
theorem loop {turn : ℕ → σ → Except (Stop ε) (Turn σ ρ)} {I : σ → Prop} {post : ρ → Prop}
    (M : σ → ℕ)
    (hturn : ∀ s, I s →
      (∃ s', Returns (fun turns ↦ turn turns s) (.again s') ∧ I s' ∧ M s' < M s) ∨
      ∃ r, Returns (fun turns ↦ turn turns s) (.done r) ∧ post r) {s : σ} (hs : I s) :
    ∃ r, Returns (fun turns ↦ Lib.loop (turn turns) turns s) r ∧ post r := by
  have hrun : ∃ r, post r ∧ ∀ᶠ turns in Filter.atTop, ∀ left, M s < left →
      Lib.loop (turn turns) left s = .ok r := by
    induction hm : M s using Nat.strong_induction_on generalizing s with
    | h m ih =>
      rcases hturn s hs with ⟨s', hagain, hs', hlt⟩ | ⟨r, hdone, hr⟩
      · obtain ⟨r, hr, hrest⟩ := ih (M s') (hm ▸ hlt) hs' rfl
        refine ⟨r, hr, (hagain.and hrest).mono ?_⟩
        rintro turns ⟨hagain, hrest⟩ left hleft
        obtain ⟨left, rfl⟩ := Nat.exists_eq_succ_of_ne_zero (Nat.ne_zero_of_lt hleft)
        rw [loop_again hagain]
        apply hrest
        omega
      · refine ⟨r, hr, hdone.mono ?_⟩
        intro turns hdone left hleft
        obtain ⟨left, rfl⟩ := Nat.exists_eq_succ_of_ne_zero (Nat.ne_zero_of_lt hleft)
        rw [loop_done hdone]
  obtain ⟨r, hr, hrun⟩ := hrun
  refine ⟨r, (hrun.and (Filter.eventually_gt_atTop (M s))).mono ?_, hr⟩
  rintro turns ⟨hrun, hlt⟩
  exact hrun turns hlt

end Returns

/-- A loop that goes on from every state it can come to never ends. -/
theorem loop_cutOff {turn : σ → Except (Stop ε) (Turn σ ρ)} {I : σ → Prop}
    (hturn : ∀ s, I s → ∃ s', turn s = .ok (.again s') ∧ I s') {s : σ} (hs : I s) (turns : ℕ) :
    loop turn turns s = .error .cutOff := by
  induction turns generalizing s with
  | zero => rfl
  | succ turns ih =>
    obtain ⟨s', hagain, hs'⟩ := hturn s hs
    rw [loop_again hagain, ih hs']

end SophiaTX.Lib
