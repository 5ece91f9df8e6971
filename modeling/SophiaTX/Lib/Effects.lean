import Mathlib.Logic.Basic

/-!
# Computations that keep what they have written

A computation in `EStateM` that throws does not undo what it has written before. `Ends` says what
holds of its end, whether it returns or throws; its rules follow the syntax of programs, so that
`simp` turns a program into a statement about its checks.
-/

namespace SophiaTX.Lib

universe u

variable {ε σ α β : Type u}

/-- What holds where a computation returns, and what holds where it throws. -/
def Ends (x : EStateM ε σ α) (s : σ) (post : α → σ → Prop) (fail : ε → σ → Prop) : Prop :=
  match x s with
  | .ok a s' => post a s'
  | .error e s' => fail e s'

variable {s : σ} {post : α → σ → Prop} {fail : ε → σ → Prop}

@[simp]
theorem ends_pure {a : α} : Ends (pure a) s post fail ↔ post a s := Iff.rfl

@[simp]
theorem ends_throw {e : ε} : Ends (throw e : EStateM ε σ α) s post fail ↔ fail e s := Iff.rfl

@[simp]
theorem ends_get {post : σ → σ → Prop} : Ends (get : EStateM ε σ σ) s post fail ↔ post s s :=
  Iff.rfl

@[simp]
theorem ends_set {s' : σ} {post : PUnit → σ → Prop} :
    Ends (set s' : EStateM ε σ PUnit) s post fail ↔ post ⟨⟩ s' := Iff.rfl

@[simp]
theorem ends_bind {x : EStateM ε σ α} {f : α → EStateM ε σ β} {post : β → σ → Prop} :
    Ends (x >>= f) s post fail ↔ Ends x s (fun a s' ↦ Ends (f a) s' post fail) fail := by
  show (match EStateM.bind x f s with
    | .ok a s' => post a s'
    | .error e s' => fail e s') ↔ _
  unfold Ends EStateM.bind
  cases x s <;> rfl

@[simp]
theorem ends_ite {p : Prop} [Decidable p] {x y : EStateM ε σ α} :
    Ends (if p then x else y) s post fail ↔
      (p → Ends x s post fail) ∧ (¬ p → Ends y s post fail) := by
  split <;> simp [*]

theorem Ends.mono {x : EStateM ε σ α} {post' : α → σ → Prop} {fail' : ε → σ → Prop}
    (h : Ends x s post fail) (hpost : ∀ a s', post a s' → post' a s')
    (hfail : ∀ e s', fail e s' → fail' e s') : Ends x s post' fail' := by
  unfold Ends at h ⊢
  split at h
  · exact hpost _ _ h
  · exact hfail _ _ h

/-- The state a computation leaves, whether it returns or throws. -/
def stateAfter (x : EStateM ε σ α) (s : σ) : σ :=
  match x s with
  | .ok _ s' => s'
  | .error _ s' => s'

/-- The exception a computation ends with, if any. -/
def thrown (x : EStateM ε σ α) (s : σ) : Option ε :=
  match x s with
  | .ok _ _ => none
  | .error e _ => some e

theorem Ends.stateAfter {x : EStateM ε σ α} {P : Option ε → σ → Prop}
    (h : Ends x s (fun _ s' ↦ P none s') fun e s' ↦ P (some e) s') :
    P (thrown x s) (Lib.stateAfter x s) := by
  unfold Ends at h
  unfold thrown Lib.stateAfter
  split at h <;> exact h

end SophiaTX.Lib
