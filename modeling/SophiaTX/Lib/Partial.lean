import Mathlib.Algebra.Group.Defs
import Mathlib.Data.List.Basic

/-!
# Partial computations and labelled runs

Success of a computation in `Except` is success of its parts. A loop keeps what each of its
rounds keeps, and extends another if its rounds do. A labelled run is a chain of steps with their
labels: what every step keeps, the run keeps, and what every step adds to a measure, the run adds
up.
-/

namespace SophiaTX.Lib

universe u v w

section Except

variable {ε : Type u} {α β : Type v}

@[simp]
theorem bind_eq_ok {x : Except ε α} {f : α → Except ε β} {b : β} :
    (x >>= f) = .ok b ↔ ∃ a, x = .ok a ∧ f a = .ok b := by
  cases x <;> simp [bind, Except.bind]

@[simp]
theorem pure_eq_ok {a b : α} : (pure a : Except ε α) = .ok b ↔ a = b := by
  simp [pure, Except.pure]

theorem exists_bind_ok {x : Except ε α} {f : α → Except ε β} {a : α} (hx : x = .ok a)
    (hf : ∃ b, f a = .ok b) : ∃ b, (x >>= f) = .ok b := by
  obtain ⟨b, hb⟩ := hf
  exact ⟨b, bind_eq_ok.2 ⟨a, hx, hb⟩⟩

theorem bind_eq_error {x : Except ε α} {f : α → Except ε β} {e : ε} :
    (x >>= f) = .error e ↔ x = .error e ∨ ∃ a, x = .ok a ∧ f a = .error e := by
  cases x <;> simp [bind, Except.bind]

theorem ok_bind (a : α) (f : α → Except ε β) : (Except.ok a >>= f) = f a := rfl

theorem error_bind (e : ε) (f : α → Except ε β) : (Except.error e >>= f) = .error e := rfl

/-- Success with a result that passes a test. -/
def okAnd (x : Except ε α) (p : α → Bool) : Bool :=
  match x with
  | .ok a => p a
  | .error _ => false

theorem exists_of_okAnd {x : Except ε α} {p : α → Bool} (h : okAnd x p = true) :
    ∃ a, x = .ok a ∧ p a = true := by
  cases x with
  | error e => cases h
  | ok a => exact ⟨a, rfl, h⟩

def errorOf : Except ε α → Option ε
  | .ok _ => none
  | .error e => some e

theorem eq_error_of_errorOf {x : Except ε α} {e : ε} (h : errorOf x = some e) :
    x = .error e := by
  cases x with
  | error e' => exact congrArg Except.error (Option.some.inj h)
  | ok a => cases h

theorem error_ne_ok {e : ε} {b : α} : (Except.error e : Except ε α) ≠ .ok b := by
  intro h
  cases h

/-- A loop of checks succeeds when every check does. -/
theorem forM_eq_ok {f : α → Except ε PUnit.{v + 1}} {l : List α} {u : PUnit.{v + 1}}
    (h : l.forM f = .ok u) : ∀ a ∈ l, f a = .ok ⟨⟩ := by
  induction l with
  | nil => simp
  | cons a rest ih =>
    rw [List.forM, bind_eq_ok] at h
    obtain ⟨_, hfirst, hrest⟩ := h
    intro b hb
    rcases List.mem_cons.1 hb with rfl | hb
    · exact hfirst
    · exact ih hrest b hb

theorem mapM_ne_error {f : α → Except ε β} {l : List α} {e : ε}
    (hf : ∀ a ∈ l, f a ≠ .error e) : l.mapM f ≠ .error e := by
  induction l with
  | nil => intro h; cases h
  | cons a rest ih =>
    rw [List.mapM_cons]
    intro h
    rcases bind_eq_error.1 h with hfirst | ⟨b, _, h⟩
    · exact hf a List.mem_cons_self hfirst
    · rcases bind_eq_error.1 h with hrest | ⟨_, _, h⟩
      · exact ih (fun c hc ↦ hf c (List.mem_cons_of_mem a hc)) hrest
      · cases h

theorem mapM_ok {f : α → Except ε β} {l : List α} (hf : ∀ a ∈ l, ∃ b, f a = .ok b) :
    ∃ bs, l.mapM f = .ok bs ∧ bs.length = l.length := by
  induction l with
  | nil => exact ⟨[], rfl, rfl⟩
  | cons a rest ih =>
    obtain ⟨b, hb⟩ := hf a List.mem_cons_self
    obtain ⟨bs, hbs, hlength⟩ := ih fun c hc ↦ hf c (List.mem_cons_of_mem a hc)
    refine ⟨b :: bs, ?_, congrArg Nat.succ hlength⟩
    rw [List.mapM_cons]
    exact bind_eq_ok.2 ⟨b, hb, bind_eq_ok.2 ⟨bs, hbs, rfl⟩⟩

theorem exists_of_mem_mapM {f : α → Except ε β} {l : List α} {bs : List β}
    (h : l.mapM f = .ok bs) {b : β} (hb : b ∈ bs) : ∃ a ∈ l, f a = .ok b := by
  induction l generalizing bs with
  | nil =>
    cases h
    cases hb
  | cons a rest ih =>
    simp only [List.mapM_cons, bind_eq_ok, pure_eq_ok] at h
    obtain ⟨first, hfirst, others, hothers, rfl⟩ := h
    rcases List.mem_cons.1 hb with rfl | hb
    · exact ⟨a, List.mem_cons_self, hfirst⟩
    · obtain ⟨c, hc, heq⟩ := ih hothers hb
      exact ⟨c, List.mem_cons_of_mem a hc, heq⟩

theorem ok_of_mapM {f : α → Except ε β} {l : List α} {bs : List β} (h : l.mapM f = .ok bs) :
    ∀ a ∈ l, ∃ b, f a = .ok b := by
  induction l generalizing bs with
  | nil => simp
  | cons a rest ih =>
    simp only [List.mapM_cons, bind_eq_ok] at h
    obtain ⟨first, hfirst, others, hothers, _⟩ := h
    exact List.forall_mem_cons.2 ⟨⟨first, hfirst⟩, ih hothers⟩

/-- What is read off the results is what is read off the arguments. -/
theorem flatMap_of_mapM {γ : Type*} {f : α → Except ε β} {l : List α} {bs : List β}
    {k : β → List γ} {k' : α → List γ} (h : l.mapM f = .ok bs)
    (hk : ∀ a ∈ l, ∀ b, f a = .ok b → k b = k' a) : bs.flatMap k = l.flatMap k' := by
  induction l generalizing bs with
  | nil =>
    cases h
    rfl
  | cons a rest ih =>
    simp only [List.mapM_cons, bind_eq_ok, pure_eq_ok] at h
    obtain ⟨first, hfirst, others, hothers, rfl⟩ := h
    rw [List.flatMap_cons, List.flatMap_cons, hk a List.mem_cons_self first hfirst,
      ih hothers fun c hc ↦ hk c (List.mem_cons_of_mem a hc)]

/-- A filter that keeps everything. -/
theorem filterM_eq_self {α : Type} {f : α → Except ε Bool} {l : List α}
    (hf : ∀ a ∈ l, f a = .ok true) : l.filterM f = .ok l := by
  have hloop (kept : List α) : l.filterAuxM f kept = .ok (l.reverse ++ kept) := by
    induction l generalizing kept with
    | nil => rfl
    | cons a rest ih =>
      rw [List.filterAuxM, hf a List.mem_cons_self]
      refine (ih (fun c hc ↦ hf c (List.mem_cons_of_mem a hc)) (a :: kept)).trans ?_
      rw [List.reverse_cons, List.append_assoc, List.singleton_append]
  rw [List.filterM, hloop, List.append_nil]
  exact congrArg Except.ok l.reverse_reverse

theorem foldlM_ne_error {σ : Type v} {f : σ → α → Except ε σ} {l : List α} {e : ε}
    (hf : ∀ s, ∀ a ∈ l, f s a ≠ .error e) (s : σ) : l.foldlM f s ≠ .error e := by
  induction l generalizing s with
  | nil => intro h; cases h
  | cons a rest ih =>
    rw [List.foldlM_cons]
    intro h
    rcases bind_eq_error.1 h with hfirst | ⟨s₁, _, hrest⟩
    · exact hf s a List.mem_cons_self hfirst
    · exact ih (fun s b hb ↦ hf s b (List.mem_cons_of_mem a hb)) s₁ hrest

/-- A loop whose rounds all succeed succeeds. -/
theorem foldlM_ok {σ : Type v} {f : σ → α → Except ε σ} {l : List α}
    (hf : ∀ s, ∀ a ∈ l, ∃ s', f s a = .ok s') (s : σ) : ∃ s', l.foldlM f s = .ok s' := by
  induction l generalizing s with
  | nil => exact ⟨s, rfl⟩
  | cons a rest ih =>
    obtain ⟨s₁, hs₁⟩ := hf s a List.mem_cons_self
    obtain ⟨s', hs'⟩ := ih (fun s b hb ↦ hf s b (List.mem_cons_of_mem a hb)) s₁
    exact ⟨s', by rw [List.foldlM_cons]; exact bind_eq_ok.2 ⟨s₁, hs₁, hs'⟩⟩

/-- What every round of a loop keeps, the loop keeps. -/
theorem foldlM_invariant {σ : Type v} {I : σ → Prop} {f : σ → α → Except ε σ} {l : List α}
    {s s' : σ} (hstep : ∀ s a s', a ∈ l → f s a = .ok s' → I s → I s')
    (h : l.foldlM f s = .ok s') (hs : I s) : I s' := by
  induction l generalizing s with
  | nil =>
    rw [List.foldlM_nil, pure_eq_ok] at h
    exact h ▸ hs
  | cons a rest ih =>
    rw [List.foldlM_cons, bind_eq_ok] at h
    obtain ⟨s₁, hround, hrest⟩ := h
    have hs₁ : I s₁ := hstep s a s₁ (List.mem_cons_self) hround hs
    exact ih (fun s b s' hb ↦ hstep s b s' (List.mem_cons_of_mem a hb)) hrest hs₁

/-- `y` succeeds wherever `x` does, with the same result. -/
def Extends (x y : Except ε α) : Prop := ∀ a, x = .ok a → y = .ok a

namespace Extends

theorem refl (x : Except ε α) : Extends x x := fun _ h ↦ h

theorem bind {x y : Except ε α} {f g : α → Except ε β} (h : Extends x y)
    (hf : ∀ a, Extends (f a) (g a)) : Extends (x >>= f) (y >>= g) := by
  intro b hb
  obtain ⟨a, ha, hb⟩ := bind_eq_ok.1 hb
  exact bind_eq_ok.2 ⟨a, h a ha, hf a b hb⟩

theorem foldlM {σ : Type v} {f g : σ → α → Except ε σ} (hf : ∀ s a, Extends (f s a) (g s a))
    (l : List α) (s : σ) : Extends (l.foldlM f s) (l.foldlM g s) := by
  induction l generalizing s with
  | nil => exact refl _
  | cons a rest ih =>
    rw [List.foldlM_cons, List.foldlM_cons]
    exact (hf s a).bind ih

end Extends

/-! ### Changes that an operation does not see -/

theorem map_ite {c : Prop} [Decidable c] (f : α → β) (x y : Except ε α) :
    f <$> (if c then x else y) = if c then f <$> x else f <$> y := by
  split <;> rfl

theorem map_error (f : α → β) (e : ε) : f <$> (.error e : Except ε α) = .error e := rfl

theorem bind_map_congr {w : β → β} {x : Except ε α} {f f' : α → Except ε β}
    (h : ∀ a, f' a = w <$> f a) : x >>= f' = w <$> (x >>= f) := by
  rw [map_bind]
  exact bind_congr h

/-- A loop commutes with a change of the state when its rounds do. -/
theorem foldlM_map {σ : Type v} {w : σ → σ} {f : σ → α → Except ε σ}
    (hf : ∀ s a, f (w s) a = w <$> f s a) (l : List α) (s : σ) :
    l.foldlM f (w s) = w <$> l.foldlM f s := by
  induction l generalizing s with
  | nil => rfl
  | cons a rest ih =>
    rw [List.foldlM_cons, List.foldlM_cons, hf, bind_map_left, map_bind]
    exact bind_congr ih

end Except

section Run

variable {σ : Type u} {ℓ : Type v} {step : σ → ℓ → σ → Prop}

/-- A chain of steps and the list of their labels. -/
inductive Run (step : σ → ℓ → σ → Prop) : σ → List ℓ → σ → Prop
  | nil (s : σ) : Run step s [] s
  | cons {s s₁ s₂ : σ} {l : ℓ} {ls : List ℓ} (hstep : step s l s₁) (hrest : Run step s₁ ls s₂) :
      Run step s (l :: ls) s₂

namespace Run

theorem single {s s' : σ} {l : ℓ} (h : step s l s') : Run step s [l] s' :=
  cons h (nil s')

theorem trans {s s₁ s₂ : σ} {ls ls' : List ℓ} (h : Run step s ls s₁) (h' : Run step s₁ ls' s₂) :
    Run step s (ls ++ ls') s₂ := by
  induction h with
  | nil _ => exact h'
  | cons hstep _ ih => exact cons hstep (ih h')

/-- The rounds of a loop are the steps of a run. -/
theorem of_foldlM {ε : Type w} {f : σ → ℓ → Except ε σ} {ls : List ℓ} {s s' : σ}
    (h : ls.foldlM f s = .ok s') : Run (fun s l s' ↦ f s l = .ok s') s ls s' := by
  induction ls generalizing s with
  | nil => exact pure_eq_ok.1 h ▸ nil s
  | cons l rest ih =>
    rw [List.foldlM_cons, bind_eq_ok] at h
    obtain ⟨s₁, hfirst, hrest⟩ := h
    exact cons hfirst (ih hrest)

theorem invariant {I : σ → Prop} {s s' : σ} {ls : List ℓ}
    (hstep : ∀ s l s', l ∈ ls → step s l s' → I s → I s') (h : Run step s ls s') (hs : I s) :
    I s' := by
  induction h with
  | nil _ => exact hs
  | cons hfirst _ ih =>
    have hs₁ := hstep _ _ _ List.mem_cons_self hfirst hs
    exact ih (fun s l s' hl ↦ hstep s l s' (List.mem_cons_of_mem _ hl)) hs₁

/-- A measure that every step changes by the effect of its label, as long as an invariant
holds. -/
theorem measure {M : Type w} [AddMonoid M] {I : σ → Prop} {value : σ → M} {effect : ℓ → M}
    {s s' : σ} {ls : List ℓ} (hI : ∀ s l s', step s l s' → I s → I s')
    (hstep : ∀ s l s', step s l s' → I s → value s' = value s + effect l)
    (h : Run step s ls s') (hs : I s) : value s' = value s + (ls.map effect).sum := by
  induction h with
  | nil _ => simp
  | cons hfirst _ ih =>
    rw [ih (hI _ _ _ hfirst hs), hstep _ _ _ hfirst hs, List.map_cons, List.sum_cons, add_assoc]

end Run

end Run

end SophiaTX.Lib
