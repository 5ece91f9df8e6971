import SophiaTX.Lib.Partial

/-!
# Sweeps

A sweep walks a cursor over the elements of a state and visits them as long as they are due. The
cursor moves on before the element it stood on is visited, so that a visit may move the element,
also to a place the cursor has still to come to. Whether a sweep ends is therefore a matter of a
measure, and what it has done is told by an invariant over its visits.
-/

namespace SophiaTX.Lib

universe u v

/-- Which elements are due, where the cursor goes from an element, and what a visit does. -/
structure Sweep (ε σ κ : Type u) where
  due : σ → κ → Bool
  next : σ → κ → Option κ
  visit : σ → κ → Except ε σ

namespace Sweep

variable {ε σ κ : Type u} {w : Sweep ε σ κ}

/-- The sweep from a cursor, cut off after a number of rounds. -/
def run (w : Sweep ε σ κ) : ℕ → Option κ → σ → Except ε σ
  | 0, _, s => pure s
  | _, none, s => pure s
  | rounds + 1, some k, s =>
    if w.due s k then do
      let s' ← w.visit s k
      run w rounds (w.next s k) s'
    else pure s

/-- The visits of a sweep, each with the state it started in. -/
def visits (w : Sweep ε σ κ) : ℕ → Option κ → σ → List (σ × κ)
  | 0, _, _ => []
  | _, none, _ => []
  | rounds + 1, some k, s =>
    if w.due s k then
      match w.visit s k with
      | .ok s' => (s, k) :: visits w rounds (w.next s k) s'
      | .error _ => []
    else []

/-- The sweep without a bound on its rounds: it ends with these visits and this result. -/
inductive Ends (w : Sweep ε σ κ) : Option κ → σ → List (σ × κ) → Except ε σ → Prop
  | exhausted (s : σ) : Ends w none s [] (.ok s)
  | rest {s : σ} {k : κ} (hdue : w.due s k = false) : Ends w (some k) s [] (.ok s)
  | throw {s : σ} {k : κ} {e : ε} (hdue : w.due s k = true) (hvisit : w.visit s k = .error e) :
      Ends w (some k) s [] (.error e)
  | visit {s s' : σ} {k : κ} {later : List (σ × κ)} {result : Except ε σ}
      (hdue : w.due s k = true) (hvisit : w.visit s k = .ok s')
      (hlater : Ends w (w.next s k) s' later result) : Ends w (some k) s ((s, k) :: later) result

/-- A sweep ends within as many rounds as a measure allows that every visit lowers. -/
theorem ends_run {I : Option κ → σ → Prop} {M : Option κ → σ → ℕ}
    (hstep : ∀ s k s', I (some k) s → w.due s k = true → w.visit s k = .ok s' →
      I (w.next s k) s' ∧
        (w.next s k = none ∨ M (w.next s k) s' < M (some k) s))
    {rounds : ℕ} {cursor : Option κ} {s : σ} (hI : I cursor s)
    (hrounds : cursor = none ∨ M cursor s < rounds) :
    w.Ends cursor s (w.visits rounds cursor s) (w.run rounds cursor s) := by
  induction rounds generalizing cursor s with
  | zero =>
    have hcursor : cursor = none := hrounds.resolve_right (Nat.not_lt_zero _)
    rw [hcursor]
    exact .exhausted s
  | succ rounds ih =>
    cases cursor with
    | none => exact .exhausted s
    | some k =>
      have hmeasure : M (some k) s < rounds + 1 := hrounds.resolve_left (by simp)
      cases hdue : w.due s k with
      | false =>
        simp only [run, visits, hdue, Bool.false_eq_true, if_false]
        exact .rest hdue
      | true =>
        cases hvisit : w.visit s k with
        | error e =>
          simp only [run, visits, hdue, hvisit, if_true]
          exact .throw hdue hvisit
        | ok s' =>
          simp only [run, visits, hdue, hvisit, if_true]
          obtain ⟨hnext, hlower⟩ := hstep s k s' hI hdue hvisit
          apply Ends.visit hdue hvisit
          apply ih hnext
          exact hlower.imp_right fun hlt ↦ Nat.lt_of_lt_of_le hlt (Nat.le_of_lt_succ hmeasure)

/-- Visits are made to elements that are due, and succeed. -/
theorem Ends.visited {cursor : Option κ} {s : σ} {visits : List (σ × κ)} {result : Except ε σ}
    (h : w.Ends cursor s visits result) {visit : σ × κ} (hmem : visit ∈ visits) :
    w.due visit.1 visit.2 = true ∧ ∃ s', w.visit visit.1 visit.2 = .ok s' := by
  induction h with
  | exhausted _ | rest _ | throw _ _ => cases hmem
  | visit hdue hvisit _ ih =>
    rcases List.mem_cons.1 hmem with rfl | hlater
    · exact ⟨hdue, _, hvisit⟩
    · exact ih hlater

section Invariant

variable {J : List (σ × κ) → Option κ → σ → Prop} {visits : List (σ × κ)} {cursor : Option κ}
  {s s' : σ}

theorem Ends.invariant_from {past : List (σ × κ)}
    (hstep : ∀ past s k s', J past (some k) s → w.due s k = true → w.visit s k = .ok s' →
      J (past ++ [(s, k)]) (w.next s k) s')
    (h : w.Ends cursor s visits (.ok s')) (hJ : J past cursor s) :
    ∃ last, J (past ++ visits) last s' ∧ ∀ k, last = some k → w.due s' k = false := by
  generalize hresult : Except.ok s' = result at h
  induction h generalizing past with
  | exhausted s =>
    cases hresult
    exact ⟨none, by rwa [List.append_nil], by simp⟩
  | rest hdue =>
    cases hresult
    refine ⟨some _, by rwa [List.append_nil], ?_⟩
    rintro k ⟨⟩
    exact hdue
  | throw _ _ => cases hresult
  | visit hdue hvisit _ ih =>
    obtain ⟨last, hlast, hrest⟩ := ih (hstep past _ _ _ hJ hdue hvisit) hresult
    rw [List.append_assoc, List.singleton_append] at hlast
    exact ⟨last, hlast, hrest⟩

/-- What every visit keeps holds at the end, where the cursor stands on nothing that is due. -/
theorem Ends.invariant
    (hstep : ∀ past s k s', J past (some k) s → w.due s k = true → w.visit s k = .ok s' →
      J (past ++ [(s, k)]) (w.next s k) s')
    (h : w.Ends cursor s visits (.ok s')) (hJ : J [] cursor s) :
    ∃ last, J visits last s' ∧ ∀ k, last = some k → w.due s' k = false :=
  h.invariant_from hstep hJ

end Invariant

end Sweep

end SophiaTX.Lib
