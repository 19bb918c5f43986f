import Mathlib.Tactic.Common

/-!
# Runs of a labelled machine

A machine is a relation between a state, a label and the next state. `Run`
chains its steps; an invariant of every step is an invariant of every run.
`exec` evaluates a list of labels when the machine is a function.
-/
namespace Detent.Lib

universe u v w x

variable {σ : Type u} {ε : Type v}

/-- The steps of a partial function. -/
def Steps (step : σ → ε → Option σ) (s : σ) (e : ε) (s' : σ) : Prop := step s e = some s'

/-- The steps of `R` taken where `ok` holds. -/
def Guarded (ok : σ → ε → Prop) (R : σ → ε → σ → Prop) (s : σ) (e : ε) (s' : σ) : Prop :=
  ok s e ∧ R s e s'

/-- `Run R s es s'`: the labels `es` lead from `s` to `s'`. -/
inductive Run (R : σ → ε → σ → Prop) : σ → List ε → σ → Prop
  | nil (s : σ) : Run R s [] s
  | cons {s t u : σ} {e : ε} {es : List ε} (step : R s e t) (rest : Run R t es u) :
      Run R s (e :: es) u

/-- What every step preserves, every run preserves. -/
theorem Run.invariant {R : σ → ε → σ → Prop} {I : σ → Prop}
    (hstep : ∀ s e s', I s → R s e s' → I s') {s s' : σ} {es : List ε}
    (h : Run R s es s') (hs : I s) : I s' := by
  induction h with
  | nil s => exact hs
  | cons step _ ih => exact ih (hstep _ _ _ hs step)

/-- What holds at the start and survives each step together with the labels so far,
holds of every run and its labels. -/
theorem Run.history {R : σ → ε → σ → Prop} {I : List ε → σ → Prop}
    (hstep : ∀ es s e s', I es s → R s e s' → I (es ++ [e]) s') {s s' : σ} {es : List ε}
    (h : Run R s es s') (hs : I [] s) : I es s' := by
  have hgen : ∀ before, I before s → I (before ++ es) s' := by
    clear hs
    induction h with
    | nil s =>
      intro before hb
      rwa [List.append_nil]
    | cons step _ ih =>
      intro before hb
      have hrest := ih _ (hstep _ _ _ _ hb step)
      rwa [List.append_assoc] at hrest
  exact hgen [] hs

/-- A run over a concatenation stops in between. -/
theorem Run.split {R : σ → ε → σ → Prop} {s u : σ} {es fs : List ε}
    (h : Run R s (es ++ fs) u) : ∃ t, Run R s es t ∧ Run R t fs u := by
  induction es generalizing s with
  | nil => exact ⟨s, .nil s, h⟩
  | cons e es ih =>
    cases h with
    | cons step rest =>
      obtain ⟨t, hfirst, hsecond⟩ := ih rest
      exact ⟨t, .cons step hfirst, hsecond⟩

/-- What one label of a run brings about and every other label keeps, holds at its end. -/
theorem Run.absorbs {R : σ → ε → σ → Prop} {P : σ → Prop} {s s' : σ} {es : List ε} {e : ε}
    (h : Run R s es s') (he : e ∈ es) (hsets : ∀ t t', R t e t' → P t')
    (hkeeps : ∀ f ∈ es, ∀ t t', P t → R t f t' → P t') : P s' := by
  obtain ⟨before, after, rfl⟩ := List.append_of_mem he
  obtain ⟨t, -, hafter⟩ := h.split
  cases hafter with
  | cons step rest =>
    have hset := hsets _ _ step
    clear hsets h step
    induction rest with
    | nil s => exact hset
    | @cons s u v f fs step rest ih =>
      refine ih ?_ ?_ (hkeeps f (by simp) _ _ hset step)
      · simp
      · intro g hg
        refine hkeeps g ?_
        simp only [List.mem_append, List.mem_cons] at hg ⊢
        tauto

theorem Run.of_guarded {ok : σ → ε → Prop} {R : σ → ε → σ → Prop} {s s' : σ} {es : List ε}
    (h : Run (Guarded ok R) s es s') : Run R s es s' := by
  induction h with
  | nil s => exact .nil s
  | cons step _ ih => exact .cons step.2 ih

/-- A condition that follows from another wherever an invariant holds. -/
theorem Run.guarded_of {ok ok' : σ → ε → Prop} {R : σ → ε → σ → Prop} {I : σ → Prop}
    (hstep : ∀ s e s', I s → R s e s' → I s') (himp : ∀ s e, I s → ok s e → ok' s e) {s s' : σ}
    {es : List ε} (h : Run (Guarded ok R) s es s') (hs : I s) : Run (Guarded ok' R) s es s' := by
  induction h with
  | nil s => exact .nil s
  | cons step _ ih =>
    exact .cons ⟨himp _ _ hs step.1, step.2⟩ (ih (hstep _ _ _ hs step.2))

/-- One more step at the end. -/
theorem Run.snoc {R : σ → ε → σ → Prop} {s t u : σ} {es : List ε} {e : ε} (h : Run R s es t)
    (step : R t e u) : Run R s (es ++ [e]) u := by
  induction h with
  | nil s => exact .cons step (.nil u)
  | cons first _ ih => exact .cons first (ih step)

/-- Evaluate a list of labels. -/
def exec (step : σ → ε → Option σ) (s : σ) (es : List ε) : Option σ := es.foldlM step s

theorem exec_cons {step : σ → ε → Option σ} {s t : σ} {e : ε} {es : List ε}
    (h : step s e = some t) : exec step s (e :: es) = exec step t es := by
  rw [exec, List.foldlM_cons, h]
  rfl

theorem exec_append {step : σ → ε → Option σ} {s t : σ} {es fs : List ε}
    (h : exec step s es = some t) : exec step s (es ++ fs) = exec step t fs := by
  rw [exec, List.foldlM_append]
  change (exec step s es).bind (fun u => exec step u fs) = _
  rw [h]
  rfl

theorem run_of_exec {step : σ → ε → Option σ} {s s' : σ} {es : List ε}
    (h : exec step s es = some s') : Run (Steps step) s es s' := by
  induction es generalizing s with
  | nil =>
    obtain rfl : s = s' := Option.some.inj h
    exact Run.nil s
  | cons e es ih =>
    obtain ⟨t, hstep, hrest⟩ := Option.bind_eq_some_iff.mp h
    exact Run.cons hstep (ih hrest)

/-- A run whose steps are checked as they are taken. -/
theorem run_guarded_of_exec {ok : σ → ε → Prop} [∀ s e, Decidable (ok s e)]
    {step : σ → ε → Option σ} {s s' : σ} {es : List ε}
    (h : exec (fun s e => if ok s e then step s e else none) s es = some s') :
    Run (Guarded ok (Steps step)) s es s' := by
  induction es generalizing s with
  | nil =>
    obtain rfl : s = s' := Option.some.inj h
    exact Run.nil s
  | cons e es ih =>
    obtain ⟨t, hstep, hrest⟩ := Option.bind_eq_some_iff.mp h
    dsimp only at hstep
    by_cases hok : ok s e
    · rw [if_pos hok] at hstep
      exact Run.cons ⟨hok, hstep⟩ (ih hrest)
    · rw [if_neg hok] at hstep
      cases hstep

end Detent.Lib
