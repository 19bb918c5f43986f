import Detent.Lib.Prog

/-!
# Programs that rely on what they read

`Prog.Uses` bounds the effects of a program whatever their results are. A program
that writes back what it read performs a good effect only because the result it
got was good. A contract says what may be relied on of each result and which
effects may be performed in return; a handler upholds it under an invariant when
every permitted effect keeps the invariant and gives such a result. Then the
invariant holds wherever a program that keeps the contract passes through.
-/
namespace Detent.Lib

/-- What may be relied on of the result of an effect, and the effects permitted. -/
structure Contract (E : Type → Type 1) : Type 1 where
  rely : (β : Type) → E β → β → Prop
  ok : (β : Type) → E β → Prop

/-- Permitted effects keep `I` and give results that can be relied on. -/
structure Contract.Upheld {E : Type → Type 1} {σ : Type} (c : Contract E) (h : Handler E σ)
    (I : σ → Prop) : Prop where
  keeps : ∀ β (e : E β) s, c.ok β e → I s → I (h.apply e s).2
  gives : ∀ β (e : E β) s, c.ok β e → I s → c.rely β e (h.apply e s).1

namespace Prog

variable {E : Type → Type 1} {α β σ : Type}

/-- The states a run of the program passes through, between its effects. -/
def Through (h : Handler E σ) : Prog E α → σ → σ → Prop
  | ret _, s, s' => s' = s
  | eff e next, s, s' => s' = s ∨ (next (h.apply e s).1).Through h (h.apply e s).2 s'

/-- As long as its results can be relied on, the program performs only permitted
effects and returns a value with `Q`. -/
def Keeps (c : Contract E) (Q : α → Prop) : Prog E α → Prop
  | ret a => Q a
  | eff (β := β) e next => c.ok β e ∧ ∀ b, c.rely β e b → (next b).Keeps c Q

variable {c : Contract E} {h : Handler E σ} {I : σ → Prop} {Q : α → Prop}

theorem keeps_pure {a : α} (ha : Q a) : (pure a : Prog E α).Keeps c Q := ha

theorem keeps_perform {e : E α} (he : c.ok α e) (hq : ∀ b, c.rely α e b → Q b) :
    (perform e).Keeps c Q :=
  ⟨he, hq⟩

theorem Keeps.bind {p : Prog E α} {f : α → Prog E β} {R : β → Prop} (hp : p.Keeps c Q)
    (hf : ∀ a, Q a → (f a).Keeps c R) : (p >>= f).Keeps c R := by
  change (p.bind f).Keeps c R
  induction p with
  | ret a => exact hf a hp
  | eff e next ih => exact ⟨hp.1, fun b hb => ih b (hp.2 b hb)⟩

theorem Keeps.weaken {p : Prog E α} {R : α → Prop} (hp : p.Keeps c Q) (himp : ∀ a, Q a → R a) :
    p.Keeps c R := by
  induction p with
  | ret a => exact himp a hp
  | eff e next ih => exact ⟨hp.1, fun b hb => ih b (hp.2 b hb)⟩

/-- A program that performs only permitted effects relies on nothing. -/
theorem Uses.keeps {p : Prog E α} {ok : (β : Type) → E β → Prop} (hp : p.Uses ok)
    (himp : ∀ β e, ok β e → c.ok β e) : p.Keeps c (fun _ => True) := by
  induction p with
  | ret a => trivial
  | eff e next ih => exact ⟨himp _ _ hp.1, fun b _ => ih b (hp.2 b)⟩

/-- The invariant holds at the end of the program, and the value has `Q`. -/
theorem Keeps.run {p : Prog E α} {s : σ} (hp : p.Keeps c Q) (hc : c.Upheld h I) (hs : I s) :
    Q (p.run h s).1 ∧ I (p.run h s).2 := by
  induction p generalizing s with
  | ret a => exact ⟨hp, hs⟩
  | eff e next ih =>
    have hnext := hp.2 _ (hc.gives _ e s hp.1 hs)
    exact ih _ hnext (hc.keeps _ e s hp.1 hs)

/-- The invariant holds between any two effects of the program. -/
theorem Keeps.through {p : Prog E α} {s s' : σ} (hp : p.Keeps c Q) (hc : c.Upheld h I) (hs : I s)
    (hthrough : p.Through h s s') : I s' := by
  induction p generalizing s with
  | ret a =>
    rw [hthrough]
    exact hs
  | eff e next ih =>
    rcases hthrough with rfl | hrest
    · exact hs
    · have hnext := hp.2 _ (hc.gives _ e s hp.1 hs)
      exact ih _ hnext (hc.keeps _ e s hp.1 hs) hrest

end Prog

namespace Fallible

variable {E : Type → Type 1} {ε α β : Type} {c : Contract E} {Q : α → Prop}

/-- `Prog.Keeps` for a program that may fail; nothing is said of its error. -/
def Keeps (c : Contract E) (Q : α → Prop) (x : ExceptT ε (Prog E) α) : Prop :=
  Prog.Keeps c (EndsIn Q (fun _ => True)) x.run

theorem keeps_pure {a : α} (ha : Q a) : Keeps c Q (pure a : ExceptT ε (Prog E) α) := ha

theorem keeps_throw (e : ε) : Keeps c Q (throw e : ExceptT ε (Prog E) α) := trivial

theorem keeps_perform {e : E α} (he : c.ok α e) (hq : ∀ b, c.rely α e b → Q b) :
    Keeps c Q (perform e : ExceptT ε (Prog E) α) :=
  ⟨he, hq⟩

theorem Keeps.bind {x : ExceptT ε (Prog E) α} {f : α → ExceptT ε (Prog E) β} {R : β → Prop}
    (hx : Keeps c Q x) (hf : ∀ a, Q a → Keeps c R (f a)) : Keeps c R (x >>= f) := by
  unfold Keeps
  rw [ExceptT.run_bind]
  apply Prog.Keeps.bind hx
  intro r hr
  cases r with
  | ok a => exact hf a hr
  | error e => trivial

/-- The result of an attempt is any error, or a value with `Q`. -/
theorem Keeps.attempt {x : ExceptT ε (Prog E) α} (hx : Keeps c Q x) :
    Keeps c (EndsIn Q (fun _ => True)) (attempt x) := by
  apply Prog.Keeps.bind hx
  intro r hr
  exact hr

theorem Keeps.weaken {x : ExceptT ε (Prog E) α} {R : α → Prop} (hx : Keeps c Q x)
    (himp : ∀ a, Q a → R a) : Keeps c R x := by
  apply Prog.Keeps.weaken hx
  intro r hr
  cases r with
  | ok a => exact himp a hr
  | error e => trivial

end Fallible

end Detent.Lib
