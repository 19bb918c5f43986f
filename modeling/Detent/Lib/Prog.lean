import Mathlib.Tactic.Common

/-!
# Programs over effects, and their crashes

A program performs effects one after the other and returns a value. A handler
says what an effect does to a state and which states a crash in the middle of it
may leave. `run` executes a program to its end; `Cut` holds of the states in
which a crash may leave it: before its first effect, inside an effect or after
any of them.

`Prog.Ensures` is a triple: from a state, the end satisfies `post`.
-/
namespace Detent.Lib

/-- A program over the effects `E` that returns an `α`. -/
inductive Prog (E : Type → Type 1) (α : Type) : Type 1
  | ret (a : α)
  | eff {β : Type} (e : E β) (next : β → Prog E α)

namespace Prog

variable {E : Type → Type 1} {α β γ σ : Type}

def bind : Prog E α → (α → Prog E β) → Prog E β
  | ret a, f => f a
  | eff e next, f => eff e (fun b => (next b).bind f)

instance : Monad (Prog E) where
  pure := ret
  bind := bind

/-- One effect. -/
def perform (e : E α) : Prog E α := eff e ret

end Prog

/-- The meaning of effects on a state: the value returned and the next state,
and the states a crash inside the effect may leave. -/
structure Handler (E : Type → Type 1) (σ : Type) where
  apply : {β : Type} → E β → σ → β × σ
  torn : {β : Type} → E β → σ → σ → Prop

namespace Prog

variable {E : Type → Type 1} {α β σ : Type}

/-- Run a program to its end. -/
def run (h : Handler E σ) : Prog E α → σ → α × σ
  | ret a, s => (a, s)
  | eff e next, s => (next (h.apply e s).1).run h (h.apply e s).2

/-- The states a crash of the program may leave. -/
def Cut (h : Handler E σ) : Prog E α → σ → σ → Prop
  | ret _, s, s' => s' = s
  | eff e next, s, s' =>
    s' = s ∨ h.torn e s s' ∨ (next (h.apply e s).1).Cut h (h.apply e s).2 s'

variable (h : Handler E σ)

@[simp] theorem run_pure (a : α) (s : σ) : (pure a : Prog E α).run h s = (a, s) := rfl

@[simp] theorem run_perform (e : E α) (s : σ) : (perform e).run h s = h.apply e s := rfl

@[simp] theorem run_bind (p : Prog E α) (f : α → Prog E β) (s : σ) :
    (p >>= f).run h s = (f (p.run h s).1).run h (p.run h s).2 := by
  change (p.bind f).run h s = _
  induction p generalizing s with
  | ret a => rfl
  | eff e next ih => exact ih _ _

/-- Where the two parts of a sequence ended. -/
theorem run_bind_eq {p : Prog E α} {f : α → Prog E β} {s u : σ} {b : β}
    (hp : (p >>= f).run h s = (b, u)) :
    ∃ a t, p.run h s = (a, t) ∧ (f a).run h t = (b, u) := by
  rw [run_bind] at hp
  exact ⟨(p.run h s).1, (p.run h s).2, rfl, hp⟩

@[simp] theorem cut_pure (a : α) (s s' : σ) : (pure a : Prog E α).Cut h s s' ↔ s' = s := Iff.rfl

/-- A crash may always leave the state a program starts from. -/
theorem cut_start (p : Prog E α) (s : σ) : p.Cut h s s := by
  cases p with
  | ret a => exact rfl
  | eff e next => exact .inl rfl

/-- A crash may leave the state a program ends in. -/
theorem cut_end (p : Prog E α) (s : σ) : p.Cut h s (p.run h s).2 := by
  induction p generalizing s with
  | ret a => exact rfl
  | eff e next ih => exact .inr (.inr (ih _ _))

/-- A crash of a sequence is a crash of its first part, or of the second part
started where the first ended. -/
theorem cut_bind (p : Prog E α) (f : α → Prog E β) (s s' : σ) :
    (p >>= f).Cut h s s' ↔ p.Cut h s s' ∨ (f (p.run h s).1).Cut h (p.run h s).2 s' := by
  change (p.bind f).Cut h s s' ↔ _
  induction p generalizing s with
  | ret a =>
    constructor
    · exact .inr
    · rintro (hs | hcut)
      · rw [hs]
        exact cut_start h (f a) s
      · exact hcut
  | eff e next ih =>
    constructor
    · rintro (hs | htorn | hcut)
      · exact .inl (.inl hs)
      · exact .inl (.inr (.inl htorn))
      · rcases (ih _ _).mp hcut with hfirst | hsecond
        · exact .inl (.inr (.inr hfirst))
        · exact .inr hsecond
    · rintro ((hs | htorn | hfirst) | hsecond)
      · exact .inl hs
      · exact .inr (.inl htorn)
      · exact .inr (.inr ((ih _ _).mpr (.inl hfirst)))
      · exact .inr (.inr ((ih _ _).mpr (.inr hsecond)))

/-- The state after the first `n` effects. -/
def after : Nat → Prog E α → σ → σ
  | 0, _, s => s
  | _ + 1, ret _, s => s
  | n + 1, eff e next, s => after n (next (h.apply e s).1) (h.apply e s).2

/-- A crash may come after any number of effects. -/
theorem cut_after (n : Nat) (p : Prog E α) (s : σ) : p.Cut h s (p.after h n s) := by
  induction n generalizing p s with
  | zero => exact cut_start h p s
  | succ n ih =>
    cases p with
    | ret a => exact rfl
    | eff e next => exact .inr (.inr (ih _ _))

/-- Every effect the program can perform satisfies `ok`. -/
def Uses (ok : (β : Type) → E β → Prop) : Prog E α → Prop
  | ret _ => True
  | eff (β := β) e next => ok β e ∧ ∀ b, (next b).Uses ok

variable {ok ok' : (β : Type) → E β → Prop}

theorem uses_pure (a : α) : (pure a : Prog E α).Uses ok := trivial

theorem uses_perform {e : E α} (he : ok α e) : (perform e).Uses ok := ⟨he, fun _ => trivial⟩

theorem uses_any (p : Prog E α) : p.Uses (fun _ _ => True) := by
  induction p with
  | ret a => trivial
  | eff e next ih => exact ⟨trivial, ih⟩

theorem Uses.bind {p : Prog E α} {f : α → Prog E β} (hp : p.Uses ok) (hf : ∀ a, (f a).Uses ok) :
    (p >>= f).Uses ok := by
  change (p.bind f).Uses ok
  induction p with
  | ret a => exact hf a
  | eff e next ih => exact ⟨hp.1, fun b => ih b (hp.2 b)⟩

theorem Uses.weaken {p : Prog E α} (hp : p.Uses ok) (himp : ∀ β e, ok β e → ok' β e) :
    p.Uses ok' := by
  induction p with
  | ret a => trivial
  | eff e next ih => exact ⟨himp _ _ hp.1, fun b => ih b (hp.2 b)⟩

/-- What every effect of a program preserves, complete or torn, every crash of
the program preserves. -/
theorem Uses.cut_invariant {h : Handler E σ} {p : Prog E α} {I : σ → Prop} {s s' : σ}
    (hp : p.Uses ok)
    (happly : ∀ β (e : E β) t, ok β e → I t → I (h.apply e t).2)
    (htorn : ∀ β (e : E β) t t', ok β e → I t → h.torn e t t' → I t')
    (hs : I s) (hcut : p.Cut h s s') : I s' := by
  induction p generalizing s with
  | ret a =>
    rw [hcut]
    exact hs
  | eff e next ih =>
    rcases hcut with rfl | ht | hrest
    · exact hs
    · exact htorn _ e s s' hp.1 hs ht
    · exact ih _ (hp.2 _) (happly _ e s hp.1 hs) hrest

theorem Uses.run_invariant {h : Handler E σ} {p : Prog E α} {I : σ → Prop} {s : σ} (hp : p.Uses ok)
    (happly : ∀ β (e : E β) t, ok β e → I t → I (h.apply e t).2)
    (hs : I s) : I (p.run h s).2 := by
  induction p generalizing s with
  | ret a => exact hs
  | eff e next ih => exact ih _ (hp.2 _) (happly _ e s hp.1 hs)

/-- A program whose effects have the same answer in every state returns the same
from every state. -/
theorem Uses.run_result {h : Handler E σ} {p : Prog E α} (hp : p.Uses ok)
    (hsame : ∀ β (e : E β) t t', ok β e → (h.apply e t).1 = (h.apply e t').1) (s s' : σ) :
    (p.run h s).1 = (p.run h s').1 := by
  induction p generalizing s s' with
  | ret a => rfl
  | eff e next ih =>
    change ((next (h.apply e s).1).run h _).1 = ((next (h.apply e s').1).run h _).1
    rw [hsame _ e s s' hp.1]
    exact ih _ (hp.2 _) _ _

/-- Handlers that answer every effect alike in related states, and stay related, run a
program alike. -/
theorem run_simulates {τ : Type} {h : Handler E σ} {k : Handler E τ} {R : σ → τ → Prop}
    (happly : ∀ β (e : E β) s t, R s t →
      (h.apply e s).1 = (k.apply e t).1 ∧ R (h.apply e s).2 (k.apply e t).2)
    (p : Prog E α) {s : σ} {t : τ} (hst : R s t) :
    (p.run h s).1 = (p.run k t).1 ∧ R (p.run h s).2 (p.run k t).2 := by
  induction p generalizing s t with
  | ret a => exact ⟨rfl, hst⟩
  | eff e next ih =>
    obtain ⟨hanswer, hnext⟩ := happly _ e s t hst
    change ((next (h.apply e s).1).run h _).1 = ((next (k.apply e t).1).run k _).1 ∧
      R ((next (h.apply e s).1).run h _).2 ((next (k.apply e t).1).run k _).2
    rw [hanswer]
    exact ih _ hnext

/-- Every value the program can return satisfies `Q`. -/
def Returns (Q : α → Prop) : Prog E α → Prop
  | ret a => Q a
  | eff _ next => ∀ b, (next b).Returns Q

theorem returns_pure {Q : α → Prop} {a : α} (h : Q a) : (pure a : Prog E α).Returns Q := h

theorem returns_any (p : Prog E α) : p.Returns (fun _ => True) := by
  induction p with
  | ret a => trivial
  | eff e next ih => exact ih

theorem Returns.bind {p : Prog E α} {f : α → Prog E β} {Q : α → Prop} {R : β → Prop}
    (hp : p.Returns Q) (hf : ∀ a, Q a → (f a).Returns R) : (p >>= f).Returns R := by
  change (p.bind f).Returns R
  induction p with
  | ret a => exact hf a hp
  | eff e next ih => exact fun b => ih b (hp b)

theorem returns_bind {p : Prog E α} {f : α → Prog E β} {R : β → Prop}
    (hf : ∀ a, (f a).Returns R) : (p >>= f).Returns R :=
  (returns_any p).bind (fun a _ => hf a)

theorem Returns.run {p : Prog E α} {Q : α → Prop} {h : Handler E σ} {s s' : σ} {a : α}
    (hp : p.Returns Q) (hrun : p.run h s = (a, s')) : Q a := by
  induction p generalizing s with
  | ret b =>
    cases hrun
    exact hp
  | eff e next ih => exact ih _ (hp _) hrun

/-- An effect that was performed, and its result. -/
structure Performed (E : Type → Type 1) : Type 1 where
  type : Type
  effect : E type
  result : type

/-- The effects of a run, in order. -/
def trace : Prog E α → σ → List (Performed E)
  | ret _, _ => []
  | eff e next, s => ⟨_, e, (h.apply e s).1⟩ :: (next (h.apply e s).1).trace (h.apply e s).2

@[simp] theorem trace_pure (a : α) (s : σ) : (pure a : Prog E α).trace h s = [] := rfl

@[simp] theorem trace_perform (e : E α) (s : σ) :
    (perform e).trace h s = [⟨α, e, (h.apply e s).1⟩] := rfl

@[simp] theorem trace_bind (p : Prog E α) (f : α → Prog E β) (s : σ) :
    (p >>= f).trace h s = p.trace h s ++ (f (p.run h s).1).trace h (p.run h s).2 := by
  change (p.bind f).trace h s = _
  induction p generalizing s with
  | ret a => rfl
  | eff e next ih => exact congrArg (List.cons _) (ih _ _)

/-- A run performs only effects the program may perform. -/
theorem Uses.trace {p : Prog E α} (hp : p.Uses ok) (s : σ) :
    ∀ x ∈ p.trace h s, ok x.type x.effect := by
  induction p generalizing s with
  | ret a => simp [Prog.trace]
  | eff e next ih =>
    intro x hx
    rcases List.mem_cons.mp hx with rfl | hrest
    · exact hp.1
    · exact ih _ (hp.2 _) _ x hrest

variable {h} {p : Prog E α} {s : σ} {Q : α → σ → Prop}

variable (h) in
/-- From `s`, the end satisfies `post`. -/
def Ensures (p : Prog E α) (s : σ) (post : α → σ → Prop) : Prop :=
  post (p.run h s).1 (p.run h s).2

theorem ensures_pure {a : α} (hq : Q a s) : Ensures h (pure a) s Q := hq

theorem ensures_perform {e : E α} (hq : Q (h.apply e s).1 (h.apply e s).2) :
    Ensures h (perform e) s Q := hq

theorem Ensures.bind {f : α → Prog E β} {R : β → σ → Prop} (hp : Ensures h p s Q)
    (hf : ∀ a t, Q a t → Ensures h (f a) t R) : Ensures h (p >>= f) s R := by
  unfold Ensures
  rw [run_bind]
  exact hf _ _ hp

end Prog

namespace Fallible

variable {E : Type → Type 1} {ε α β σ : Type} (h : Handler E σ)

/-- Run a program that may fail. -/
def exec (x : ExceptT ε (Prog E) α) (s : σ) : Except ε α × σ := Prog.run h x.run s

/-- The states a crash of a program that may fail may leave. -/
def Cut (x : ExceptT ε (Prog E) α) (s s' : σ) : Prop := Prog.Cut h x.run s s'

/-- The result of a program that may fail, as a value (`match result { .. }`). -/
def attempt (x : ExceptT ε (Prog E) α) : ExceptT ε (Prog E) (Except ε α) :=
  ExceptT.lift x.run

/-- One effect, which does not fail. -/
def perform (e : E α) : ExceptT ε (Prog E) α := ExceptT.lift (Prog.perform e)

@[simp] theorem exec_pure (a : α) (s : σ) :
    exec h (pure a : ExceptT ε (Prog E) α) s = (.ok a, s) := rfl

theorem exec_bind (x : ExceptT ε (Prog E) α) (f : α → ExceptT ε (Prog E) β) (s : σ) :
    exec h (x >>= f) s = match exec h x s with
      | (.ok a, t) => exec h (f a) t
      | (.error e, t) => (.error e, t) := by
  unfold exec
  rw [ExceptT.run_bind, Prog.run_bind]
  rcases Prog.run h x.run s with ⟨r, t⟩
  cases r <;> rfl

variable {x : ExceptT ε (Prog E) α} {f : α → ExceptT ε (Prog E) β}

/-- A sequence whose first part succeeds goes on from there. -/
theorem exec_bind_ok {s t : σ} {a : α}
    (hx : exec h x s = (.ok a, t)) : exec h (x >>= f) s = exec h (f a) t := by
  rw [exec_bind, hx]

theorem exec_bind_error {s t : σ} {e : ε}
    (hx : exec h x s = (.error e, t)) : exec h (x >>= f) s = (.error e, t) := by
  rw [exec_bind, hx]

/-- How a sequence can have succeeded. -/
theorem exec_bind_eq_ok {s u : σ} {b : β} (hx : exec h (x >>= f) s = (.ok b, u)) :
    ∃ a t, exec h x s = (.ok a, t) ∧ exec h (f a) t = (.ok b, u) := by
  rw [exec_bind] at hx
  rcases hr : exec h x s with ⟨r | a, t⟩
  · rw [hr] at hx
    cases hx
  · rw [hr] at hx
    exact ⟨a, t, rfl, hx⟩

/-- A sequence ended in its first part or in the second. -/
theorem exec_bind_cases {s u : σ}
    {r : Except ε β} (hx : exec h (x >>= f) s = (r, u)) :
    (∃ e, r = .error e ∧ exec h x s = (.error e, u)) ∨
      ∃ a t, exec h x s = (.ok a, t) ∧ exec h (f a) t = (r, u) := by
  rw [exec_bind] at hx
  rcases hr : exec h x s with ⟨e | a, t⟩
  · rw [hr] at hx
    cases hx
    exact .inl ⟨e, rfl, rfl⟩
  · rw [hr] at hx
    exact .inr ⟨a, t, rfl, hx⟩

/-- How a sequence can have failed. -/
theorem exec_bind_eq_error {s u : σ}
    {e : ε} (hx : exec h (x >>= f) s = (.error e, u)) :
    exec h x s = (.error e, u) ∨ ∃ a t, exec h x s = (.ok a, t) ∧ exec h (f a) t = (.error e, u) := by
  rw [exec_bind] at hx
  rcases hr : exec h x s with ⟨r | a, t⟩
  · rw [hr] at hx
    cases hx
    exact .inl rfl
  · rw [hr] at hx
    exact .inr ⟨a, t, rfl, hx⟩

@[simp] theorem exec_lift (p : Prog E α) (s : σ) :
    exec h (ExceptT.lift p : ExceptT ε (Prog E) α) s = (.ok (p.run h s).1, (p.run h s).2) := by
  change Prog.run h (p >>= fun a => pure (Except.ok a)) s = _
  rw [Prog.run_bind]
  rfl

@[simp] theorem exec_attempt (x : ExceptT ε (Prog E) α) (s : σ) :
    exec h (attempt x) s = (.ok (exec h x s).1, (exec h x s).2) :=
  exec_lift h x.run s

/-- Going on after a program that cannot fail. -/
theorem exec_lift_bind {p : Prog E α} {s u : σ} {r : Except ε β}
    (hx : exec h (ExceptT.lift p >>= f) s = (r, u)) :
    ∃ a t, p.run h s = (a, t) ∧ exec h (f a) t = (r, u) := by
  rw [exec_bind, exec_lift] at hx
  exact ⟨_, _, rfl, hx⟩

@[simp] theorem exec_perform (e : E α) (s : σ) :
    exec h (perform e : ExceptT ε (Prog E) α) s = (.ok (h.apply e s).1, (h.apply e s).2) := rfl

theorem cut_pure (a : α) (s s' : σ) : Cut h (pure a : ExceptT ε (Prog E) α) s s' ↔ s' = s := Iff.rfl

theorem cut_throw (e : ε) (s s' : σ) :
    Cut h (throw e : ExceptT ε (Prog E) α) s s' ↔ s' = s := Iff.rfl

theorem cut_perform (e : E α) (s s' : σ) :
    Cut h (perform e : ExceptT ε (Prog E) α) s s' ↔
      s' = s ∨ h.torn e s s' ∨ s' = (h.apply e s).2 := Iff.rfl

theorem cut_end {s t : σ} {r : Except ε α} (hx : exec h x s = (r, t)) :
    Cut h x s t := by
  have hend := Prog.cut_end h x.run s
  rw [show Prog.run h x.run s = (r, t) from hx] at hend
  exact hend

/-- A crash of a sequence is a crash of its first part or, when that succeeds, of
the second. -/
theorem cut_bind (x : ExceptT ε (Prog E) α) (f : α → ExceptT ε (Prog E) β) (s s' : σ) :
    Cut h (x >>= f) s s' ↔
      Cut h x s s' ∨ ∃ a t, exec h x s = (.ok a, t) ∧ Cut h (f a) t s' := by
  unfold Cut exec
  rw [ExceptT.run_bind, Prog.cut_bind]
  have hend := Prog.cut_end h x.run s
  rcases hr : Prog.run h x.run s with ⟨r | a, t⟩
  · rw [hr] at hend
    constructor
    · rintro (hcut | hlast)
      · exact .inl hcut
      · obtain rfl : s' = t := hlast
        exact .inl hend
    · rintro (hcut | ⟨a, u, hu, _⟩)
      · exact .inl hcut
      · cases hu
  · constructor
    · rintro (hcut | hlast)
      · exact .inl hcut
      · exact .inr ⟨a, t, rfl, hlast⟩
    · rintro (hcut | ⟨b, u, hu, hlast⟩)
      · exact .inl hcut
      · cases hu
        exact .inr hlast

/-- A crash of a program that cannot fail. -/
theorem cut_lift (p : Prog E α) (s s' : σ) :
    Cut h (ExceptT.lift p : ExceptT ε (Prog E) α) s s' ↔ p.Cut h s s' := by
  change (p >>= fun a => pure (Except.ok a)).Cut h s s' ↔ _
  rw [Prog.cut_bind]
  constructor
  · rintro (hcut | hend)
    · exact hcut
    · rw [(Prog.cut_pure h _ _ _).mp hend]
      exact Prog.cut_end h p s
  · exact .inl

theorem cut_attempt (x : ExceptT ε (Prog E) α) (s s' : σ) : Cut h (attempt x) s s' ↔ Cut h x s s' :=
  cut_lift h x.run s s'

/-- The effects of a run of a program that may fail. -/
def trace (x : ExceptT ε (Prog E) α) (s : σ) : List (Prog.Performed E) := Prog.trace h x.run s

/-- A sequence whose first part succeeds performs the effects of both. -/
theorem trace_bind_ok {s t : σ} {a : α}
    (hx : exec h x s = (.ok a, t)) : trace h (x >>= f) s = trace h x s ++ trace h (f a) t := by
  unfold trace
  rw [ExceptT.run_bind, Prog.trace_bind, show Prog.run h x.run s = (.ok a, t) from hx]

theorem trace_bind_error {s t : σ} {e : ε}
    (hx : exec h x s = (.error e, t)) : trace h (x >>= f) s = trace h x s := by
  unfold trace
  rw [ExceptT.run_bind, Prog.trace_bind, show Prog.run h x.run s = (.error e, t) from hx]
  exact List.append_nil _

theorem trace_lift (p : Prog E α) (s : σ) :
    trace h (ExceptT.lift p : ExceptT ε (Prog E) α) s = p.trace h s := by
  change Prog.trace h (p >>= fun a => pure (Except.ok a)) s = _
  rw [Prog.trace_bind, Prog.trace_pure, List.append_nil]

/-- The effects of the first part of a sequence are effects of the sequence. -/
theorem mem_trace_bind {s : σ}
    {y : Prog.Performed E} (hy : y ∈ trace h x s) : y ∈ trace h (x >>= f) s := by
  rcases hx : exec h x s with ⟨e | a, t⟩
  · rw [trace_bind_error h hx]
    exact hy
  · rw [trace_bind_ok h hx]
    exact List.mem_append_left _ hy

/-- Every effect the program can perform satisfies `ok`. -/
def Uses (ok : (β : Type) → E β → Prop) (x : ExceptT ε (Prog E) α) : Prop := Prog.Uses ok x.run

section Uses

variable {ok : (β : Type) → E β → Prop}

theorem uses_pure (a : α) : Uses ok (pure a : ExceptT ε (Prog E) α) := trivial

theorem uses_throw (e : ε) : Uses ok (throw e : ExceptT ε (Prog E) α) := trivial

theorem uses_perform {e : E α} (he : ok α e) : Uses ok (perform e : ExceptT ε (Prog E) α) :=
  ⟨he, fun _ => trivial⟩

theorem uses_bind (hx : Uses ok x) (hf : ∀ a, Uses ok (f a)) : Uses ok (x >>= f) := by
  unfold Uses
  rw [ExceptT.run_bind]
  refine Prog.Uses.bind hx (fun r => ?_)
  cases r with
  | ok a => exact hf a
  | error e => trivial

theorem uses_attempt (hx : Uses ok x) : Uses ok (attempt x) :=
  Prog.Uses.bind hx (fun _ => trivial)

end Uses

/-- A result whose value satisfies `Q` or whose error satisfies `R`. -/
def EndsIn (Q : α → Prop) (R : ε → Prop) : Except ε α → Prop
  | .ok a => Q a
  | .error e => R e

/-- Every value the program can return satisfies `Q`, every error `R`. -/
def Ends (Q : α → Prop) (R : ε → Prop) (x : ExceptT ε (Prog E) α) : Prop :=
  Prog.Returns (EndsIn Q R) x.run

variable {Q : α → Prop} {R : ε → Prop}

theorem ends_pure {a : α} (ha : Q a) : Ends Q R (pure a : ExceptT ε (Prog E) α) := ha

theorem ends_throw {e : ε} (he : R e) : Ends Q R (throw e : ExceptT ε (Prog E) α) := he

theorem Ends.bind {S : β → Prop}
    (hx : Ends Q R x) (hf : ∀ a, Q a → Ends S R (f a)) : Ends S R (x >>= f) := by
  unfold Ends
  rw [ExceptT.run_bind]
  refine Prog.Returns.bind hx (fun r hr => ?_)
  cases r with
  | ok a => exact hf a hr
  | error e => exact hr

theorem ends_perform (e : E α) : Ends (fun _ => True) R (perform e : ExceptT ε (Prog E) α) :=
  fun _ => trivial

/-- The result of an attempt satisfies what the program ends with. -/
theorem Ends.attempt (hx : Ends Q R x) :
    Ends (EndsIn Q R) R (attempt x) := by
  refine Prog.Returns.bind hx (fun r hr => ?_)
  exact hr

theorem Ends.exec {s s' : σ} {r : Except ε α} (hx : Ends Q R x)
    (hrun : exec h x s = (r, s')) : EndsIn Q R r :=
  Prog.Returns.run hx hrun

end Fallible

end Detent.Lib
