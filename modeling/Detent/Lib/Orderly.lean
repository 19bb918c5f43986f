import Detent.Lib.Prog

/-!
# Orderly programs

A trace is disciplined when each of its effects is justified by those before it.
`Prog.Orderly` says so of a program whatever its effects answer, by its structure, with
what holds of its value and of everything it performed; then every trace of it is
disciplined.
-/
namespace Detent.Lib

variable {E : Type → Type 1} {α β σ : Type}

/-- Every effect of a trace is justified by those before it, `past` included. -/
def Disciplined (J : List (Prog.Performed E) → Prog.Performed E → Prop) :
    List (Prog.Performed E) → List (Prog.Performed E) → Prop
  | _, [] => True
  | past, e :: rest => J past e ∧ Disciplined J (past ++ [e]) rest

namespace Prog

variable {h : Handler E σ}

theorem run_ask {e : E β} {f : β → Prog E α} {s t : σ} {b : β} (happly : h.apply e s = (b, t)) :
    (perform e >>= f).run h s = (f b).run h t := by
  rw [run_bind, run_perform, happly]

section Orderly

variable {J : List (Performed E) → Performed E → Prop} {Q : List (Performed E) → α → Prop}
  {past : List (Performed E)}

/-- Whatever is answered, each effect is justified by those before it, and the value with
the whole history satisfies `Q`. -/
def Orderly (J : List (Performed E) → Performed E → Prop) (Q : List (Performed E) → α → Prop) :
    Prog E α → List (Performed E) → Prop
  | ret a, past => Q past a
  | eff (β := β) e next, past => ∀ b, J past ⟨β, e, b⟩ ∧ (next b).Orderly J Q (past ++ [⟨β, e, b⟩])

theorem orderly_pure {a : α} (h : Q past a) : (pure a : Prog E α).Orderly J Q past := h

/-- A question, and what follows each answer. -/
theorem orderly_ask {e : E β} {f : β → Prog E α}
    (h : ∀ b, J past ⟨β, e, b⟩ ∧ (f b).Orderly J Q (past ++ [⟨β, e, b⟩])) :
    (perform e >>= f).Orderly J Q past := h

theorem Orderly.bind {p : Prog E α} {f : α → Prog E β} {R : List (Performed E) → β → Prop}
    (hp : p.Orderly J Q past) (hf : ∀ later a, Q later a → (f a).Orderly J R later) :
    (p >>= f).Orderly J R past := by
  change (p.bind f).Orderly J R past
  induction p generalizing past with
  | ret a => exact hf past a hp
  | eff e next ih => exact fun b => ⟨(hp b).1, ih b (hp b).2⟩

theorem Orderly.weaken {p : Prog E α} {R : List (Performed E) → α → Prop}
    (hp : p.Orderly J Q past) (h : ∀ later a, Q later a → R later a) : p.Orderly J R past := by
  induction p generalizing past with
  | ret a => exact h past a hp
  | eff e next ih => exact fun b => ⟨(hp b).1, ih b (hp b).2⟩

/-- The history grows. -/
theorem Orderly.extends {p : Prog E α} (hp : p.Orderly J Q past) :
    p.Orderly J (fun later a => (∀ e ∈ past, e ∈ later) ∧ Q later a) past := by
  induction p generalizing past with
  | ret a => exact ⟨fun _ he => he, hp⟩
  | eff e next ih =>
    refine fun b => ⟨(hp b).1, (ih b (hp b).2).weaken (fun later a hlater => ⟨?_, hlater.2⟩)⟩
    exact fun x hx => hlater.1 x (List.mem_append_left _ hx)

/-- Every run of an orderly program is disciplined. -/
theorem Orderly.trace {p : Prog E α} (hp : p.Orderly J Q past) (s : σ) :
    Disciplined J past (p.trace h s) ∧ Q (past ++ p.trace h s) (p.run h s).1 := by
  induction p generalizing past s with
  | ret a =>
    refine ⟨trivial, ?_⟩
    rw [show (ret a : Prog E α).trace h s = [] from rfl, List.append_nil]
    exact hp
  | eff e next ih =>
    obtain ⟨hjust, hnext⟩ := hp (h.apply e s).1
    obtain ⟨hrest, hend⟩ := ih _ hnext (h.apply e s).2
    refine ⟨⟨hjust, hrest⟩, ?_⟩
    rw [List.append_assoc, List.singleton_append] at hend
    exact hend

end Orderly

end Prog

end Detent.Lib
