import Detent.Lib.Machine
import Detent.Lib.Prog

/-!
# Pools of programs over one state

Any number of requests run over a shared state, their effects in any order. A discipline
says what is true of the state at all times, what a thread may rely on between its own
effects and which effects are permitted. A program that keeps the discipline one effect
after the other keeps it among all the others, and what it may say about its result holds
when it has returned.
-/
namespace Detent.Lib

variable {E : Type → Type 1} {σ ρ α β ω : Type}

/-- A request and what is left of the program that answers it. -/
structure Thread (E : Type → Type 1) (ρ α : Type) : Type 1 where
  request : ρ
  rest : Prog E α

/-- Threads by their number, over a shared state. -/
structure Pool (E : Type → Type 1) (σ ρ α : Type) : Type 1 where
  shared : σ
  threads : List (Thread E ρ α)

/-- What a pool runs: the program of a request, what an effect of a thread does, and what
happens outside of the pool. -/
structure Service (E : Type → Type 1) (σ ρ α ω : Type) : Type 1 where
  program : ρ → Prog E α
  perform : Nat → {β : Type} → E β → σ → β × σ
  outside : ω → σ → σ

/-- One step of a pool. -/
inductive Move (ρ ω : Type) where
  | begin (request : ρ)
  | turn (i : Nat)
  | outside (w : ω)
  deriving DecidableEq

def Service.step (v : Service E σ ρ α ω) (p : Pool E σ ρ α) : Move ρ ω → Option (Pool E σ ρ α)
  | .begin request => some { p with threads := p.threads ++ [⟨request, v.program request⟩] }
  | .turn i =>
    match p.threads[i]? with
    | some ⟨request, .eff e next⟩ =>
      let done := v.perform i e p.shared
      some { shared := done.2, threads := p.threads.set i ⟨request, next done.1⟩ }
    | _ => none
  | .outside w => some { p with shared := v.outside w p.shared }

/-- `idle` holds of a thread that has not begun. -/
structure Discipline (E : Type → Type 1) (σ ρ ω : Type) : Type 1 where
  inv : σ → Prop
  idle : Nat → σ → Prop
  rely : Nat → σ → σ → Prop
  may : Nat → {β : Type} → E β → σ → Prop
  mayBegin : ρ → σ → Prop
  mayOutside : ω → σ → Prop

/-- The moves a discipline permits. -/
def Discipline.Permits (d : Discipline E σ ρ ω) (p : Pool E σ ρ α) : Move ρ ω → Prop
  | .begin request => d.mayBegin request p.shared
  | .turn i =>
    match p.threads[i]? with
    | some ⟨_, .eff e _⟩ => d.may i e p.shared
    | _ => True
  | .outside w => d.mayOutside w p.shared

variable (v : Service E σ ρ α ω) (d : Discipline E σ ρ ω)

/-- What an effect of thread `i` owes to the others. -/
def Keeps (i : Nat) (s s' : σ) : Prop := d.inv s' ∧ ∀ j, j ≠ i → d.rely j s s'

/-- From `s` on, thread `i` keeps the discipline whatever the others do between its
effects, and returns with `K`. -/
def Holds (i : Nat) (K : β → σ → Prop) : Prog E β → σ → Prop
  | .ret a, s => K a s
  | .eff e next, s => ∀ t, d.inv t → d.rely i s t → d.may i e t →
      Keeps d i t (v.perform i e t).2 ∧
        Holds i K (next (v.perform i e t).1) (v.perform i e t).2

variable {v d} {i : Nat} {γ : Type}

theorem Holds.weaken {K K' : β → σ → Prop} {p : Prog E β} {s : σ} (h : Holds v d i K p s)
    (himp : ∀ a t, K a t → K' a t) : Holds v d i K' p s := by
  induction p generalizing s with
  | ret a => exact himp a s h
  | eff e next ih =>
    intro t hinv hrely hmay
    obtain ⟨hkeeps, hrest⟩ := h t hinv hrely hmay
    exact ⟨hkeeps, ih _ hrest⟩

/-- A sequence keeps the discipline when its second part does from wherever the first
ends. -/
theorem Holds.bind {K : γ → σ → Prop} {p : Prog E β} {f : β → Prog E γ} {s : σ}
    (h : Holds v d i (fun a t => Holds v d i K (f a) t) p s) : Holds v d i K (p >>= f) s := by
  change Holds v d i K (p.bind f) s
  induction p generalizing s with
  | ret a => exact h
  | eff e next ih =>
    intro t hinv hrely hmay
    obtain ⟨hkeeps, hrest⟩ := h t hinv hrely hmay
    exact ⟨hkeeps, ih _ hrest⟩

variable {ε δ : Type}

/-- An effect whose failure ends the program. -/
theorem Holds.attempt {K : Except ε δ → σ → Prop} {e : E (Except ε β)}
    {f : β → ExceptT ε (Prog E) δ} {s : σ}
    (h : ∀ t, d.inv t → d.rely i s t → d.may i e t →
      Keeps d i t (v.perform i e t).2 ∧
        (∀ a, (v.perform i e t).1 = .ok a → Holds v d i K (f a).run (v.perform i e t).2) ∧
        ∀ err, (v.perform i e t).1 = .error err → K (.error err) (v.perform i e t).2) :
    Holds v d i K (ExceptT.mk (Prog.perform e) >>= f).run s := by
  intro t hinv hrely hmay
  obtain ⟨hkeeps, hok, herror⟩ := h t hinv hrely hmay
  refine ⟨hkeeps, ?_⟩
  cases hresult : (v.perform i e t).1 with
  | ok a => exact hok a hresult
  | error err => exact herror err hresult

/-- A result that was computed without an effect. -/
theorem Holds.result {K : Except ε δ → σ → Prop} {r : Except ε β} {f : β → ExceptT ε (Prog E) δ}
    {s : σ} (hok : ∀ a, r = .ok a → Holds v d i K (f a).run s)
    (herror : ∀ err, r = .error err → K (.error err) s) :
    Holds v d i K (ExceptT.mk (pure r) >>= f).run s := by
  cases r with
  | ok a => exact hok a rfl
  | error err => exact herror err rfl

/-- An effect that cannot fail. -/
theorem Holds.perform {K : Except ε δ → σ → Prop} {e : E β} {f : β → ExceptT ε (Prog E) δ} {s : σ}
    (h : ∀ t, d.inv t → d.rely i s t → d.may i e t →
      Keeps d i t (v.perform i e t).2 ∧
        Holds v d i K (f (v.perform i e t).1).run (v.perform i e t).2) :
    Holds v d i K (Fallible.perform e >>= f).run s := h

/-- A sequence of programs that may fail. -/
theorem Holds.seq {K : Except ε δ → σ → Prop} {x : ExceptT ε (Prog E) β}
    {f : β → ExceptT ε (Prog E) δ} {s : σ}
    (h : Holds v d i (fun r t => match r with
      | .ok a => Holds v d i K (f a).run t
      | .error err => K (.error err) t) x.run s) : Holds v d i K (x >>= f).run s := by
  rw [ExceptT.run_bind]
  refine Holds.bind (h.weaken ?_)
  intro r t hr
  cases r with
  | ok | error => exact hr

/-- A program that performs only effects that keep the discipline. -/
theorem Holds.of_uses {ok : (β : Type) → E β → Prop} {p : Prog E β} {s : σ} (hp : p.Uses ok)
    (hok : ∀ γ (e : E γ) t, ok γ e → d.inv t → d.may i e t → Keeps d i t (v.perform i e t).2) :
    Holds v d i (fun _ _ => True) p s := by
  induction p generalizing s with
  | ret a => trivial
  | eff e next ih =>
    intro t hinv _ hmay
    exact ⟨hok _ e t hp.1 hinv hmay, ih _ (hp.2 _)⟩

/-- The programs of a service keep a discipline, and so does what happens outside. -/
structure Kept (v : Service E σ ρ α ω) (d : Discipline E σ ρ ω)
    (K : Nat → ρ → α → σ → Prop) : Prop where
  refl : ∀ i s, d.rely i s s
  trans : ∀ i s t u, d.rely i s t → d.rely i t u → d.rely i s u
  idle : ∀ i s t, d.idle i s → d.rely i s t → d.idle i t
  program : ∀ i request s, d.inv s → d.idle i s → d.mayBegin request s →
    Holds v d i (K i request) (v.program request) s
  outside : ∀ w s, d.inv s → d.mayOutside w s →
    d.inv (v.outside w s) ∧ ∀ i, d.rely i s (v.outside w s)

/-- Every thread keeps the discipline from some earlier state on. -/
structure Orderly (v : Service E σ ρ α ω) (d : Discipline E σ ρ ω)
    (K : Nat → ρ → α → σ → Prop) (p : Pool E σ ρ α) : Prop where
  inv : d.inv p.shared
  threads : ∀ i thread, p.threads[i]? = some thread →
    ∃ s, d.rely i s p.shared ∧ Holds v d i (K i thread.request) thread.rest s
  others : ∀ i, p.threads.length ≤ i → d.idle i p.shared

variable {K : Nat → ρ → α → σ → Prop} {p p' : Pool E σ ρ α}

theorem Orderly.step (h : Orderly v d K p) (hkept : Kept v d K) {move : Move ρ ω}
    (hmay : d.Permits p move) (hstep : v.step p move = some p') : Orderly v d K p' := by
  cases move with
  | begin request =>
    cases hstep
    refine ⟨h.inv, ?_, ?_⟩
    · intro i thread hthread
      simp only at hthread ⊢
      by_cases hlt : i < p.threads.length
      · rw [List.getElem?_append_left hlt] at hthread
        exact h.threads i thread hthread
      · have hlen : i = p.threads.length := by
          have hlast := (List.getElem?_eq_some_iff.mp hthread).1
          simp only [List.length_append, List.length_cons, List.length_nil] at hlast
          omega
        subst hlen
        simp only [List.getElem?_concat_length, Option.some.injEq] at hthread
        subst hthread
        exact ⟨p.shared, hkept.refl _ _,
          hkept.program _ _ _ h.inv (h.others _ (Nat.le_refl _)) hmay⟩
    · intro i hi
      simp only [List.length_append, List.length_cons, List.length_nil] at hi
      exact h.others i (by omega)
  | turn i =>
    simp only [Service.step] at hstep
    split at hstep
    · rename_i request β e next hthread
      cases hstep
      obtain ⟨s, hrely, hholds⟩ := h.threads i _ hthread
      have hpermit : d.may i e p.shared := by
        simpa only [Discipline.Permits, hthread] using hmay
      obtain ⟨⟨hinv, hothers⟩, hrest⟩ := hholds p.shared h.inv hrely hpermit
      refine ⟨hinv, ?_, ?_⟩
      · intro j thread hget
        simp only at hget ⊢
        by_cases hj : j = i
        · subst hj
          have hlt := (List.getElem?_eq_some_iff.mp hthread).1
          rw [List.getElem?_set_self hlt, Option.some.injEq] at hget
          subst hget
          exact ⟨_, hkept.refl _ _, hrest⟩
        · rw [List.getElem?_set_ne (Ne.symm hj)] at hget
          obtain ⟨t, hrely', hholds'⟩ := h.threads j thread hget
          exact ⟨t, hkept.trans _ _ _ _ hrely' (hothers j hj), hholds'⟩
      · intro j hj
        simp only [List.length_set] at hj
        have hlt := (List.getElem?_eq_some_iff.mp hthread).1
        exact hkept.idle _ _ _ (h.others j hj) (hothers j (by omega))
    · cases hstep
  | outside w =>
    cases hstep
    obtain ⟨hinv, hothers⟩ := hkept.outside w p.shared h.inv hmay
    refine ⟨hinv, ?_, fun i hi => hkept.idle _ _ _ (h.others i hi) (hothers i)⟩
    intro i thread hthread
    obtain ⟨s, hrely, hholds⟩ := h.threads i thread hthread
    exact ⟨s, hkept.trans _ _ _ _ hrely (hothers i), hholds⟩

/-- A run whose moves are permitted keeps every thread orderly. -/
theorem Orderly.run {moves : List (Move ρ ω)} (hkept : Kept v d K) (h : Orderly v d K p)
    (hrun : Run (Guarded d.Permits (Steps v.step)) p moves p') : Orderly v d K p' :=
  hrun.invariant (fun _ _ _ hp hstep => hp.step hkept hstep.1 hstep.2) h

/-- A pool in which no request has begun. -/
theorem Orderly.start {s : σ} (hinv : d.inv s) (hidle : ∀ i, d.idle i s) :
    Orderly v d K ⟨s, []⟩ :=
  ⟨hinv, fun i thread hthread => by simp at hthread, fun i _ => hidle i⟩

/-- What a thread that has returned may say. -/
theorem Orderly.returned (h : Orderly v d K p) {request : ρ} {a : α}
    (hthread : p.threads[i]? = some ⟨request, .ret a⟩) :
    ∃ s, d.rely i s p.shared ∧ K i request a s :=
  h.threads i _ hthread

end Detent.Lib
