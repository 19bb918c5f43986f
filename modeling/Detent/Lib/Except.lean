import Mathlib.Tactic.Common

/-!
# Results

What an `Except` computation that succeeded went through.
-/
namespace Detent.Lib

variable {ε α β : Type}

/-- A successful sequence had a successful first part. -/
theorem ok_of_bind {x : Except ε α} {f : α → Except ε β} {b : β} (h : (x >>= f) = .ok b) :
    ∃ a, x = .ok a ∧ f a = .ok b := by
  cases x with
  | error e => cases h
  | ok a => exact ⟨a, rfl, h⟩

/-- A sequence failed in its first part or in the second. -/
theorem error_of_bind {x : Except ε α} {f : α → Except ε β} {e : ε} (h : (x >>= f) = .error e) :
    x = .error e ∨ ∃ a, x = .ok a ∧ f a = .error e := by
  cases x with
  | error e' =>
    cases h
    exact .inl rfl
  | ok a => exact .inr ⟨a, rfl, h⟩

theorem eq_ok_of_toOption {x : Except ε α} {a : α} (h : x.toOption = some a) : x = .ok a := by
  cases x with
  | error e => cases h
  | ok b => exact congrArg Except.ok (Option.some.inj h)

/-- A loop of checks passes when each of them does. -/
theorem forM_ok {f : α → Except ε Unit} {items : List α} {u : Unit}
    (h : items.forM f = .ok u) : ∀ a ∈ items, f a = .ok () := by
  induction items with
  | nil => simp
  | cons first rest ih =>
    obtain ⟨_, hfirst, hrest⟩ := ok_of_bind (show (f first >>= fun _ => rest.forM f) = .ok u from h)
    intro a ha
    rcases List.mem_cons.mp ha with rfl | ha
    · exact hfirst
    · exact ih hrest a ha

/-- Each result of a loop comes of one of its items. -/
theorem mapM_ok {f : α → Except ε β} {items : List α} {results : List β}
    (h : items.mapM f = .ok results) : ∀ b ∈ results, ∃ a ∈ items, f a = .ok b := by
  induction items generalizing results with
  | nil =>
    rw [List.mapM_nil] at h
    obtain rfl := Except.ok.inj h
    simp
  | cons first rest ih =>
    rw [List.mapM_cons] at h
    obtain ⟨b, hfirst, hrest⟩ := ok_of_bind h
    obtain ⟨others, hothers, hresults⟩ := ok_of_bind hrest
    obtain rfl := Except.ok.inj hresults
    intro b' hmem
    rcases List.mem_cons.mp hmem with rfl | hmem
    · exact ⟨first, by simp, hfirst⟩
    · obtain ⟨a, ha, hb⟩ := ih hothers b' hmem
      exact ⟨a, List.mem_cons_of_mem _ ha, hb⟩

end Detent.Lib
