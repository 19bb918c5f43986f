import Mathlib.Data.Finset.Card
import Mathlib.Tactic.Common

/-!
# Walks of a partial step

A partial step either ends from a point after finitely many moves or goes on for ever.
Where only finitely many points have a next one, it goes on for ever exactly when it
comes back to a point it has passed.
-/
namespace Detent.Lib

variable {α : Type} (next : α → Option α)

/-- The point after `n` moves, as long as there is one. -/
def walk : Nat → α → Option α
  | 0, a => some a
  | n + 1, a => (next a).bind (walk n)

/-- The walk from `a` comes back to a point on it. -/
def Returns (a : α) : Prop := ∃ m n b, walk next m a = some b ∧ walk next (n + 1) b = some b

variable {next} {a b : α}

theorem walk_add (m n : Nat) (a : α) :
    walk next (m + n) a = (walk next m a).bind (walk next n) := by
  induction m generalizing a with
  | zero => rw [Nat.zero_add, walk, Option.bind_some]
  | succ m ih =>
    rw [Nat.add_right_comm, walk, walk]
    cases next a with
    | none => rfl
    | some b => exact ih b

/-- A walk of more moves passes through the point after fewer. -/
theorem walk_isSome_of_le {m n : Nat} (hle : m ≤ n) (h : (walk next n a).isSome = true) :
    (walk next m a).isSome = true := by
  obtain ⟨more, rfl⟩ := Nat.exists_eq_add_of_le hle
  rw [walk_add] at h
  cases hwalk : walk next m a with
  | none =>
    rw [hwalk] at h
    cases h
  | some b => rfl

theorem Returns.walk_isSome (h : Returns next a) (n : Nat) : (walk next n a).isSome = true := by
  obtain ⟨m, k, b, hreach, hback⟩ := h
  have hround : ∀ rounds, walk next (m + rounds * (k + 1)) a = some b := by
    intro rounds
    induction rounds with
    | zero => rw [Nat.zero_mul, Nat.add_zero, hreach]
    | succ rounds ih => rw [Nat.succ_mul, ← Nat.add_assoc, walk_add, ih, Option.bind_some, hback]
  have hle : n ≤ m + n * (k + 1) := by
    rw [Nat.mul_succ]
    omega
  exact walk_isSome_of_le hle (by rw [hround]; rfl)

/-- A walk with more moves than there are points with a next one has come back. -/
theorem returns_of_walk_isSome (s : Finset α) (hs : ∀ b, (next b).isSome = true → b ∈ s)
    (h : (walk next (s.card + 1) a).isSome = true) : Returns next a := by
  have hpoint : ∀ i ≤ s.card, ∃ b ∈ s, walk next i a = some b := by
    intro i hi
    have hlonger := walk_isSome_of_le (by omega : i + 1 ≤ s.card + 1) h
    rw [walk_add] at hlonger
    cases hwalk : walk next i a with
    | none =>
      rw [hwalk] at hlonger
      cases hlonger
    | some b =>
      rw [hwalk, Option.bind_some] at hlonger
      refine ⟨b, hs b ?_, rfl⟩
      cases hnext : next b with
      | none =>
        rw [walk, hnext] at hlonger
        cases hlonger
      | some c => rfl
  have hrange : ∀ i ∈ Finset.range (s.card + 1), (walk next i a).getD a ∈ s := by
    intro i hi
    obtain ⟨b, hb, hwalk⟩ := hpoint i (by rw [Finset.mem_range] at hi; omega)
    rw [hwalk]
    exact hb
  obtain ⟨i, hi, j, hj, hne, hsame⟩ := Finset.exists_ne_map_eq_of_card_lt_of_maps_to
    (by rw [Finset.card_range]; omega) hrange
  rw [Finset.mem_range] at hi hj
  -- the two moments in order
  wlog hlt : i < j generalizing i j
  · exact this j hj i hi hne.symm hsame.symm (by omega)
  obtain ⟨b, -, hb⟩ := hpoint i (by omega)
  obtain ⟨c, -, hc⟩ := hpoint j (by omega)
  rw [hb, hc, Option.getD_some, Option.getD_some] at hsame
  subst hsame
  obtain ⟨gap, rfl⟩ := Nat.exists_eq_add_of_lt hlt
  refine ⟨i, gap, b, hb, ?_⟩
  rw [Nat.add_assoc, walk_add, hb, Option.bind_some] at hc
  exact hc

end Detent.Lib
