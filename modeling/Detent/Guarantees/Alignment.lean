import Detent.Source.Align

/-!
# The alignment is an edit script

The search keeps, for each diagonal of the edit grid, the furthest old index a
path with `dist` edits reaches. A path may run off the grid on one side; the
diagonals beside it are then at least as far (`left_of_overrun`,
`right_of_overrun`), so the first path past both ends stops exactly at the
corner and `backtrack` reads a script back from it.
-/
namespace Detent.Guarantees.Alignment
open Lib Source.Align

/-- The diagonals that a path with `dist` edits can end on. -/
def OnDiagonal (offset dist kidx : Nat) : Prop :=
  offset ≤ kidx + dist ∧ kidx ≤ offset + dist ∧ (kidx + dist + offset) % 2 = 0

variable {T : Type} [DecidableEq T]

section Furthest

variable (old new : List T) (offset : Nat)

/-- The move onto diagonal `kidx` that `cameFromDown` picks, from the distances
`prev` reached on its neighbours. -/
def GoesDown (prev : Nat → Nat) (dist kidx : Nat) : Prop :=
  kidx = offset - dist ∨ (kidx ≠ offset + dist ∧ prev (kidx - 1) < prev (kidx + 1))

instance (prev : Nat → Nat) (dist kidx : Nat) : Decidable (GoesDown offset prev dist kidx) :=
  inferInstanceAs (Decidable (_ ∨ _))

/-- The old index on diagonal `kidx` right after that move. -/
def landing (prev : Nat → Nat) (dist kidx : Nat) : Nat :=
  if GoesDown offset prev dist kidx then prev (kidx + 1) else prev (kidx - 1) + 1

/-- `oldi` on diagonal `kidx`, moved along the items both lists share. -/
def slide (oldi kidx : Nat) : Nat :=
  oldi + commonPrefix (old.drop oldi) (new.drop (oldi + offset - kidx))

/-- What the frontier holds before the round for `dist`. -/
def reached : Nat → Nat → Nat
  | 0, _ => 0
  | dist + 1, kidx => slide old new offset (landing offset (reached dist) dist kidx) kidx

/-- The furthest old index on diagonal `kidx` after `dist` edits. -/
def furthest (dist kidx : Nat) : Nat := reached old new offset (dist + 1) kidx

/-- The old index on diagonal `kidx` after the last of `dist` edits. -/
def edited (dist kidx : Nat) : Nat := landing offset (reached old new offset dist) dist kidx

/-- The path on diagonal `kidx` is past the end of both lists. -/
def AtEnd (dist kidx : Nat) : Prop :=
  old.length ≤ furthest old new offset dist kidx ∧
    new.length ≤ furthest old new offset dist kidx + offset - kidx

end Furthest

variable {dist kidx : Nat}

section Geometry

variable (old new : List T) (offset : Nat)

theorem edited_le_furthest (dist kidx : Nat) :
    edited old new offset dist kidx ≤ furthest old new offset dist kidx := Nat.le_add_right _ _

theorem furthest_eq (dist kidx : Nat) :
    furthest old new offset dist kidx = edited old new offset dist kidx +
      commonPrefix (old.drop (edited old new offset dist kidx))
        (new.drop (edited old new offset dist kidx + offset - kidx)) := rfl

/-- The slide after an edit stops inside the grid, or does not move. -/
theorem furthest_cases (dist kidx : Nat) :
    furthest old new offset dist kidx = edited old new offset dist kidx ∨
      (furthest old new offset dist kidx ≤ old.length ∧
        furthest old new offset dist kidx + offset ≤ new.length + kidx) := by
  have hle := commonPrefix_le (old.drop (edited old new offset dist kidx))
    (new.drop (edited old new offset dist kidx + offset - kidx))
  have hslide := furthest_eq old new offset dist kidx
  simp only [List.length_drop] at hle
  omega

theorem edited_zero : edited old new offset 0 offset = 0 := by
  have hdown : GoesDown offset (reached old new offset 0) 0 offset := .inl (by omega)
  rw [edited, landing, if_pos hdown]
  rfl

/-- The move onto a diagonal, for one edit more. -/
theorem edited_succ (dist kidx : Nat) :
    edited old new offset (dist + 1) kidx =
      if GoesDown offset (furthest old new offset dist) (dist + 1) kidx then
        furthest old new offset dist (kidx + 1)
      else furthest old new offset dist (kidx - 1) + 1 := rfl

omit [DecidableEq T] in
theorem ne_last_of_goesDown (prev : Nat → Nat) (hd : 0 < dist)
    (h : GoesDown offset prev dist kidx) : kidx ≠ offset + dist := by
  unfold GoesDown at h
  omega

theorem furthest_down_le (dist kidx : Nat) (hk : kidx ≠ offset + (dist + 1)) :
    furthest old new offset dist (kidx + 1) ≤ furthest old new offset (dist + 1) kidx := by
  have hle := edited_le_furthest old new offset (dist + 1) kidx
  rw [edited_succ] at hle
  by_cases hdown : GoesDown offset (furthest old new offset dist) (dist + 1) kidx
  · rw [if_pos hdown] at hle
    exact hle
  · rw [if_neg hdown] at hle
    simp only [GoesDown, not_or, not_and, Nat.not_lt] at hdown
    have := hdown.2 hk
    omega

theorem furthest_right_le (dist kidx : Nat) (hk : kidx ≠ offset - (dist + 1)) :
    furthest old new offset dist (kidx - 1) + 1 ≤ furthest old new offset (dist + 1) kidx := by
  have hle := edited_le_furthest old new offset (dist + 1) kidx
  rw [edited_succ] at hle
  by_cases hdown : GoesDown offset (furthest old new offset dist) (dist + 1) kidx
  · rw [if_pos hdown] at hle
    have hlt := (hdown.resolve_left hk).2
    omega
  · rw [if_neg hdown] at hle
    exact hle

/-- No path is above the first new item. -/
theorem kidx_le_furthest (dist kidx : Nat) (hd : dist ≤ offset)
    (hk : OnDiagonal offset dist kidx) : kidx ≤ furthest old new offset dist kidx + offset := by
  unfold OnDiagonal at hk
  induction dist generalizing kidx with
  | zero => omega
  | succ dist ih =>
    by_cases hhi : kidx = offset + (dist + 1)
    · have hstep := furthest_right_le old new offset dist kidx (by omega)
      have := ih (kidx - 1) (by omega) (by omega)
      omega
    · have hstep := furthest_down_le old new offset dist kidx hhi
      have := ih (kidx + 1) (by omega) (by omega)
      omega

theorem kidx_le_edited (dist kidx : Nat) (hd : dist ≤ offset)
    (hk : OnDiagonal offset dist kidx) : kidx ≤ edited old new offset dist kidx + offset := by
  unfold OnDiagonal at hk
  cases dist with
  | zero => omega
  | succ dist =>
    rw [edited_succ]
    by_cases hdown : GoesDown offset (furthest old new offset dist) (dist + 1) kidx
    · have hhi := ne_last_of_goesDown offset _ (by omega) hdown
      have := kidx_le_furthest old new offset dist (kidx + 1) (by omega) ⟨by omega, by omega, by omega⟩
      rw [if_pos hdown]
      omega
    · have hlo : kidx ≠ offset - (dist + 1) := fun h => hdown (.inl h)
      have := kidx_le_furthest old new offset dist (kidx - 1) (by omega) ⟨by omega, by omega, by omega⟩
      rw [if_neg hdown]
      omega

/-- Straight down the first column no path leaves the grid. -/
theorem furthest_first_le (dist : Nat) (hd : dist ≤ offset) :
    furthest old new offset dist (offset - dist) ≤ old.length := by
  induction dist with
  | zero =>
    have hcases := furthest_cases old new offset 0 offset
    rw [edited_zero] at hcases
    rw [Nat.sub_zero]
    omega
  | succ dist ih =>
    have hcases := furthest_cases old new offset (dist + 1) (offset - (dist + 1))
    have hdown : GoesDown offset (furthest old new offset dist) (dist + 1) (offset - (dist + 1)) :=
      .inl rfl
    rw [edited_succ, if_pos hdown, show offset - (dist + 1) + 1 = offset - dist by omega] at hcases
    have := ih (by omega)
    omega

/-- Straight along the first row no path leaves the grid. -/
theorem furthest_last_le (dist : Nat) :
    furthest old new offset dist (offset + dist) + offset ≤ new.length + (offset + dist) := by
  induction dist with
  | zero =>
    have hcases := furthest_cases old new offset 0 offset
    rw [edited_zero] at hcases
    rw [Nat.add_zero]
    omega
  | succ dist ih =>
    have hcases := furthest_cases old new offset (dist + 1) (offset + (dist + 1))
    have hright : ¬ GoesDown offset (furthest old new offset dist) (dist + 1)
        (offset + (dist + 1)) := by
      unfold GoesDown
      omega
    rw [edited_succ, if_neg hright, show offset + (dist + 1) - 1 = offset + dist by omega] at hcases
    omega

/-- A path past the last old item has one beside it that is one item behind. -/
theorem left_of_overrun (dist kidx : Nat) (hd : dist ≤ offset) (hk : OnDiagonal offset dist kidx)
    (hover : old.length < furthest old new offset dist kidx) :
    kidx ≠ offset - dist ∧
      furthest old new offset dist kidx ≤ furthest old new offset dist (kidx - 2) + 1 := by
  unfold OnDiagonal at hk
  induction dist generalizing kidx with
  | zero =>
    have hcases := furthest_cases old new offset 0 kidx
    rw [show kidx = offset by omega, edited_zero] at hcases
    rw [show kidx = offset by omega] at hover
    omega
  | succ dist ih =>
    have hne : kidx ≠ offset - (dist + 1) := by
      intro h
      have := furthest_first_le old new offset (dist + 1) hd
      rw [← h] at this
      omega
    refine ⟨hne, ?_⟩
    have hbeside := furthest_down_le old new offset dist (kidx - 2) (by omega)
    rw [show kidx - 2 + 1 = kidx - 1 by omega] at hbeside
    have hland := (furthest_cases old new offset (dist + 1) kidx).resolve_right (by omega)
    rw [edited_succ] at hland
    by_cases hdown : GoesDown offset (furthest old new offset dist) (dist + 1) kidx
    · -- the path came from the diagonal on its right, which overran one edit earlier
      rw [if_pos hdown] at hland
      have hhi := ne_last_of_goesDown offset _ (by omega) hdown
      have := (ih (kidx + 1) (by omega) (by omega) (by omega)).2
      rw [show kidx + 1 - 2 = kidx - 1 by omega] at this
      omega
    · rw [if_neg hdown] at hland
      omega

/-- A path past the last new item has one beside it that is one item behind. -/
theorem right_of_overrun (dist kidx : Nat) (hd : dist ≤ offset) (hk : OnDiagonal offset dist kidx)
    (hover : new.length + kidx < furthest old new offset dist kidx + offset) :
    kidx ≠ offset + dist ∧
      furthest old new offset dist kidx + 1 ≤ furthest old new offset dist (kidx + 2) := by
  unfold OnDiagonal at hk
  induction dist generalizing kidx with
  | zero =>
    have hcases := furthest_cases old new offset 0 kidx
    rw [show kidx = offset by omega, edited_zero] at hcases
    rw [show kidx = offset by omega] at hover
    omega
  | succ dist ih =>
    have hne : kidx ≠ offset + (dist + 1) := by
      intro h
      have := furthest_last_le old new offset (dist + 1)
      rw [← h] at this
      omega
    refine ⟨hne, ?_⟩
    have hland := (furthest_cases old new offset (dist + 1) kidx).resolve_right (by omega)
    rw [edited_succ] at hland
    by_cases hdown : GoesDown offset (furthest old new offset dist) (dist + 1) kidx
    · rw [if_pos hdown] at hland
      have hbeside := furthest_right_le old new offset dist (kidx + 2) (by omega)
      rw [show kidx + 2 - 1 = kidx + 1 by omega] at hbeside
      omega
    · -- the diagonal on its left overran too, so the move down would have been further
      rw [if_neg hdown] at hland
      simp only [GoesDown, not_or, not_and, Nat.not_lt] at hdown
      have := (ih (kidx - 1) (by omega) (by omega) (by omega)).2
      rw [show kidx - 1 + 2 = kidx + 1 by omega] at this
      have := hdown.2 hne
      omega

/-- Walking left from a path past the last old item reaches the end. -/
theorem atEnd_of_left (dist kidx : Nat) (hd : dist ≤ offset) (hk : OnDiagonal offset dist kidx)
    (hpast : old.length ≤ furthest old new offset dist kidx)
    (hsum : old.length + new.length + kidx ≤ 2 * furthest old new offset dist kidx + offset) :
    ∃ kidx, OnDiagonal offset dist kidx ∧ AtEnd old new offset dist kidx := by
  induction kidx using Nat.strongRecOn with
  | ind kidx ih =>
    by_cases hlast : furthest old new offset dist kidx = old.length
    · refine ⟨kidx, hk, hpast, ?_⟩
      omega
    · have hbeside := left_of_overrun old new offset dist kidx hd hk (by omega)
      have hlow := kidx_le_furthest old new offset dist kidx hd hk
      unfold OnDiagonal at hk ih
      exact ih (kidx - 2) (by omega) (by omega) (by omega) (by omega)

/-- Walking right from a path past the last new item reaches the end. -/
theorem atEnd_of_right (dist kidx : Nat) (hd : dist ≤ offset) (hk : OnDiagonal offset dist kidx)
    (hpast : new.length + kidx ≤ furthest old new offset dist kidx + offset)
    (hsum : old.length + new.length + kidx ≤ 2 * furthest old new offset dist kidx + offset) :
    ∃ kidx, OnDiagonal offset dist kidx ∧ AtEnd old new offset dist kidx := by
  generalize hleft : offset + dist - kidx = left
  induction left using Nat.strongRecOn generalizing kidx with
  | ind left ih =>
    by_cases hlast : furthest old new offset dist kidx + offset = new.length + kidx
    · refine ⟨kidx, hk, by omega, ?_⟩
      omega
    · have hbeside := right_of_overrun old new offset dist kidx hd hk (by omega)
      unfold OnDiagonal at hk ih
      exact ih (offset + dist - (kidx + 2)) (by omega) (kidx + 2) (by omega) (by omega) (by omega) rfl

/-- While no path is at the end, none has used up as many items as there are. -/
theorem sum_lt (dist kidx : Nat) (hd : dist ≤ offset) (hk : OnDiagonal offset dist kidx)
    (hopen : ∀ kidx, OnDiagonal offset dist kidx → ¬ AtEnd old new offset dist kidx) :
    2 * furthest old new offset dist kidx + offset < old.length + new.length + kidx := by
  by_contra hsum
  have hend : ∃ kidx, OnDiagonal offset dist kidx ∧ AtEnd old new offset dist kidx := by
    by_cases hpast : old.length ≤ furthest old new offset dist kidx
    · exact atEnd_of_left old new offset dist kidx hd hk hpast (by omega)
    · exact atEnd_of_right old new offset dist kidx hd hk (by omega) (by omega)
  obtain ⟨other, hother, hat⟩ := hend
  exact hopen other hother hat

/-- The first path at the end stops at the corner. -/
theorem corner_of_atEnd (dist kidx : Nat) (hd : dist ≤ offset) (hk : OnDiagonal offset dist kidx)
    (hopen : ∀ prev, prev + 1 = dist →
      ∀ kidx, OnDiagonal offset prev kidx → ¬ AtEnd old new offset prev kidx)
    (hat : AtEnd old new offset dist kidx) :
    furthest old new offset dist kidx = old.length ∧
      furthest old new offset dist kidx + offset - kidx = new.length := by
  have hcases := furthest_cases old new offset dist kidx
  have hlow := kidx_le_furthest old new offset dist kidx hd hk
  unfold AtEnd at hat
  unfold OnDiagonal at hk
  cases dist with
  | zero =>
    have hzero := edited_zero old new offset
    rw [show kidx = offset by omega] at hcases hlow hat ⊢
    omega
  | succ dist =>
    have hsum := sum_lt old new offset dist
    rw [edited_succ] at hcases
    by_cases hdown : GoesDown offset (furthest old new offset dist) (dist + 1) kidx
    · rw [if_pos hdown] at hcases
      have hhi := ne_last_of_goesDown offset _ (by omega) hdown
      have := hsum (kidx + 1) (by omega) ⟨by omega, by omega, by omega⟩ (hopen dist rfl)
      omega
    · rw [if_neg hdown] at hcases
      have hne : kidx ≠ offset - (dist + 1) := fun h => hdown (.inl h)
      have := hsum (kidx - 1) (by omega) ⟨by omega, by omega, by omega⟩ (hopen dist rfl)
      omega

end Geometry

section Search

variable (old new : List T) (offset : Nat)

/-- The cells that the round for `dist` reads hold what was reached before it. -/
def Ready (front : List Nat) (dist : Nat) : Prop :=
  ∀ kidx, OnDiagonal offset dist kidx →
    (kidx ≠ offset + dist ∨ dist = 0 →
      cell front (kidx + 1) = reached old new offset dist (kidx + 1)) ∧
    (kidx ≠ offset - dist → cell front (kidx - 1) = reached old new offset dist (kidx - 1))

omit [DecidableEq T] in
theorem cell_setCell_same (front : List Nat) (kidx value : Nat) (h : kidx < front.length) :
    cell (setCell front kidx value) kidx = value := by
  simp [cell, setCell, h]

omit [DecidableEq T] in
theorem cell_setCell_other (front : List Nat) {other : Nat} (value : Nat) (h : kidx ≠ other) :
    cell (setCell front kidx value) other = cell front other := by
  simp [cell, setCell, List.getElem?_set_ne h]

omit [DecidableEq T] in
theorem cell_replicate (width kidx : Nat) : cell (List.replicate width 0) kidx = 0 := by
  by_cases h : kidx < width
  all_goals simp [cell, h]

variable {front : List Nat}

/-- A round writes no cell that it reads. -/
theorem Ready.setCell (h : Ready old new offset front dist) (hk : OnDiagonal offset dist kidx)
    (value : Nat) : Ready old new offset (setCell front kidx value) dist := by
  intro other hother
  have hread := h other hother
  unfold OnDiagonal at hk hother
  constructor
  · intro hne
    rw [cell_setCell_other front value (by omega)]
    exact hread.1 hne
  · intro hne
    rw [cell_setCell_other front value (by omega)]
    exact hread.2 hne

/-- The frontier a finished round leaves is ready for the next one. -/
theorem ready_succ (hd : dist + 1 ≤ offset)
    (h : ∀ kidx, OnDiagonal offset dist kidx →
      cell front kidx = furthest old new offset dist kidx) :
    Ready old new offset front (dist + 1) := by
  intro kidx hk
  unfold OnDiagonal at hk h
  constructor
  · intro hne
    exact h (kidx + 1) (by omega)
  · intro hne
    exact h (kidx - 1) (by omega)

theorem cameFromDown_iff (h : Ready old new offset front dist) (hk : OnDiagonal offset dist kidx) :
    cameFromDown front kidx (offset - dist) (offset + dist) = true ↔
      GoesDown offset (reached old new offset dist) dist kidx := by
  have hread := h kidx hk
  by_cases hlo : kidx = offset - dist
  · simp [cameFromDown, GoesDown, hlo]
  · by_cases hhi : kidx = offset + dist
    · simp [cameFromDown, GoesDown, hhi]
    · rw [cameFromDown, GoesDown, hread.1 (.inl hhi), hread.2 hlo]
      simp [hlo, hhi]

theorem landing_eq (h : Ready old new offset front dist) (hk : OnDiagonal offset dist kidx) :
    (if cameFromDown front kidx (offset - dist) (offset + dist) then cell front (kidx + 1)
      else cell front (kidx - 1) + 1) = edited old new offset dist kidx := by
  have hread := h kidx hk
  have hiff := cameFromDown_iff old new offset h hk
  unfold edited landing
  by_cases hdown : GoesDown offset (reached old new offset dist) dist kidx
  · rw [if_pos (hiff.mpr hdown), if_pos hdown]
    apply hread.1
    by_cases hd : dist = 0
    · exact .inr hd
    · exact .inl (ne_last_of_goesDown offset _ (by omega) hdown)
  · rw [if_neg (fun hc => hdown (hiff.mp hc)), if_neg hdown]
    rw [hread.2 (fun hlo => hdown (.inl hlo))]

theorem advance_eq (hd : dist ≤ offset) (h : Ready old new offset front dist)
    (hk : OnDiagonal offset dist kidx) :
    advance old new offset front kidx (offset - dist) (offset + dist) =
      (furthest old new offset dist kidx, furthest old new offset dist kidx + offset - kidx) := by
  have hlow := kidx_le_edited old new offset dist kidx hd hk
  simp only [advance]
  rw [landing_eq old new offset h hk]
  rw [furthest_eq, Prod.mk.injEq]
  omega

/-- What a round does from diagonal `kidx` on: it stops at the first path at the
end, or leaves every diagonal of the round filled in. -/
theorem sweep_spec (hd : dist ≤ offset) (left kidx : Nat) (front : List Nat)
    (hleft : kidx + 2 * left = offset + dist + 2) (hlo : offset ≤ kidx + dist)
    (hparity : (kidx + dist + offset) % 2 = 0) (hlen : front.length = 2 * offset + 1)
    (hready : Ready old new offset front dist)
    (hdone : ∀ k, OnDiagonal offset dist k → k < kidx →
      cell front k = furthest old new offset dist k ∧ ¬ AtEnd old new offset dist k) :
    (sweep old new offset (offset - dist) (offset + dist) left kidx front = none ∧
      ∃ k, OnDiagonal offset dist k ∧ AtEnd old new offset dist k) ∨
    (∃ after, sweep old new offset (offset - dist) (offset + dist) left kidx front = some after ∧
      after.length = 2 * offset + 1 ∧
      ∀ k, OnDiagonal offset dist k →
        cell after k = furthest old new offset dist k ∧ ¬ AtEnd old new offset dist k) := by
  induction left generalizing kidx front with
  | zero =>
    refine .inr ⟨front, rfl, hlen, fun k hk => hdone k hk ?_⟩
    unfold OnDiagonal at hk
    omega
  | succ left ih =>
    have hk : OnDiagonal offset dist kidx := ⟨hlo, by omega, hparity⟩
    have hadvance := advance_eq old new offset hd hready hk
    by_cases hat : AtEnd old new offset dist kidx
    · refine .inl ⟨?_, kidx, hk, hat⟩
      rw [sweep, hadvance]
      exact if_pos hat
    · have hnext : sweep old new offset (offset - dist) (offset + dist) (left + 1) kidx front =
          sweep old new offset (offset - dist) (offset + dist) left (kidx + 2)
            (setCell front kidx (furthest old new offset dist kidx)) := by
        rw [sweep, hadvance]
        exact if_neg hat
      rw [hnext]
      apply ih (kidx + 2)
      · omega
      · omega
      · omega
      · rw [setCell, List.length_set]
        exact hlen
      · exact Ready.setCell old new offset hready hk _
      · intro k hk' hlt
        by_cases hsame : k = kidx
        · subst hsame
          exact ⟨cell_setCell_same front k _ (by omega), hat⟩
        · rw [cell_setCell_other front _ (Ne.symm hsame)]
          apply hdone k hk'
          unfold OnDiagonal at hk'
          omega

omit [DecidableEq T] in
/-- Unwinding the shared items before `(a + n, b + n)` leads back to `(a, b)`. -/
theorem unwind_spec {prevOld prevNew a b : Nat} (ha : prevOld ≤ a) (hb : prevNew ≤ b)
    (hstop : a = prevOld ∨ b = prevNew) (n : Nat) (steps : List Step)
    (hshared : ∀ i < n, ∃ t, old[a + i]? = some t ∧ new[b + i]? = some t) :
    ∃ first, unwind prevOld prevNew (a + n) (b + n) steps = (a, b, first ++ steps) ∧
      Path old new a b first (a + n) (b + n) ∧ edits first = 0 := by
  induction n generalizing steps with
  | zero =>
    refine ⟨[], ?_, Path.nil a b, rfl⟩
    cases a with
    | zero => simp [unwind]
    | succ a =>
      cases b with
      | zero => simp [unwind]
      | succ b =>
        rw [Nat.add_zero, Nat.add_zero, unwind, if_neg (by omega)]
        rfl
  | succ n ih =>
    obtain ⟨first, hunwind, hpath, hedits⟩ :=
      ih (.equal (a + n) (b + n) :: steps) (fun i hi => hshared i (by omega))
    obtain ⟨t, hold, hnew⟩ := hshared n (by omega)
    refine ⟨first ++ [.equal (a + n) (b + n)], ?_, ?_, by simp [hedits, Step.isEdit]⟩
    · rw [show a + (n + 1) = a + n + 1 by omega, show b + (n + 1) = b + n + 1 by omega, unwind,
        if_pos (by omega), hunwind]
      simp
    · exact hpath.append (.equal t hold hnew (.nil _ _))

/-- The items a slide runs along are shared. -/
theorem shared_of_furthest (dist kidx i : Nat)
    (hi : i < furthest old new offset dist kidx - edited old new offset dist kidx) :
    ∃ t, old[edited old new offset dist kidx + i]? = some t ∧
      new[edited old new offset dist kidx + offset - kidx + i]? = some t := by
  rw [furthest_eq, Nat.add_sub_cancel_left] at hi
  have := getElem?_of_lt_commonPrefix _ _ i hi
  simpa only [List.getElem?_drop] using this

/-- Unwinding a slide: `backtrack` is back at the point of the last edit. -/
theorem unwind_slide (prevOld prevNew : Nat) (hd : dist ≤ offset) (hk : OnDiagonal offset dist kidx)
    (ha : prevOld ≤ edited old new offset dist kidx)
    (hb : prevNew ≤ edited old new offset dist kidx + offset - kidx)
    (hstop : edited old new offset dist kidx = prevOld ∨
      edited old new offset dist kidx + offset - kidx = prevNew) (steps : List Step) :
    ∃ first, unwind prevOld prevNew (furthest old new offset dist kidx)
        (furthest old new offset dist kidx + offset - kidx) steps =
          (edited old new offset dist kidx, edited old new offset dist kidx + offset - kidx,
            first ++ steps) ∧
      Path old new (edited old new offset dist kidx)
        (edited old new offset dist kidx + offset - kidx) first
        (furthest old new offset dist kidx) (furthest old new offset dist kidx + offset - kidx) ∧
      edits first = 0 := by
  have hle := edited_le_furthest old new offset dist kidx
  have hlow := kidx_le_edited old new offset dist kidx hd hk
  obtain ⟨first, hunwind, hpath, hedits⟩ := unwind_spec old new ha hb hstop
    (furthest old new offset dist kidx - edited old new offset dist kidx) steps
    (shared_of_furthest old new offset dist kidx)
  rw [show edited old new offset dist kidx +
      (furthest old new offset dist kidx - edited old new offset dist kidx) =
        furthest old new offset dist kidx by omega,
    show edited old new offset dist kidx + offset - kidx +
      (furthest old new offset dist kidx - edited old new offset dist kidx) =
        furthest old new offset dist kidx + offset - kidx by omega] at hunwind hpath
  exact ⟨first, hunwind, hpath, hedits⟩

/-- `backtrack` from a point that `dist` edits reach adds a path to that point, of
as many edits. -/
theorem backtrackFrom_spec (trace : List (List Nat)) (dist kidx : Nat) (hd : dist ≤ offset)
    (hk : OnDiagonal offset dist kidx)
    (htrace : ∀ d ≤ dist, ∃ front, (trace)[d]? = some front ∧ Ready old new offset front d)
    (hold : furthest old new offset dist kidx ≤ old.length)
    (hnew : furthest old new offset dist kidx + offset - kidx ≤ new.length) (steps : List Step) :
    ∃ first, backtrackFrom trace offset dist (furthest old new offset dist kidx)
        (furthest old new offset dist kidx + offset - kidx) steps = first ++ steps ∧
      Path old new 0 0 first (furthest old new offset dist kidx)
        (furthest old new offset dist kidx + offset - kidx) ∧ edits first = dist := by
  induction dist generalizing kidx steps with
  | zero =>
    obtain ⟨front, hfront, hready⟩ := htrace 0 (Nat.le_refl 0)
    have hkidx : kidx = offset := by
      unfold OnDiagonal at hk
      omega
    subst hkidx
    have hdown := (cameFromDown_iff old new kidx hready hk).mpr (.inl rfl)
    have hprev := (hready kidx hk).1 (.inr rfl)
    have hedited := edited_zero old new kidx
    obtain ⟨first, hunwind, hpath, hedits⟩ := unwind_slide old new kidx 0 0 hd hk (Nat.zero_le _)
      (Nat.zero_le _) (.inl hedited) steps
    rw [hedited, Nat.zero_add, Nat.sub_self] at hunwind hpath
    refine ⟨first, ?_, hpath, hedits⟩
    rw [backtrackFrom, hfront]
    have hcell : cell front (kidx + 1) = 0 := hprev
    have hback : kidx + furthest old new kidx 0 kidx - (furthest old new kidx 0 kidx + kidx - kidx) =
        kidx := by omega
    simp only [hback, hdown, if_true, hcell, Nat.zero_add, Nat.sub_eq_zero_of_le (Nat.le_succ kidx),
      hunwind]
  | succ dist ih =>
    obtain ⟨front, hfront, hready⟩ := htrace (dist + 1) (Nat.le_refl _)
    have hlow := kidx_le_furthest old new offset (dist + 1) kidx hd hk
    have hread := hready kidx hk
    have hiff := cameFromDown_iff old new offset hready hk
    have hback : offset + furthest old new offset (dist + 1) kidx -
        (furthest old new offset (dist + 1) kidx + offset - kidx) = kidx := by omega
    have htrace' : ∀ d ≤ dist, ∃ front, (trace)[d]? = some front ∧ Ready old new offset front d :=
      fun d hle => htrace d (by omega)
    have hle := edited_le_furthest old new offset (dist + 1) kidx
    have hedited := edited_succ old new offset dist kidx
    by_cases hdown : GoesDown offset (furthest old new offset dist) (dist + 1) kidx
    · rw [if_pos hdown] at hedited
      have hhi := ne_last_of_goesDown offset _ (by omega) hdown
      have hprev : OnDiagonal offset dist (kidx + 1) := by
        unfold OnDiagonal at hk ⊢
        omega
      have hup := kidx_le_furthest old new offset dist (kidx + 1) (by omega) hprev
      have hcell : cell front (kidx + 1) = furthest old new offset dist (kidx + 1) :=
        hread.1 (.inl hhi)
      obtain ⟨first, hunwind, hpath, hedits⟩ := unwind_slide old new offset
        (furthest old new offset dist (kidx + 1))
        (furthest old new offset dist (kidx + 1) + offset - (kidx + 1)) hd hk
        (Nat.le_of_eq hedited.symm) (by omega) (.inl hedited) steps
      rw [hedited] at hunwind hpath
      obtain ⟨before, hbacktrack, hpath', hbefore⟩ := ih (kidx + 1) (by omega) hprev htrace' (by omega)
        (by omega)
        (.insert (furthest old new offset dist (kidx + 1) + offset - (kidx + 1)) :: (first ++ steps))
      refine ⟨before ++ .insert (furthest old new offset dist (kidx + 1) + offset - (kidx + 1)) ::
        first, ?_, ?_, by simp [hedits, hbefore, Step.isEdit]⟩
      · rw [backtrackFrom, hfront]
        simp only [hback, hiff.mpr hdown, if_true, hcell, hunwind, Nat.sub_sub, hbacktrack]
        simp
      · refine hpath'.append (.insert (by omega) ?_)
        rw [show furthest old new offset dist (kidx + 1) + offset - (kidx + 1) + 1 =
          furthest old new offset dist (kidx + 1) + offset - kidx by omega]
        exact hpath
    · rw [if_neg hdown] at hedited
      have hlo : kidx ≠ offset - (dist + 1) := fun h => hdown (.inl h)
      have hprev : OnDiagonal offset dist (kidx - 1) := by
        unfold OnDiagonal at hk ⊢
        omega
      have hup := kidx_le_furthest old new offset dist (kidx - 1) (by omega) hprev
      have hcell : cell front (kidx - 1) = furthest old new offset dist (kidx - 1) := hread.2 hlo
      have hpos : 0 < kidx := by
        unfold OnDiagonal at hk
        omega
      have hnewi : furthest old new offset dist (kidx - 1) + 1 + offset - kidx =
          furthest old new offset dist (kidx - 1) + offset - (kidx - 1) := by omega
      obtain ⟨first, hunwind, hpath, hedits⟩ := unwind_slide old new offset
        (furthest old new offset dist (kidx - 1))
        (furthest old new offset dist (kidx - 1) + offset - (kidx - 1)) hd hk
        (by omega) (by omega) (.inr (by rw [hedited, hnewi])) steps
      rw [hedited, hnewi] at hunwind hpath
      obtain ⟨before, hbacktrack, hpath', hbefore⟩ := ih (kidx - 1) (by omega) hprev htrace' (by omega)
        (by omega) (.delete (furthest old new offset dist (kidx - 1)) :: (first ++ steps))
      refine ⟨before ++ .delete (furthest old new offset dist (kidx - 1)) :: first, ?_, ?_,
        by simp [hedits, hbefore, Step.isEdit]⟩
      · rw [backtrackFrom, hfront]
        simp only [hback, Bool.not_eq_true _ ▸ mt hiff.mp hdown, Bool.false_eq_true, if_false, hcell,
          hunwind, Nat.add_sub_cancel, hbacktrack]
        simp
      · have hlt : furthest old new offset dist (kidx - 1) < old.length := by omega
        exact hpath'.append (.delete hlt hpath)

/-- The `for` loop over the distances returns a script within the cap, with no more
edits than the first distance that reaches the end, or gives up. -/
theorem search_spec (left dist : Nat) (front : List Nat) (trace : List (List Nat))
    (hleft : dist + left = offset + 1) (hlen : front.length = 2 * offset + 1)
    (hready : Ready old new offset front dist) (hlength : trace.length = dist)
    (htrace : ∀ d < dist, ∃ front, (trace)[d]? = some front ∧ Ready old new offset front d)
    (hopen : ∀ prev, prev + 1 = dist →
      ∀ kidx, OnDiagonal offset prev kidx → ¬ AtEnd old new offset prev kidx)
    {result : Option (List Step)} (h : search old new offset left dist front trace = result) :
    (∀ steps, result = some steps → Script old new steps ∧ edits steps ≤ offset) ∧
      ∀ d kidx, dist ≤ d → d ≤ offset → OnDiagonal offset d kidx → AtEnd old new offset d kidx →
        ∃ steps, result = some steps ∧ edits steps ≤ d := by
  induction left generalizing dist front trace with
  | zero =>
    subst h
    refine ⟨fun steps hsteps => ?_, fun d kidx hge hle => by omega⟩
    cases hsteps
  | succ left ih =>
    have hd : dist ≤ offset := by omega
    have htrace' : ∀ d ≤ dist, ∃ f, (trace ++ [front])[d]? = some f ∧ Ready old new offset f d := by
      intro d hle
      by_cases hlast : d = dist
      · subst hlast
        exact ⟨front, by simp [← hlength], hready⟩
      · obtain ⟨f, hf, hreadyf⟩ := htrace d (by omega)
        exact ⟨f, by rw [List.getElem?_append_left (by omega)]; exact hf, hreadyf⟩
    rcases sweep_spec old new offset hd (dist + 1) (offset - dist) front (by omega) (by omega)
      (by omega) hlen hready (fun k hk hlt => by unfold OnDiagonal at hk; omega)
      with ⟨hsweep, kidx, hk, hat⟩ | ⟨after, hsweep, hafter, hfilled⟩
    · obtain ⟨hcorner, hcorner'⟩ := corner_of_atEnd old new offset dist kidx hd hk hopen hat
      obtain ⟨first, hback, hpath, hedits⟩ := backtrackFrom_spec old new offset (trace ++ [front]) dist
        kidx
        hd hk htrace' (by omega) (by omega) []
      rw [hcorner', hcorner] at hback hpath
      simp only [search, hsweep] at h
      rw [backtrack, hback, List.append_nil] at h
      subst h
      refine ⟨fun steps hsteps => ?_, fun d _ hge _ _ _ => ⟨first, rfl, by omega⟩⟩
      obtain rfl : first = steps := Option.some.inj hsteps
      exact ⟨hpath, by omega⟩
    · simp only [search, hsweep] at h
      by_cases hlast : left = 0
      · subst hlast
        rw [search] at h
        subst h
        refine ⟨fun steps hsteps => ?_, fun d kidx hge hle hk hat => ?_⟩
        · cases hsteps
        · obtain rfl : d = dist := by omega
          exact absurd hat (hfilled kidx hk).2
      · obtain ⟨hscript, hshort⟩ := ih (dist + 1) after (trace ++ [front]) (by omega) hafter
          (ready_succ old new offset (by omega) (fun k hk => (hfilled k hk).1)) (by simp [hlength])
          (fun d hlt => htrace' d (by omega))
          (fun prev hprev k hk => by
            obtain rfl : prev = dist := by omega
            exact (hfilled k hk).2) h
        refine ⟨hscript, fun d kidx hge hle hk hat => ?_⟩
        by_cases hd' : d = dist
        · rw [hd'] at hk hat
          exact absurd hat (hfilled kidx hk).2
        · exact hshort d kidx (by omega) hle hk hat

end Search

variable {old new : List T}

/-- What `align` returns turns all of `old` into all of `new`, within the cap and with
no more edits than any distance that reaches the end. -/
theorem align_spec :
    (∀ steps, align old new = some steps → Script old new steps ∧
      edits steps ≤ min (old.length + new.length) maxEditDistance) ∧
      ∀ d kidx, d ≤ min (old.length + new.length) maxEditDistance →
        OnDiagonal (min (old.length + new.length) maxEditDistance) d kidx →
        AtEnd old new (min (old.length + new.length) maxEditDistance) d kidx →
        ∃ steps, align old new = some steps ∧ edits steps ≤ d := by
  have hready : Ready old new (min (old.length + new.length) maxEditDistance)
      (List.replicate (2 * min (old.length + new.length) maxEditDistance + 1) 0) 0 := by
    intro kidx hk
    exact ⟨fun _ => cell_replicate _ _, fun _ => cell_replicate _ _⟩
  have hresult : search old new (min (old.length + new.length) maxEditDistance)
      (min (old.length + new.length) maxEditDistance + 1) 0
      (List.replicate (2 * min (old.length + new.length) maxEditDistance + 1) 0) [] =
        align old new := rfl
  obtain ⟨hscript, hshort⟩ := search_spec old new _ _ 0 _ [] (by omega) (by simp) hready rfl
    (fun d hd => by omega) (fun prev hprev => by omega) hresult
  exact ⟨hscript, fun d kidx hle hk hat => hshort d kidx (Nat.zero_le _) hle hk hat⟩

theorem align_script {steps : List Step} (h : align old new = some steps) :
    Script old new steps := (align_spec.1 steps h).1

omit [DecidableEq T] in
theorem path_deletes (n i j : Nat) (h : i + n = old.length) :
    Path old new i j ((List.range' i n).map .delete) old.length j := by
  induction n generalizing i with
  | zero =>
    rw [← h]
    exact .nil _ _
  | succ n ih => exact .delete (by omega) (ih (i + 1) (by omega))

omit [DecidableEq T] in
theorem path_inserts (n i j : Nat) (h : j + n = new.length) :
    Path old new i j ((List.range' j n).map .insert) i new.length := by
  induction n generalizing j with
  | zero =>
    rw [← h]
    exact .nil _ _
  | succ n ih => exact .insert (by omega) (ih (j + 1) (by omega))

omit [DecidableEq T] in
theorem replaceAll_script : Script old new (replaceAll old.length new.length) := by
  rw [replaceAll, List.range_eq_range', List.range_eq_range']
  exact (path_deletes old.length 0 0 (by omega)).append (path_inserts new.length _ 0 (by omega))

/-- On both sides of the cap the callers get a script. -/
theorem alignOrReplace_script (old new : List T) : Script old new (alignOrReplace old new) := by
  unfold alignOrReplace
  cases h : align old new with
  | none => exact replaceAll_script
  | some steps => exact align_script h

/-- One new item in an otherwise equal list is found as such. -/
theorem alignOrReplace_insert (before after : List T) {item : T} (hitem : item ∉ before ++ after) :
    alignOrReplace (before ++ after) (before ++ item :: after) =
      equals 0 0 before.length ++ .insert before.length ::
        equals before.length (before.length + 1) after.length := by
  have hpos : 1 ≤ min ((before ++ after).length + (before ++ item :: after).length)
      maxEditDistance := by
    rw [maxEditDistance, List.length_append, List.length_append, List.length_cons]
    omega
  have hspec := @align_spec T _ (before ++ after) (before ++ item :: after)
  obtain ⟨hscript, hshort⟩ := hspec
  revert hshort hpos
  generalize min ((before ++ after).length + (before ++ item :: after).length) maxEditDistance = offset
  intro hpos hshort
  -- without an edit, the shared beginning is the path; the new item follows
  have hzero : furthest (before ++ after) (before ++ item :: after) offset 0 offset =
      before.length := by
    have hstop : commonPrefix after (item :: after) = 0 := by
      cases after with
      | nil => rfl
      | cons head after =>
        have hne : head ≠ item := by
          rintro rfl
          exact hitem (by simp)
        simp [commonPrefix, hne]
    rw [furthest_eq, edited_zero, Nat.zero_add, Nat.zero_add, Nat.sub_self, List.drop_zero,
      List.drop_zero, commonPrefix_append, hstop, Nat.add_zero]
  have hdown : GoesDown offset
      (furthest (before ++ after) (before ++ item :: after) offset 0) 1 (offset - 1) := .inl rfl
  have hedited : edited (before ++ after) (before ++ item :: after) offset 1 (offset - 1) =
      before.length := by
    rw [edited_succ, if_pos hdown, Nat.sub_add_cancel hpos, hzero]
  have hone : furthest (before ++ after) (before ++ item :: after) offset 1 (offset - 1) =
      before.length + after.length := by
    have hnew : before.length + offset - (offset - 1) = before.length + 1 := by omega
    rw [furthest_eq, hedited, hnew, List.drop_left, ← List.drop_drop, List.drop_left,
      List.drop_succ_cons, List.drop_zero, commonPrefix_self]
  have hat : AtEnd (before ++ after) (before ++ item :: after) offset 1 (offset - 1) := by
    unfold AtEnd
    rw [hone]
    simp only [List.length_append, List.length_cons]
    omega
  obtain ⟨steps, hsteps, hedits⟩ := hshort 1 (offset - 1) hpos ⟨by omega, by omega, by omega⟩ hat
  have hpath := (hscript steps hsteps).1
  have hlen : (before ++ item :: after).length = (before ++ after).length + 1 := by simp; omega
  have hsome : edits steps = 1 := by
    rcases Nat.lt_or_ge (edits steps) 1 with hlt | hge
    · obtain ⟨n, hold, hnew, _⟩ := hpath.of_edits_zero (by omega)
      omega
    · omega
  obtain ⟨n, m, hold, hnew, heq⟩ := hpath.of_edits_one hsome (by omega)
  -- an item taken elsewhere would leave the new one to be shared
  have hshared : ∀ a, .equal a before.length ∉ steps := by
    intro a hmem
    obtain ⟨t, hold', hnew'⟩ := hpath.shared hmem
    rw [List.getElem?_append_right (Nat.le_refl _), Nat.sub_self, List.getElem?_cons_zero] at hnew'
    exact hitem (Option.some.inj hnew' ▸ List.mem_of_getElem? hold')
  have hplace : n = before.length := by
    rw [List.length_append] at hold
    rcases Nat.lt_trichotomy n before.length with hlt | heq' | hgt
    · refine absurd ?_ (hshared (before.length - 1))
      rw [heq]
      exact List.mem_append_right _ (List.mem_cons_of_mem _ (mem_equals.mpr
        ⟨before.length - 1 - n, by omega, by omega, by omega⟩))
    · exact heq'
    · refine absurd ?_ (hshared before.length)
      rw [heq]
      exact List.mem_append_left _ (mem_equals.mpr ⟨before.length, hgt, by omega, by omega⟩)
  rw [alignOrReplace, hsteps, Option.getD_some, heq, hplace]
  rw [hplace, List.length_append] at hold
  obtain rfl : m = after.length := by omega
  simp only [Nat.zero_add]

end Detent.Guarantees.Alignment
