import Detent.Lib.EditScript

/-!
# Sequence alignment

`crates/detent-core/src/align.rs`: a bounded greedy Myers search over the
diagonals of the edit grid, and the fallback script for when it gives up.
Lengths are natural numbers: no sum of two lengths leaves `usize`.
-/
namespace Detent.Source.Align
open Lib

def maxEditDistance : Nat := 512

/-- One cell of the frontier; `0` out of range. -/
def cell (front : List Nat) (index : Nat) : Nat := front.getD index 0

/-- Writes one cell, ignoring an out-of-range index. -/
def setCell (front : List Nat) (index value : Nat) : List Nat := front.set index value

/-- Whether the step at diagonal `kidx` came from a downward (insert) move. -/
def cameFromDown (front : List Nat) (kidx lo hi : Nat) : Bool :=
  kidx == lo || (kidx != hi && decide (cell front (kidx - 1) < cell front (kidx + 1)))

/-- The inner `while` of `backtrack`: one `Equal` step for each diagonal move.
Steps are pushed at the head, so that the result needs no reversal. -/
def unwind (prevOld prevNew : Nat) : Nat → Nat → List Step → Nat × Nat × List Step
  | oldi + 1, newi + 1, steps =>
    if oldi + 1 > prevOld ∧ newi + 1 > prevNew then
      unwind prevOld prevNew oldi newi (.equal oldi newi :: steps)
    else (oldi + 1, newi + 1, steps)
  | oldi, newi, steps => (oldi, newi, steps)

/-- The `for dist in (0..=last_dist).rev()` loop of `backtrack`. -/
def backtrackFrom (trace : List (List Nat)) (offset : Nat) :
    Nat → Nat → Nat → List Step → List Step
  | dist, oldi, newi, steps =>
    match (trace)[dist]? with
    | none => steps
    | some front =>
      let kidx := offset + oldi - newi
      let down := cameFromDown front kidx (offset - dist) (offset + dist)
      let prevKidx := if down then kidx + 1 else kidx - 1
      let prevOld := cell front prevKidx
      let prevNew := prevOld + offset - prevKidx
      let (oldi, newi, steps) := unwind prevOld prevNew oldi newi steps
      match dist with
      | 0 => steps
      | dist + 1 =>
        if down then backtrackFrom trace offset dist oldi (newi - 1) (.insert (newi - 1) :: steps)
        else backtrackFrom trace offset dist (oldi - 1) newi (.delete (oldi - 1) :: steps)

/-- The script read back from the end of both sequences. -/
def backtrack (trace : List (List Nat)) (offset lastDist oldLen newLen : Nat) : List Step :=
  backtrackFrom trace offset lastDist oldLen newLen []

variable {T : Type} [DecidableEq T]

/-- How far diagonal `kidx` is reached from the frontier: the better of the two
neighbouring moves, then along the items both sequences share. -/
def advance (old new : List T) (offset : Nat) (front : List Nat) (kidx lo hi : Nat) : Nat × Nat :=
  let oldi := if cameFromDown front kidx lo hi then cell front (kidx + 1)
    else cell front (kidx - 1) + 1
  let newi := oldi + offset - kidx
  let shared := commonPrefix (old.drop oldi) (new.drop newi)
  (oldi + shared, newi + shared)

/-- The `while kidx <= hi` loop, with the number of diagonals left; `none` when a
diagonal reaches the end of both sequences. -/
def sweep (old new : List T) (offset lo hi : Nat) : Nat → Nat → List Nat → Option (List Nat)
  | 0, _, front => some front
  | left + 1, kidx, front =>
    let (oldi, newi) := advance old new offset front kidx lo hi
    if oldi ≥ old.length ∧ newi ≥ new.length then none
    else sweep old new offset lo hi left (kidx + 2) (setCell front kidx oldi)

/-- The `for dist in 0..=max_dist` loop, with the number of distances left. -/
def search (old new : List T) (offset : Nat) :
    Nat → Nat → List Nat → List (List Nat) → Option (List Step)
  | 0, _, _, _ => none
  | left + 1, dist, front, trace =>
    let trace := trace ++ [front]
    -- `offset - dist`, `offset - dist + 2`, …, `offset + dist` are `dist + 1` diagonals
    match sweep old new offset (offset - dist) (offset + dist) (dist + 1) (offset - dist) front with
    | none => some (backtrack trace offset dist old.length new.length)
    | some front => search old new offset left (dist + 1) front trace

/-- The shortest edit script, or `none` past `maxEditDistance`. -/
def align (old new : List T) : Option (List Step) :=
  let maxDist := min (old.length + new.length) maxEditDistance
  search old new maxDist (maxDist + 1) 0 (List.replicate (2 * maxDist + 1) 0) []

/-- The fallback script: delete every old item, then insert every new one. -/
def replaceAll (oldLen newLen : Nat) : List Step :=
  (List.range oldLen).map .delete ++ (List.range newLen).map .insert

/-- `align(old, new).unwrap_or_else(|| replace_all(..))`, as both callers write it. -/
def alignOrReplace (old new : List T) : List Step :=
  (align old new).getD (replaceAll old.length new.length)

example : align [1, 2, 3] [1, 9, 2, 3] =
    some [.equal 0 0, .insert 1, .equal 1 2, .equal 2 3] := by decide +kernel

end Detent.Source.Align
