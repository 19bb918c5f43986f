import Detent.Source.Diff
import Detent.Guarantees.Alignment

/-!
# Hunks are an edit script

A hunk covers a range of the steps of the alignment. The ranges are in order and
apart, and every step outside them keeps a line; so the original, read with the
hunks in place of the ranges, is the candidate.
-/
namespace Detent.Guarantees.Hunks
open Lib Lib.Text Source.Align Source.Diff Guarantees.Alignment
open List (getElem?_eq_getElem mem_append mem_singleton pairwise_cons)

variable {a : Nat} {range : Nat × Nat} {b index : Nat}

section Slices

variable {α : Type}

/-- The items `a..b` of a list. -/
def slice (xs : List α) (a b : Nat) : List α := (xs.drop a).take (b - a)

theorem slice_cons {xs : List α} {x : α} (hx : xs[a]? = some x) (hab : a < b) :
    slice xs a b = x :: slice xs (a + 1) b := by
  obtain ⟨ha, rfl⟩ := List.getElem?_eq_some_iff.mp hx
  rw [slice, slice, List.drop_eq_getElem_cons ha, show b - a = b - (a + 1) + 1 by omega]
  rfl

theorem slice_length (xs : List α) (a b : Nat) (h : b ≤ xs.length) :
    (slice xs a b).length = b - a := by
  simp [slice]
  omega

theorem slice_append_drop (xs : List α) (h : a ≤ b) : slice xs a b ++ xs.drop b = xs.drop a := by
  have := List.take_append_drop (b - a) (xs.drop a)
  rw [List.drop_drop, show a + (b - a) = b by omega] at this
  exact this

end Slices

section Bodies

variable {old new : List Text} {i j k l : Nat} {steps : List Step}

theorem textAt_eq {lines : List Text} {text : Text} (h : lines[index]? = some text) :
    textAt lines index = text := by
  simp [textAt, h]

/-- The body of a path holds the lines of both sides between its ends. -/
theorem path_sides (h : Path old new i j steps k l) :
    oldSide (steps.map (diffLine old new)) = slice old i k ∧
      newSide (steps.map (diffLine old new)) = slice new j l := by
  induction h with
  | nil => simp [oldSide, newSide, slice]
  | equal t hold hnew rest ih =>
    have hle := rest.le
    rw [slice_cons hold (by omega), slice_cons hnew (by omega), ← ih.1, ← ih.2]
    simp [oldSide, newSide, diffLine, textAt_eq hold]
  | delete hold rest ih =>
    have hle := rest.le
    rw [slice_cons (getElem?_eq_getElem hold) (by omega), ← ih.1, ← ih.2]
    simp [oldSide, newSide, diffLine, textAt_eq (getElem?_eq_getElem hold)]
  | insert hnew rest ih =>
    have hle := rest.le
    rw [slice_cons (getElem?_eq_getElem hnew) (by omega), ← ih.1, ← ih.2]
    simp [oldSide, newSide, diffLine, textAt_eq (getElem?_eq_getElem hnew)]

/-- A path of kept lines has the same lines on both sides. -/
theorem slice_eq_of_kept (h : Path old new i j steps k l) (hkept : ∀ s ∈ steps, isEqual s = true) :
    slice old i k = slice new j l := by
  obtain ⟨hold, hnew⟩ := path_sides h
  rw [← hold, ← hnew, oldSide, newSide, List.filterMap_map, List.filterMap_map]
  apply List.filterMap_congr
  intro step hmem
  cases step with
  | equal a b => rfl
  | delete | insert => exact absurd (hkept _ hmem) (by simp [isEqual])

end Bodies

section Positions

variable {old new : List Text} {steps : List Step}

/-- The lines of both sides consumed by the first `n` steps. -/
def consumed (steps : List Step) (n : Nat) : Nat × Nat := stop (steps.take n) (0, 0)

theorem positionsFrom_getElem? (point : Nat × Nat) (steps : List Step) (n : Nat)
    (h : n ≤ steps.length) :
    (positionsFrom point steps)[n]? = some (stop (steps.take n) point) := by
  induction steps generalizing point n with
  | nil =>
    obtain rfl : n = 0 := by simpa using h
    rfl
  | cons step steps ih =>
    cases n with
    | zero => rfl
    | succ n => exact ih (step.move point) n (by simpa using h)

theorem positions_getD (steps : List Step) (n : Nat) (h : n ≤ steps.length) :
    (positions steps)[n]?.getD (0, 0) = consumed steps n := by
  rw [positions, positionsFrom_getElem? (0, 0) steps n h]
  rfl

/-- The steps between two positions of a script are a path between their lines. -/
theorem segment (h : Script old new steps) (hab : a ≤ b) :
    Path old new (consumed steps a).1 (consumed steps a).2 (slice steps a b)
      (consumed steps b).1 (consumed steps b).2 := by
  have hsplit : steps = steps.take a ++ (slice steps a b ++ steps.drop b) := by
    rw [slice_append_drop steps hab, List.take_append_drop]
  have htake : steps.take b = steps.take a ++ slice steps a b := by
    have := List.take_add (l := steps) (i := a) (j := b - a)
    rw [show a + (b - a) = b by omega] at this
    exact this
  rw [Script, hsplit] at h
  obtain ⟨i, j, hfirst, hrest⟩ := h.split
  obtain ⟨k, l, hmid, _⟩ := hrest.split
  have hstart : consumed steps a = (i, j) := hfirst.stop_eq
  have hend : consumed steps b = (k, l) := by
    rw [consumed, htake]
    exact (hfirst.append hmid).stop_eq
  rw [hstart, hend]
  exact hmid

theorem consumed_all (h : Script old new steps) :
    consumed steps steps.length = (old.length, new.length) := by
  rw [consumed, List.take_length]
  exact Path.stop_eq h

end Positions

section Ranges

variable {steps : List Step} {context : Nat}

/-- The ranges are in order and apart, and cover every change among the first `n`
steps. -/
structure Covers (steps : List Step) (n : Nat) (out : List (Nat × Nat)) : Prop where
  apart : out.Pairwise (fun a b => a.2 < b.1)
  bounds : ∀ range ∈ out, range.1 < range.2 ∧ range.2 ≤ steps.length
  started : ∀ range ∈ out, range.1 ≤ n
  kept : ∀ index < n, (∀ range ∈ out, ¬ (range.1 ≤ index ∧ index < range.2)) →
    ∀ step, steps[index]? = some step → isEqual step = true

theorem Covers.end_le {n : Nat} {init : List (Nat × Nat)} {last : Nat × Nat}
    (h : Covers steps n (init ++ [last])) (range : Nat × Nat) (hmem : range ∈ init ++ [last]) :
    range.2 ≤ last.2 := by
  have hlast := h.bounds last (by simp)
  rcases mem_append.mp hmem with hmem | hmem
  · have := (List.pairwise_append.mp h.apart).2.2 range hmem last (by simp)
    omega
  · rw [mem_singleton.mp hmem]

variable {out : List (Nat × Nat)}

/-- The two things `addGroup` does: widen the last range, or add one after it. -/
theorem addGroup_cases {n : Nat} (h : Covers steps n out) (len context index : Nat) :
    (∃ init last, out = init ++ [last] ∧ index - context ≤ last.2 ∧
      addGroup len context out index =
        init ++ [(last.1, max last.2 (min (index + context + 1) len))]) ∨
    ((∀ range ∈ out, range.2 < index - context) ∧
      addGroup len context out index =
        out ++ [(index - context, min (index + context + 1) len)]) := by
  rcases List.eq_nil_or_concat out with rfl | ⟨init, last, rfl⟩
  · exact .inr ⟨by simp, rfl⟩
  · rw [List.concat_eq_append] at h ⊢
    by_cases htouch : index - context ≤ last.2
    · exact .inl ⟨init, last, rfl, htouch, by simp [addGroup, htouch]⟩
    · refine .inr ⟨fun range hmem => ?_, by simp [addGroup, htouch]⟩
      have := h.end_le range hmem
      omega

theorem covers_addGroup (h : Covers steps index out) (hindex : index < steps.length) :
    Covers steps (index + 1) (addGroup steps.length context out index) := by
  rcases addGroup_cases h steps.length context index
    with ⟨init, last, rfl, htouch, hout⟩ | ⟨hlast, hout⟩
  · rw [hout]
    have hstarted := h.started last (by simp)
    have hbounds := h.bounds last (by simp)
    have hapart := List.pairwise_append.mp h.apart
    constructor
    · refine List.pairwise_append.mpr ⟨hapart.1, List.pairwise_singleton _ _, ?_⟩
      intro a ha b hb
      obtain rfl := mem_singleton.mp hb
      exact hapart.2.2 a ha last (by simp)
    · intro range hmem
      rcases mem_append.mp hmem with hmem | hmem
      · exact h.bounds range (by simp [hmem])
      · obtain rfl := mem_singleton.mp hmem
        constructor
        · show last.1 < max _ _
          omega
        · show max _ _ ≤ steps.length
          omega
    · intro range hmem
      rcases mem_append.mp hmem with hmem | hmem
      · have := h.started range (by simp [hmem])
        omega
      · obtain rfl := mem_singleton.mp hmem
        exact Nat.le_succ_of_le hstarted
    · intro other hother houtside step hstep
      have hwide := houtside _ (mem_append.mpr (.inr (mem_singleton.mpr rfl)))
      simp only [not_and, Nat.not_lt] at hwide
      by_cases hsame : other = index
      · have := hwide (by omega)
        omega
      · refine h.kept other (by omega) (fun range hmem => ?_) step hstep
        rcases mem_append.mp hmem with hmem | hmem
        · exact houtside range (by simp [hmem])
        · obtain rfl := mem_singleton.mp hmem
          intro hin
          have := hwide hin.1
          omega
  · rw [hout]
    constructor
    · refine List.pairwise_append.mpr ⟨h.apart, List.pairwise_singleton _ _, ?_⟩
      intro a ha b hb
      obtain rfl := mem_singleton.mp hb
      exact hlast a ha
    · intro range hmem
      rcases mem_append.mp hmem with hmem | hmem
      · exact h.bounds range hmem
      · obtain rfl := mem_singleton.mp hmem
        constructor
        · show index - context < min _ _
          omega
        · exact Nat.min_le_right _ _
    · intro range hmem
      rcases mem_append.mp hmem with hmem | hmem
      · have := h.started range hmem
        omega
      · obtain rfl := mem_singleton.mp hmem
        show index - context ≤ index + 1
        omega
    · intro other hother houtside step hstep
      by_cases hsame : other = index
      · have hnew := houtside _ (mem_append.mpr (.inr (mem_singleton.mpr rfl)))
        simp only [not_and, Nat.not_lt] at hnew
        have := hnew (by omega)
        omega
      · exact h.kept other (by omega) (fun range hmem => houtside range (by simp [hmem])) step hstep

theorem Covers.keep (h : Covers steps index out)
    (hkept : ∀ step, steps[index]? = some step → isEqual step = true) :
    Covers steps (index + 1) out := by
  refine ⟨h.apart, h.bounds, fun range hmem => Nat.le_succ_of_le (h.started range hmem), ?_⟩
  intro other hother houtside step hstep
  by_cases hsame : other = index
  · subst hsame
    exact hkept step hstep
  · exact h.kept other (by omega) houtside step hstep

/-- The fold over the steps from `first` on covers all of them. -/
theorem covers_fold (first rest : List Step) (hsteps : steps = first ++ rest)
    (out : List (Nat × Nat)) (h : Covers steps first.length out) :
    Covers steps steps.length ((rest.zipIdx first.length).foldl (fun out (step, index) =>
      if isEqual step then out else addGroup steps.length context out index) out) := by
  induction rest generalizing first out with
  | nil =>
    rw [hsteps, List.append_nil] at h ⊢
    exact h
  | cons step rest ih =>
    have hstep : steps[first.length]? = some step := by simp [hsteps]
    have hlt : first.length < steps.length := by simp [hsteps]
    have hnext := ih (first ++ [step]) (by simp [hsteps])
    rw [List.length_append, List.length_singleton] at hnext
    rw [List.zipIdx_cons, List.foldl_cons]
    apply hnext
    show Covers steps (first.length + 1)
      (if isEqual step then out else addGroup steps.length context out first.length)
    by_cases hkept : isEqual step = true
    · rw [if_pos hkept]
      apply h.keep
      intro other hother
      rw [hstep] at hother
      rw [← Option.some.inj hother]
      exact hkept
    · rw [if_neg hkept]
      exact covers_addGroup h hlt

theorem groups_cover (steps : List Step) (context : Nat) :
    Covers steps steps.length (groups steps context) := by
  refine covers_fold [] steps rfl [] ⟨List.Pairwise.nil, by simp, by simp, ?_⟩
  intro index hindex
  exact absurd hindex (Nat.not_lt_zero _)

end Ranges

section Reading

variable {old new : List Text} {steps : List Step}

theorem startOf_begin (start count : Nat) :
    (if count = 0 then startOf start count else startOf start count - 1) = start := by
  unfold startOf
  by_cases h : count = 0
  · simp [h]
  · simp [h]

/-- What the hunk of a range says, in terms of the lines its steps consume. -/
structure HunkSpec (old new : List Text) (steps : List Step) (range : Nat × Nat) (hunk : Hunk) :
    Prop where
  oldBegin : hunk.oldBegin = (consumed steps range.1).1
  newBegin : hunk.newBegin = (consumed steps range.1).2
  oldEnd : hunk.oldBegin + hunk.oldLines = (consumed steps range.2).1
  newEnd : hunk.newBegin + hunk.newLines = (consumed steps range.2).2
  oldStart : hunk.oldLines ≠ 0 → 0 < hunk.oldStart
  newStart : hunk.newLines ≠ 0 → 0 < hunk.newStart
  oldSide : oldSide hunk.lines = slice old (consumed steps range.1).1 (consumed steps range.2).1
  newSide : newSide hunk.lines = slice new (consumed steps range.1).2 (consumed steps range.2).2

theorem hunkAt_spec (h : Script old new steps) (range : Nat × Nat) (hle : range.1 ≤ range.2)
    (hlen : range.2 ≤ steps.length) :
    HunkSpec old new steps range (hunkAt old new steps range) := by
  obtain ⟨start, stop⟩ := range
  have hpath := segment h hle
  have hsides := path_sides hpath
  have hends := hpath.le
  simp only at hle hlen hpath hsides hends
  simp only [hunkAt, positions_getD steps start (by omega), positions_getD steps stop hlen]
  constructor
  · exact startOf_begin _ _
  · exact startOf_begin _ _
  · simp only [Hunk.oldBegin, startOf_begin]
    omega
  · simp only [Hunk.newBegin, startOf_begin]
    omega
  · intro hcount
    simp only at hcount
    simp [startOf, hcount]
  · intro hcount
    simp only at hcount
    simp [startOf, hcount]
  · exact hsides.1
  · exact hsides.2

/-- Steps outside every range keep the same lines on both sides. -/
theorem kept_between (h : Script old new steps) (hab : a ≤ b) (hb : b ≤ steps.length)
    (hkept : ∀ index, a ≤ index → index < b →
      ∀ step, steps[index]? = some step → isEqual step = true) :
    slice old (consumed steps a).1 (consumed steps b).1 =
      slice new (consumed steps a).2 (consumed steps b).2 := by
  apply slice_eq_of_kept (segment h hab)
  intro step hmem
  obtain ⟨n, hn, hget⟩ := List.getElem_of_mem hmem
  rw [slice_length steps a b hb] at hn
  apply hkept (a + n) (by omega) (by omega)
  rw [← hget]
  simp only [slice, List.getElem_take, List.getElem_drop]
  exact getElem?_eq_getElem _

/-- The ranges still to read after step `a`: `Covers`, for the steps from there on. -/
structure Remaining (steps : List Step) (a : Nat) (ranges : List (Nat × Nat)) : Prop where
  le : a ≤ steps.length
  apart : ranges.Pairwise (fun r r' => r.2 < r'.1)
  bounds : ∀ range ∈ ranges, a ≤ range.1 ∧ range.1 < range.2 ∧ range.2 ≤ steps.length
  kept : ∀ index, a ≤ index → index < steps.length →
    (∀ range ∈ ranges, ¬ (range.1 ≤ index ∧ index < range.2)) →
    ∀ step, steps[index]? = some step → isEqual step = true

variable {ranges : List (Nat × Nat)}

theorem Covers.remaining (h : Covers steps steps.length ranges) : Remaining steps 0 ranges := by
  refine ⟨Nat.zero_le _, h.apart, fun range hmem => ?_, fun index _ hlt => h.kept index hlt⟩
  have := h.bounds range hmem
  omega

theorem Remaining.tail (h : Remaining steps a (range :: ranges)) :
    Remaining steps range.2 ranges := by
  have hhead := h.bounds range (by simp)
  have hpair := pairwise_cons.mp h.apart
  refine ⟨hhead.2.2, hpair.2, fun other hmem => ?_, fun index hge hlt houtside => ?_⟩
  · have := hpair.1 other hmem
    have := h.bounds other (by simp [hmem])
    omega
  · refine h.kept index (by omega) hlt (fun other hmem => ?_)
    rcases List.mem_cons.mp hmem with rfl | hmem
    · omega
    · exact houtside other hmem

/-- Every step before the first range left keeps its line. -/
theorem Remaining.kept_before (h : Remaining steps a (range :: ranges)) (index : Nat)
    (hge : a ≤ index) (hlt : index < range.1) (step : Step) (hstep : steps[index]? = some step) :
    isEqual step = true := by
  have hhead := h.bounds range (by simp)
  refine h.kept index hge (by omega) (fun other hmem => ?_) step hstep
  rcases List.mem_cons.mp hmem with rfl | hmem
  · omega
  · have := (pairwise_cons.mp h.apart).1 other hmem
    omega

/-- Reading the hunks of the ranges left from the lines before step `a` on gives
the candidate's lines from there. The induction is on the ranges; `a` is the end
of the last range read. -/
theorem applyFrom_ranges (hscript : Script old new steps) (ranges : List (Nat × Nat)) (a : Nat)
    (h : Remaining steps a ranges) :
    applyFrom old (consumed steps a).1 (ranges.map (hunkAt old new steps)) =
      (new.drop (consumed steps a).2).flatten := by
  induction ranges generalizing a with
  | nil =>
    have hrest := kept_between hscript h.le (Nat.le_refl _)
      (fun index hge hlt => h.kept index hge hlt (by simp))
    rw [consumed_all hscript] at hrest
    simp only [slice] at hrest
    rw [List.take_of_length_le (by simp), List.take_of_length_le (by simp)] at hrest
    rw [List.map_nil, applyFrom, hrest]
  | cons range ranges ih =>
    obtain ⟨hstart, hlt, hend⟩ := h.bounds range (by simp)
    have hspec := hunkAt_spec hscript range (Nat.le_of_lt hlt) hend
    have hbefore := kept_between hscript hstart (by omega) h.kept_before
    have hgap := (segment hscript hstart).le
    have hbody := (segment hscript (Nat.le_of_lt hlt)).le
    have hlast := (segment hscript hend).le
    rw [consumed_all hscript] at hlast
    rw [List.map_cons, applyFrom, hspec.oldSide, hspec.newSide, hspec.oldBegin,
      slice_length old _ _ hlast.1,
      show (consumed steps range.1).1 + ((consumed steps range.2).1 - (consumed steps range.1).1) =
        (consumed steps range.2).1 by omega, ih range.2 h.tail, ← slice, hbefore,
      ← List.flatten_append, ← List.flatten_append, List.append_assoc,
      slice_append_drop new hbody.2, slice_append_drop new hgap.2]

end Reading

/-- A hunk's four numbers and its body agree with the lines of both texts. -/
structure Matches (old new : List Text) (hunk : Hunk) : Prop where
  oldStart : hunk.oldLines ≠ 0 → 0 < hunk.oldStart
  newStart : hunk.newLines ≠ 0 → 0 < hunk.newStart
  oldRange : hunk.oldBegin + hunk.oldLines ≤ old.length
  newRange : hunk.newBegin + hunk.newLines ≤ new.length
  oldLines : (oldSide hunk.lines).length = hunk.oldLines
  newLines : (newSide hunk.lines).length = hunk.newLines
  oldBody : oldSide hunk.lines = slice old hunk.oldBegin (hunk.oldBegin + hunk.oldLines)
  newBody : newSide hunk.lines = slice new hunk.newBegin (hunk.newBegin + hunk.newLines)

/-- One hunk ends, on both sides, before the next one begins. -/
def Before (a b : Hunk) : Prop :=
  a.oldBegin + a.oldLines < b.oldBegin ∧ a.newBegin + a.newLines < b.newBegin

section Hunks

variable {old new : List Text} {steps : List Step}

theorem matches_of_spec (h : Script old new steps) {hunk : Hunk} (hle : range.1 ≤ range.2)
    (hend : range.2 ≤ steps.length) (hspec : HunkSpec old new steps range hunk) :
    Matches old new hunk := by
  have hlast := (segment h hend).le
  have hbody := (segment h hle).le
  rw [consumed_all h] at hlast
  obtain ⟨oldBegin, newBegin, oldEnd, newEnd, oldStart, newStart, hold, hnew⟩ := hspec
  constructor
  · exact oldStart
  · exact newStart
  · omega
  · omega
  · rw [hold, slice_length old _ _ hlast.1]
    omega
  · rw [hnew, slice_length new _ _ hlast.2]
    omega
  · rw [hold, oldEnd, oldBegin]
  · rw [hnew, newEnd, newBegin]

/-- A kept line is consumed on both sides. -/
theorem consumed_succ {n : Nat} {step : Step} (hstep : steps[n]? = some step)
    (hkept : isEqual step = true) :
    consumed steps (n + 1) = ((consumed steps n).1 + 1, (consumed steps n).2 + 1) := by
  have htake : steps.take (n + 1) = steps.take n ++ [step] := by
    rw [List.take_add_one, hstep]
    rfl
  rw [consumed, htake, stop, List.foldl_append]
  cases step with
  | equal a b => rfl
  | delete | insert => cases hkept

/-- The line kept after a range sets its hunk apart from the next on both sides. -/
theorem hunks_apart (hscript : Script old new steps) (ranges : List (Nat × Nat)) (a : Nat)
    (h : Remaining steps a ranges) :
    (ranges.map (hunkAt old new steps)).Pairwise Before := by
  induction ranges generalizing a with
  | nil => exact List.Pairwise.nil
  | cons range ranges ih =>
    rw [List.map_cons, pairwise_cons]
    refine ⟨fun hunk hmem => ?_, ih range.2 h.tail⟩
    obtain ⟨other, hother, rfl⟩ := List.mem_map.mp hmem
    have hhead := h.bounds range (by simp)
    have hnext := h.bounds other (by simp [hother])
    have hlt := (pairwise_cons.mp h.apart).1 other hother
    have hindex : range.2 < steps.length := by omega
    have hgetElem := getElem?_eq_getElem hindex
    have hkept : isEqual steps[range.2] = true := by
      refine h.kept range.2 (by omega) hindex (fun r hmem => ?_) _ hgetElem
      rcases List.mem_cons.mp hmem with rfl | hmem
      · omega
      · have := (pairwise_cons.mp h.apart).1 r hmem
        omega
    have hsucc := consumed_succ hgetElem hkept
    have hle := (segment hscript (show range.2 + 1 ≤ other.1 from hlt)).le
    have hspec := hunkAt_spec hscript range (by omega) hhead.2.2
    have hspec' := hunkAt_spec hscript other (by omega) hnext.2.2
    rw [Before, hspec.oldEnd, hspec.newEnd, hspec'.oldBegin, hspec'.newBegin]
    rw [hsucc] at hle
    omega

/-- Lines that differ leave a range to show. -/
theorem groups_ne_nil (hscript : Script old new steps) (context : Nat) (hne : old ≠ new) :
    groups steps context ≠ [] := by
  intro hnil
  have hremaining := (groups_cover steps context).remaining
  rw [hnil] at hremaining
  have hread := kept_between hscript (Nat.zero_le _) (Nat.le_refl _)
    (fun index hge hlt => hremaining.kept index hge hlt (by simp))
  rw [consumed_all hscript] at hread
  apply hne
  simpa [slice, consumed, stop] using hread

end Hunks

theorem splitLines_injective {a b : Text} (h : splitLines a = splitLines b) : a = b := by
  rw [← flatten_linesInclusive a, ← flatten_linesInclusive b]
  exact congrArg List.flatten h

/-- The hunks of two texts are an exact edit script: they read the candidate back
from the original, stand in order and apart on both sides, say where their bodies
stand, and are missing exactly when there is nothing to show. -/
theorem hunks_are_edit_script (old new : Text) (context : Nat) :
    applyHunks old (diff old new context) = new ∧
      (diff old new context).Pairwise Before ∧
      (∀ hunk ∈ diff old new context, Matches (splitLines old) (splitLines new) hunk) ∧
      (diff old new context = [] ↔ old = new) := by
  by_cases hsame : splitLines old = splitLines new
  · have htext := splitLines_injective hsame
    have hdiff : diff old new context = [] := by simp [diff, hsame]
    rw [hdiff]
    refine ⟨?_, List.Pairwise.nil, by simp, by simp [htext]⟩
    rw [applyHunks, applyFrom, List.drop_zero, splitLines, flatten_linesInclusive, htext]
  · have hscript := alignOrReplace_script (splitLines old) (splitLines new)
    have hremaining := (groups_cover (alignOrReplace (splitLines old) (splitLines new))
      context).remaining
    have hdiff : diff old new context =
        (groups (alignOrReplace (splitLines old) (splitLines new)) context).map
          (hunkAt (splitLines old) (splitLines new)
            (alignOrReplace (splitLines old) (splitLines new))) := by
      simp [diff, hsame]
    rw [hdiff]
    refine ⟨?_, hunks_apart hscript _ 0 hremaining, ?_, ?_⟩
    · have hread := applyFrom_ranges hscript _ 0 hremaining
      rw [show consumed (alignOrReplace (splitLines old) (splitLines new)) 0 = (0, 0) from rfl,
        List.drop_zero, splitLines, splitLines, flatten_linesInclusive] at hread
      exact hread
    · intro hunk hmem
      obtain ⟨range, hrange, rfl⟩ := List.mem_map.mp hmem
      have hbounds := hremaining.bounds range hrange
      have hspec := hunkAt_spec hscript range (by omega) hbounds.2.2
      exact matches_of_spec hscript (by omega) hbounds.2.2 hspec
    · rw [List.map_eq_nil_iff]
      constructor
      · intro hnil
        exact absurd hnil (groups_ne_nil hscript context hsame)
      · intro htext
        exact absurd (congrArg splitLines htext) hsame

end Detent.Guarantees.Hunks
