import Detent.Lib.Text
import Detent.Source.Align

/-!
# The line diff of a plan preview

`crates/detent-ops/src/diff.rs`: unified-diff hunks over lines that keep their
own terminator. `applyHunks` is the inverse the source's own tests state.
-/
namespace Detent.Source.Diff
open Lib Lib.Text Source.Align

/-- One line of a hunk, with its terminator when the source line had one. -/
inductive DiffLine where
  | context (text : Text)
  | delete (text : Text)
  | insert (text : Text)
  deriving DecidableEq, Repr

structure Hunk where
  oldStart : Nat
  oldLines : Nat
  newStart : Nat
  newLines : Nat
  lines : List DiffLine
  deriving DecidableEq, Repr

def DiffLine.text : DiffLine → Text
  | .context text | .delete text | .insert text => text

def DiffLine.marker : DiffLine → Char
  | .context _ => ' '
  | .delete _ => '-'
  | .insert _ => '+'

def Hunk.header (hunk : Hunk) : String :=
  s!"@@ -{hunk.oldStart},{hunk.oldLines} +{hunk.newStart},{hunk.newLines} @@"

/-- A line of a hunk as `render_unified` writes it. -/
def renderLine (line : DiffLine) : String :=
  let out := String.ofList (line.marker :: line.text)
  if line.text.getLast? = some '\n' then out else out ++ "\n\\ No newline at end of file\n"

/-- `render_unified`. -/
def renderUnified (oldLabel newLabel : String) (hunks : List Hunk) : String :=
  if hunks.isEmpty then ""
  else s!"--- {oldLabel}\n+++ {newLabel}\n" ++ String.join (hunks.map (fun hunk =>
    hunk.header ++ "\n" ++ String.join (hunk.lines.map renderLine)))

def splitLines (text : Text) : List Text := linesInclusive text

/-- Lines of both sides consumed before each step, with one entry more for
"after the last step". -/
def positionsFrom (point : Nat × Nat) : List Step → List (Nat × Nat)
  | [] => [point]
  | step :: steps => point :: positionsFrom (step.move point) steps

def positions (steps : List Step) : List (Nat × Nat) := positionsFrom (0, 0) steps

def isEqual : Step → Bool
  | .equal _ _ => true
  | _ => false

/-- Adds the range around the changed step `index`, merged with the last range
when they overlap or touch. -/
def addGroup (len context : Nat) (out : List (Nat × Nat)) (index : Nat) : List (Nat × Nat) :=
  let start := index - context
  let stop := min (index + context + 1) len
  match out.getLast? with
  | some last =>
    if start ≤ last.2 then out.dropLast ++ [(last.1, max last.2 stop)] else out ++ [(start, stop)]
  | none => out ++ [(start, stop)]

/-- The ranges of steps that a hunk must cover. -/
def groups (steps : List Step) (context : Nat) : List (Nat × Nat) :=
  steps.zipIdx.foldl (fun out (step, index) =>
    if isEqual step then out else addGroup steps.length context out index) []

/-- A unified-diff start line. -/
def startOf (start count : Nat) : Nat := if count = 0 then start else start + 1

def textAt (lines : List Text) (index : Nat) : Text := lines[index]?.getD []

def diffLine (oldLines newLines : List Text) : Step → DiffLine
  | .equal index _ => .context (textAt oldLines index)
  | .delete index => .delete (textAt oldLines index)
  | .insert index => .insert (textAt newLines index)

/-- The hunk for the steps `start..stop`. -/
def hunkAt (oldLines newLines : List Text) (steps : List Step) (range : Nat × Nat) : Hunk :=
  let (start, stop) := range
  let (oldBegin, newBegin) := (positions steps)[start]?.getD (0, 0)
  let (oldEnd, newEnd) := (positions steps)[stop]?.getD (0, 0)
  let oldCount := oldEnd - oldBegin
  let newCount := newEnd - newBegin
  { oldStart := startOf oldBegin oldCount
    oldLines := oldCount
    newStart := startOf newBegin newCount
    newLines := newCount
    lines := ((steps.drop start).take (stop - start)).map (diffLine oldLines newLines) }

def diff (old new : Text) (context : Nat) : List Hunk :=
  let oldLines := splitLines old
  let newLines := splitLines new
  if oldLines = newLines then []
  else
    let steps := alignOrReplace oldLines newLines
    (groups steps context).map (hunkAt oldLines newLines steps)

/-- The original lines a hunk body covers. -/
def oldSide (body : List DiffLine) : List Text :=
  body.filterMap fun
    | .context text => some text
    | .delete text => some text
    | .insert _ => none

/-- The candidate lines a hunk body covers. -/
def newSide (body : List DiffLine) : List Text :=
  body.filterMap fun
    | .context text => some text
    | .delete _ => none
    | .insert text => some text

/-- The original lines before the hunk: the start line is one-based, except for
a side without lines. -/
def Hunk.oldBegin (hunk : Hunk) : Nat :=
  if hunk.oldLines = 0 then hunk.oldStart else hunk.oldStart - 1

def Hunk.newBegin (hunk : Hunk) : Nat :=
  if hunk.newLines = 0 then hunk.newStart else hunk.newStart - 1

/-- Reads the hunks from original line `cursor` on. -/
def applyFrom (lines : List Text) : Nat → List Hunk → Text
  | cursor, [] => (lines.drop cursor).flatten
  | cursor, hunk :: hunks =>
    ((lines.drop cursor).take (hunk.oldBegin - cursor)).flatten ++ (newSide hunk.lines).flatten ++
      applyFrom lines (hunk.oldBegin + (oldSide hunk.lines).length) hunks

/-- The candidate text read back from the original and the hunks. -/
def applyHunks (old : Text) (hunks : List Hunk) : Text := applyFrom (splitLines old) 0 hunks

end Detent.Source.Diff
