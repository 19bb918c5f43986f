import Mathlib.Data.List.Sort
import Detent.Lib.Utf8
import Detent.Source.Align

/-!
# The line-oriented document

`crates/detent-core/src/doc.rs` and `crates/detent-core/src/module.rs`: a config
file as lines that keep their exact text and terminator, and the edits of it.
Spans are byte offsets, so `len` is the length of the UTF-8 encoding.
-/
namespace Detent.Source.Doc
open Lib Lib.Text Source.Align

structure Span where
  start : Nat
  stop : Nat
  deriving DecidableEq, Repr

/-- The terminator that followed a line. -/
inductive LineEnding where
  | lf
  | crLf
  | none
  deriving DecidableEq, Repr

def LineEnding.asStr : LineEnding → Text
  | .lf => ['\n']
  | .crLf => ['\r', '\n']
  | .none => []

inductive LineKind where
  | blank
  | comment
  | directive
  | unknown
  deriving DecidableEq, Repr

structure Line where
  kind : LineKind
  raw : Text
  ending : LineEnding
  span : Span
  deriving DecidableEq, Repr

inductive EditError where
  | lineBreakInValue (value : Text)
  | indexOutOfRange (index len : Nat)
  | unsupported (message : String)
  deriving DecidableEq, Repr

structure EditReport where
  changedLines : Nat
  added : Nat
  removed : Nat
  deriving DecidableEq, Repr

/-- `str::len`. -/
def len (text : Text) : Nat := (utf8 text).length

structure Document where
  lines : List Line
  classify : Text → LineKind

/-- The text and the terminator of one segment of `split_inclusive('\n')`. -/
def splitEnding (segment : Text) : Text × LineEnding :=
  match stripLast '\n' segment with
  | some body =>
    match stripLast '\r' body with
    | some body => (body, .crLf)
    | none => (body, .lf)
  | none => (segment, .none)

/-- The lines of the segments from byte `offset` on. -/
def parseFrom (classify : Text → LineKind) : Nat → List Text → List Line
  | _, [] => []
  | offset, segment :: segments =>
    let (raw, ending) := splitEnding segment
    { kind := classify raw, raw := raw, ending := ending,
      span := ⟨offset, offset + len raw⟩ } ::
        parseFrom classify (offset + len segment) segments

def parse (src : Text) (classify : Text → LineKind) : Document where
  lines := parseFrom classify 0 (linesInclusive src)
  classify := classify

def renderLine (line : Line) : Text := line.raw ++ line.ending.asStr

def Document.render (doc : Document) : Text := doc.lines.flatMap renderLine

/-- The ending new lines inherit. -/
def dominantEnding (lines : List Line) : LineEnding :=
  if lines.countP (·.ending == .crLf) > lines.countP (·.ending == .lf) then .crLf else .lf

/-- Rejects text that would break out of its line. -/
def checkRaw (raw : Text) : Except EditError Unit :=
  if raw.any (fun c => c == '\n' || c == '\r' || c == '\x00') then .error (.lineBreakInValue raw)
  else .ok ()

/-- A carriage return before an `Lf` moves into the terminator. -/
def moveCr (line : Line) : Line :=
  if line.ending = .lf ∧ line.raw.getLast? = some '\r' then
    { line with raw := line.raw.dropLast, ending := .crLf }
  else line

/-- A last line without text and terminator renders as nothing. -/
def dropEmptyLast (lines : List Line) : List Line :=
  match lines.getLast? with
  | some last => if last.ending = .none ∧ last.raw = [] then lines.dropLast else lines
  | none => lines

def respan : Nat → List Line → List Line
  | _, [] => []
  | offset, line :: lines =>
    { line with span := ⟨offset, offset + len line.raw⟩ } ::
      respan (offset + len line.raw + len line.ending.asStr) lines

def normalize (lines : List Line) : List Line := respan 0 (dropEmptyLast (lines.map moveCr))

/-- `last.ending = ending` where there is a last line. -/
def setLastEnding (lines : List Line) (ending : LineEnding) : List Line :=
  match lines.getLast? with
  | some last => lines.dropLast ++ [{ last with ending := ending }]
  | none => lines

def endsUnterminated (lines : List Line) : Bool :=
  match lines.getLast? with
  | some last => last.ending == .none
  | none => false

/-- A line as an edit makes it; `normalize` fills in the span. -/
def newLine (classify : Text → LineKind) (raw : Text) (ending : LineEnding) : Line :=
  { kind := classify raw, raw := raw, ending := ending, span := ⟨0, 0⟩ }

def Document.insertLine (doc : Document) (idx : Nat) (raw : Text) : Except EditError Document := do
  checkRaw raw
  if idx > doc.lines.length then .error (.indexOutOfRange idx doc.lines.length)
  else
    let dominant := dominantEnding doc.lines
    let lines :=
      if idx = doc.lines.length ∧ endsUnterminated doc.lines then
        setLastEnding doc.lines dominant ++ [newLine doc.classify raw .none]
      else doc.lines.take idx ++ newLine doc.classify raw dominant :: doc.lines.drop idx
    pure { doc with lines := normalize lines }

def Document.replaceRaw (doc : Document) (idx : Nat) (raw : Text) : Except EditError Document := do
  checkRaw raw
  match doc.lines[idx]? with
  | none => .error (.indexOutOfRange idx doc.lines.length)
  | some line =>
    let line := { line with kind := doc.classify raw, raw := raw }
    pure { doc with lines := normalize (doc.lines.set idx line) }

def Document.removeLine (doc : Document) (idx : Nat) : Except EditError Document :=
  match doc.lines[idx]? with
  | none => .error (.indexOutOfRange idx doc.lines.length)
  | some removed =>
    let lines := doc.lines.eraseIdx idx
    let lines := if removed.ending = .none then setLastEnding lines .none else lines
    .ok { doc with lines := normalize lines }

/-- `(line, raw)` rewrites, removed lines and `(at, raw)` inserts. -/
structure EntryPlan where
  replace : List (Nat × Text) := []
  remove : List Nat := []
  insert : List (Nat × Text) := []
  deriving DecidableEq, Repr

namespace EntryPlan

def extend (plan other : EntryPlan) : EntryPlan where
  replace := plan.replace ++ other.replace
  remove := plan.remove ++ other.remove
  insert := plan.insert ++ other.insert

def addReplace (plan : EntryPlan) (line : Nat) (raw : Text) : Except EditError EntryPlan := do
  checkRaw raw
  pure { plan with replace := plan.replace ++ [(line, raw)] }

def addRemove (plan : EntryPlan) (line : Nat) : EntryPlan :=
  { plan with remove := plan.remove ++ [line] }

def addInsert (plan : EntryPlan) (place : Nat) (raw : Text) : Except EditError EntryPlan := do
  checkRaw raw
  pure { plan with insert := plan.insert ++ [(place, raw)] }

end EntryPlan

/-- The rewrite of `row`, when it is the next one, and the rewrites left. -/
def nextReplace (row : Nat) : List (Nat × Text) → Option Text × List (Nat × Text)
  | [] => (none, [])
  | (line, raw) :: rest => if line = row then (some raw, rest) else (none, (line, raw) :: rest)

/-- The one pass of `apply_plan` over the old lines, from line `row` on, with the
edits left in each sorted list. -/
def merge (classify : Text → LineKind) (dominant : LineEnding) :
    Nat → List Line → List (Nat × Text) → List Nat → List (Nat × Text) → List Line
  | _, [], _, _, insert => insert.map (fun (_, raw) => newLine classify raw dominant)
  | row, line :: lines, replace, remove, insert =>
    let before := (insert.takeWhile (fun (place, _) => decide (place ≤ row))).map
      (fun (_, raw) => newLine classify raw dominant)
    let insert := insert.dropWhile (fun (place, _) => decide (place ≤ row))
    if remove.head? = some row then
      before ++ merge classify dominant (row + 1) lines replace remove.tail insert
    else
      let (raw, replace) := nextReplace row replace
      let line := match raw with
        | some raw => { line with kind := classify raw, raw := raw }
        | none => line
      let line := if line.ending = .none then { line with ending := dominant } else line
      before ++ line :: merge classify dominant (row + 1) lines replace remove insert

def Document.applyPlan (doc : Document) (plan : EntryPlan) : Document × EditReport :=
  let report : EditReport :=
    ⟨plan.replace.length, plan.insert.length, plan.remove.length⟩
  let replace := plan.replace.insertionSort (fun a b => a.1 ≤ b.1)
  let remove := plan.remove.insertionSort (· ≤ ·)
  let insert := plan.insert.insertionSort (fun a b => a.1 ≤ b.1)
  let merged := merge doc.classify (dominantEnding doc.lines) 0 doc.lines replace remove insert
  let lines := if endsUnterminated doc.lines then setLastEnding merged .none else merged
  ({ doc with lines := normalize lines }, report)

/-- Where one wanted entry ends up: on an existing line, or on a new one. -/
inductive Slot where
  | line (row : Nat)
  | new (raw : Text)
  deriving DecidableEq, Repr

section Plan

variable {T : Type} [DecidableEq T]

/-- The `for` loop of `settle_run`: deleted lines are paired with new entries. -/
def settleRun (render : T → Except EditError Text) :
    List Nat → List T → EntryPlan → List Slot → Except EditError (EntryPlan × List Slot)
  | gone, [], plan, slots => pure ({ plan with remove := plan.remove ++ gone }, slots)
  | gone, entry :: inserted, plan, slots => do
    let raw ← render entry
    checkRaw raw
    match gone with
    | row :: gone =>
      settleRun render gone inserted { plan with replace := plan.replace ++ [(row, raw)] }
        (slots ++ [.line row])
    | [] => settleRun render [] inserted plan (slots ++ [.new raw])

/-- The `for step in steps` loop, with the run of changes since the last kept entry. -/
def settleSteps (rows : List Nat) (wanted : List T) (render : T → Except EditError Text) :
    List Step → List Nat → List T → EntryPlan → List Slot →
      Except EditError (EntryPlan × List Slot)
  | [], deleted, inserted, plan, slots => settleRun render deleted inserted plan slots
  | .delete old :: steps, deleted, inserted, plan, slots =>
    settleSteps rows wanted render steps (deleted ++ rows[old]?.toList) inserted plan slots
  | .insert new :: steps, deleted, inserted, plan, slots =>
    settleSteps rows wanted render steps deleted (inserted ++ wanted[new]?.toList) plan slots
  | .equal old _ :: steps, deleted, inserted, plan, slots => do
    let (plan, slots) ← settleRun render deleted inserted plan slots
    settleSteps rows wanted render steps [] [] plan (slots ++ (rows[old]?.map Slot.line).toList)

/-- The line of the next entry that has one, after the first of `slots`. -/
def nextRow : List Slot → Option Nat
  | [] => none
  | .line row :: _ => some row
  | .new _ :: slots => nextRow slots

/-- Moves `stop` back over blank and comment lines, never before `start`. -/
def retreat (lines : List Line) (start : Nat) : Nat → Nat
  | 0 => 0
  | stop + 1 =>
    if stop + 1 > start ∧
        lines[stop]?.any (fun line => line.kind == .blank || line.kind == .comment) then
      retreat lines start stop
    else stop + 1

/-- Where the section that holds line `start - 1` ends. -/
def sectionEnd (lines : List Line) (start limit : Nat) (opensSection : Text → Bool) : Nat :=
  let stop := ((((lines.zipIdx).take limit).drop start).find?
    (fun (line, _) => opensSection line.raw)).elim limit (·.2)
  retreat lines start stop

/-- The last loop of `plan_entries`: the place of each new line. -/
def placeSlots (lines : List Line) (opensSection : Text → Bool) :
    List Slot → Option Nat → List (Nat × Text) → List (Nat × Text)
  | [], _, insert => insert
  | .line row :: slots, _, insert => placeSlots lines opensSection slots (some (row + 1)) insert
  | .new raw :: slots, place, insert =>
    let limit := (nextRow slots).getD lines.length
    let here := match place with
      | some start =>
        if opensSection raw then sectionEnd lines start limit opensSection else start
      | none => limit
    placeSlots lines opensSection slots (some here) (insert ++ [(here, raw)])

/-- The lines that hold an entry, with the entries. -/
def entryRows (lines : List Line) (parse : Text → Option T) : List (Nat × T) :=
  lines.zipIdx.filterMap (fun (line, row) =>
    if line.kind = .directive then (parse line.raw).map (fun entry => (row, entry)) else none)

def Document.planEntries (doc : Document) (wanted : List T) (parse : Text → Option T)
    (render : T → Except EditError Text) (opensSection : Text → Bool) :
    Except EditError EntryPlan := do
  let found := entryRows doc.lines parse
  let steps := alignOrReplace (found.map (·.2)) wanted
  let (plan, slots) ← settleSteps (found.map (·.1)) wanted render steps [] [] {} []
  pure { plan with insert := placeSlots doc.lines opensSection slots none plan.insert }

def Document.editEntries (doc : Document) (wanted : List T) (parse : Text → Option T)
    (render : T → Except EditError Text) (opensSection : Text → Bool) :
    Except EditError (Document × EditReport) := do
  let plan ← doc.planEntries wanted parse render opensSection
  pure (doc.applyPlan plan)

end Plan

end Detent.Source.Doc
