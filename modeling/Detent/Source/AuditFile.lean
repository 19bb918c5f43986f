import Detent.Source.Engine

/-!
# The audit file

`crates/detent-ops/src/audit.rs:42-51,179-227,328-373,440-621`: `FileAudit` over
the contents of the log and of the rotated log `<name>.1`, with its appends, its
queries and the reader that takes lines from the end of a file.

Owners, modes, symbolic links and the append lock are left out: a call sees the
two files as the call before it left them, or as a crash left them.
-/
namespace Detent.Source.AuditFile
open Lib AuditLog Engine

def defaultAuditQueryLimit : Nat := 100
def maxAuditQueryLimit : Nat := 1000

/-- Bytes read per step when a file is read from its end. -/
def tailChunk : Nat := 64 * 1024

/-- `AuditQuery::matches`. -/
def queryMatches (query : AuditQuery) (record : AuditRecord) : Bool :=
  let moduleOk := match query.module with
    | some want => record.module == some want
    | none => true
  let whoOk := match query.who with
    | some want => record.who == want
    | none => true
  moduleOk && whoOk

/-- `AuditQuery::effective_limit`. -/
def effectiveLimit (query : AuditQuery) : Nat :=
  min (query.limit.getD defaultAuditQueryLimit) maxAuditQueryLimit

/-- `TailLines`: the bytes before `pos` are not read yet, `carry` is the start of
the earliest line read so far, `ready` the whole lines read, oldest first. -/
structure TailLines where
  file : Bytes
  pos : Nat
  carry : Bytes
  ready : List Bytes
  deriving DecidableEq, Repr

/-- `TailLines::open` on a file that exists. -/
def TailLines.ofFile (file : Bytes) : TailLines :=
  { file, pos := file.length, carry := [], ready := [] }

/-- The part of `next_line` that reads one more chunk before the carry. -/
def TailLines.readChunk (t : TailLines) : TailLines :=
  let step := min t.pos tailChunk
  let pos := t.pos - step
  let chunk := (t.file.drop pos).take step
  match (chunk ++ t.carry).splitOn newline with
  | [] => { t with pos, carry := [], ready := [] }
  | first :: parts => { t with pos, carry := first, ready := parts }

theorem TailLines.readChunk_pos (t : TailLines) :
    t.readChunk.pos = t.pos - min t.pos tailChunk := by
  unfold readChunk
  dsimp only
  split <;> rfl

/-- `TailLines::next_line`: the line before the last one returned. -/
def TailLines.nextLine (t : TailLines) : Option Bytes × TailLines :=
  match t.ready.getLast? with
  | some line => (some line, { t with ready := t.ready.dropLast })
  | none =>
    if t.pos = 0 then
      if t.carry.isEmpty then (none, t) else (some t.carry, { t with carry := [] })
    else t.readChunk.nextLine
termination_by t.pos
decreasing_by
  rw [TailLines.readChunk_pos, tailChunk]
  omega

/-- Bytes and lines still to be returned. -/
def TailLines.size (t : TailLines) : Nat :=
  t.pos + t.carry.length + (t.ready.map (fun line => line.length + 1)).sum

theorem TailLines.size_readChunk (t : TailLines) (h : t.ready = []) :
    t.readChunk.size ≤ t.size := by
  have hsum : (((((t.file.drop (t.pos - min t.pos tailChunk)).take (min t.pos tailChunk) ++
      t.carry).splitOn newline).map (fun line : Bytes => line.length + 1)).sum) = _ :=
    sum_length_splitOn newline _
  unfold readChunk
  dsimp only
  split
  next hsplit => exact absurd hsplit (List.splitOn_ne_nil _ _)
  next first parts hsplit =>
    rw [hsplit] at hsum
    simp only [size, h, List.map_nil, List.sum_nil, List.map_cons, List.sum_cons,
      List.length_append, List.length_take] at hsum ⊢
    omega

theorem TailLines.size_nextLine (t : TailLines) (line : Bytes)
    (h : t.nextLine.1 = some line) : t.nextLine.2.size < t.size := by
  induction t using TailLines.nextLine.induct with
  | case1 t last hlast =>
    unfold nextLine
    simp only [hlast, size]
    have hready : t.ready = t.ready.dropLast ++ [last] := by
      obtain ⟨hne, heq⟩ := List.getLast?_eq_some_iff.mp hlast
      rw [heq]
      simp
    conv_rhs => rw [hready]
    simp only [List.map_append, List.sum_append, List.map_cons, List.map_nil, List.sum_cons,
      List.sum_nil]
    omega
  | case2 t hready hpos hcarry =>
    unfold nextLine at h
    simp [hready, hpos, hcarry] at h
  | case3 t hready hpos hcarry =>
    unfold nextLine
    have hne : t.carry ≠ [] := by simpa using hcarry
    have := List.length_pos_of_ne_nil hne
    simp only [hready, hpos, hcarry, size, if_true, Bool.false_eq_true, if_false, List.length_nil]
    omega
  | case4 t hready hpos ih =>
    have hnil : t.ready = [] := List.getLast?_eq_none_iff.mp hready
    unfold nextLine at h ⊢
    simp only [hready, hpos, if_false] at h ⊢
    exact Nat.lt_of_lt_of_le (ih h) (size_readChunk t hnil)

/-- The lines a loop over `next_line` reads, last first. -/
def TailLines.lines (t : TailLines) : List Bytes :=
  match _h : t.nextLine with
  | (none, _) => []
  | (some line, rest) => line :: rest.lines
termination_by t.size
decreasing_by
  have hsize := TailLines.size_nextLine t line (by rw [_h])
  rw [_h] at hsize
  exact hsize

/-- The files of a sink: the log and the rotated log. -/
structure Logs where
  log : Option Bytes
  rotated : Option Bytes
  deriving DecidableEq, Repr

/-- The chain of a line that holds a chained record. -/
def chainOf (x : Backend) (line : Bytes) : Option AuditChain :=
  match x.fromSlice line with
  | .ok record => record.chain
  | .error _ => none

/-- `rotated_anchor`, given the contents of the rotated log: the chain of its
last record. -/
def rotatedAnchor (x : Backend) (rotated : Option Bytes) : Option AuditChain :=
  match rotated with
  | none => none
  | some raw => (TailLines.ofFile raw).lines.findSome? (chainOf x)

/-- Unreadable lines collected newest first, as the bytes they were in the file. -/
def gapBytes (newestFirst : List Bytes) : Bytes :=
  newestFirst.reverse.flatMap (fun line => line ++ [newline])

/-- `check_link` on the newest record read so far, when there is one. -/
def linkNewer (x : Backend) (newer : Option AuditRecord) (previous : Option AuditChain)
    (gap : List Bytes) : Except AuditError Unit :=
  match newer with
  | some record => checkLink x record previous (gapBytes gap) none
  | none => .ok ()

/-- The loop of `query` over the lines from the last to the first. `newer` is the
newest record read so far, `gap` the unreadable lines read since it. -/
def queryLines (x : Backend) (start : Option AuditChain) (query : AuditQuery) (limit : Nat) :
    List Bytes → Option AuditRecord → List Bytes → List AuditRecord →
      Except AuditError (List AuditRecord)
  | [], newer, gap, out => do
    linkNewer x newer start gap
    .ok out
  | line :: lines, newer, gap, out =>
    if isBlank line then queryLines x start query limit lines newer gap out
    else
      match x.fromSlice line with
      | .error _ => queryLines x start query limit lines newer (gap ++ [line]) out
      | .ok record =>
        match record.chain with
        | none => .error (.chain "a record has no chain metadata")
        | some chain => do
          let own ← makeChain x record none
          if own.hash ≠ chain.hash then
            .error (.chain s!"record {chain.sequence.val} hash does not match its contents")
          else
            linkNewer x newer (some chain) gap
            if queryMatches query record then
              if (out ++ [record]).length = limit then .ok (out ++ [record])
              else queryLines x start query limit lines (some record) [] (out ++ [record])
            else queryLines x start query limit lines (some record) [] out

/-- `FileAudit::query`, given the chain `rotated_anchor` returns and the contents
of the log. -/
def query (x : Backend) (start : Option AuditChain) (log : Option Bytes) (query : AuditQuery) :
    Except AuditError (List AuditRecord) :=
  let limit := effectiveLimit query
  if limit = 0 then .ok []
  else
    match log with
    | none => .ok []
    | some raw => queryLines x start query limit (TailLines.ofFile raw).lines none [] []

/-- What a call has decided before it touches the files: whether it rotates, and
the bytes it appends. -/
structure Append where
  rotate : Bool
  line : Bytes
  deriving DecidableEq, Repr

/-- `u64::try_from(raw.len()).unwrap_or(u64::MAX) > self.rotate_bytes`, for a log
that exists. -/
def rotates (rotateBytes : Nat) (log : Option Bytes) : Bool :=
  match log with
  | none => false
  | some raw => decide (rotateBytes < min raw.length (2 ^ 64 - 1))

/-- Whether the log ends in a line without its newline. -/
def endsOpen (log : Option Bytes) : Bool :=
  match log.bind (·.getLast?) with
  | none => false
  | some last => last != newline

/-- The scan of `record`: a log that does not exist yet continues the rotated one
at once. -/
def scanLog (x : Backend) (start : Option AuditChain) (log : Option Bytes) :
    Except AuditError Scan :=
  match log with
  | some raw => (scanRecords x raw start).map Prod.fst
  | none => .ok { anchor := start, gap := [] }

/-- `FileAudit::record` up to the rename. -/
def prepare (x : Backend) (rotateBytes : Nat) (logs : Logs) (record : AuditRecord) :
    Except AuditError Append := do
  let scan ← scanLog x (rotatedAnchor x logs.rotated) logs.log
  let rotate := rotates rotateBytes logs.log
  let chain ← makeChain x record scan.anchor
  -- A torn line that stays behind in the rotated log is no gap in the new file.
  let chain := if !scan.gap.isEmpty && !rotate then
    { chain with torn := some (x.sha256Hex scan.gap) } else chain
  let stored := { record with chain := some chain }
  match x.toVec stored with
  | .error err => .error (.encode err)
  | .ok json =>
    let lead := if !rotate && endsOpen logs.log then [newline] else []
    .ok { rotate, line := lead ++ json ++ [newline] }

/-- The rename of a rotation. -/
def Append.rename (a : Append) (logs : Logs) : Logs :=
  if a.rotate then { log := none, rotated := logs.log } else logs

/-- The first `n` bytes of the line are in the log, which is created when absent. -/
def Append.write (a : Append) (logs : Logs) (n : Nat) : Logs :=
  { logs with log := some (logs.log.getD [] ++ a.line.take n) }

/-- `FileAudit::record`: the files after an append that no crash cuts. -/
def record (x : Backend) (rotateBytes : Nat) (logs : Logs) (record : AuditRecord) :
    Except AuditError Logs := do
  let a ← prepare x rotateBytes logs record
  .ok (a.write (a.rename logs) a.line.length)

/-- Where a crash cuts an append: after the rename, when there is one, or after
some bytes of the line. -/
inductive Crash where
  | afterRename
  | afterBytes (n : Nat)
  deriving DecidableEq, Repr

/-- The files a crash leaves behind. A call that fails has changed nothing. -/
def recordCut (x : Backend) (rotateBytes : Nat) (logs : Logs) (record : AuditRecord)
    (crash : Crash) : Logs :=
  match prepare x rotateBytes logs record with
  | .error _ => logs
  | .ok a =>
    match crash with
    | .afterRename => a.rename logs
    | .afterBytes n => a.write (a.rename logs) n

end Detent.Source.AuditFile
