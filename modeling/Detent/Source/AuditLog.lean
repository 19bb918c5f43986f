import Mathlib.Algebra.Group.Nat.Defs
import Detent.Source.Operation
import Detent.Source.Sha256

/-!
# The audit chain

`crates/detent-ops/src/audit.rs:49-176,328-348,623-729`: records, the chain
metadata each persisted record carries, and the pass that accepts a raw log.

`serde_json` and `sha2` are outside the repository. `Backend` holds the three
functions the source takes from them; `Backend.Lawful` states what the
documentation of a JSON writer promises. The parse error text is whatever the
backend reports.
-/
namespace Detent.Source.AuditLog

/-- How an operation ended. -/
inductive AuditResult where
  | ok | denied | error | started
  deriving DecidableEq, Repr

/-- `AuditChain`: a one-based position (`u64`), the hash of the preceding
record, the hash of this record and the digest of the torn lines before it. -/
structure AuditChain where
  sequence : Fin (2 ^ 64)
  prev : Option String
  hash : String
  torn : Option String
  deriving DecidableEq, Repr

/-- One line of the audit log. -/
structure AuditRecord where
  ts : String
  who : String
  kind : IdentityKind
  op : OpKind
  module : Option String
  prevHash : Option String
  newHash : Option String
  beforeHash : Option String
  afterHash : Option String
  commitId : Option (Fin (2 ^ 32))
  result : AuditResult
  errorId : Option String
  chain : Option AuditChain
  deriving DecidableEq, Repr

inductive AuditError where
  | io (message : String)
  | encode (message : String)
  | chain (message : String)
  deriving DecidableEq, Repr

/-- What `audit.rs` takes from `serde_json` (`to_vec`, `from_slice`) and from
`sha2` through `Sha256Digest::of(..).to_string()`. -/
structure Backend where
  toVec : AuditRecord → Except String Bytes
  fromSlice : Bytes → Except String AuditRecord
  sha256Hex : Bytes → String

def newline : UInt8 := 10

/-- `u8::is_ascii_whitespace`. -/
def isAsciiWhitespace (b : UInt8) : Bool :=
  b == 9 || b == 10 || b == 12 || b == 13 || b == 32

/-- A line the scan drops before it numbers the rest. -/
def isBlank (line : Bytes) : Bool := line.all isAsciiWhitespace

/-- Every record encodes to one visible line that reads back as itself, and the
line `x` is not JSON. -/
structure Backend.Lawful (x : Backend) : Prop where
  roundTrip : ∀ record, ∃ line, x.toVec record = .ok line ∧ x.fromSlice line = .ok record
  oneLine : ∀ record line, x.toVec record = .ok line → newline ∉ line
  visible : ∀ record line, x.toVec record = .ok line → isBlank line = false
  rejects : ∃ err, x.fromSlice [120] = .error err

/-- What a JSON reader does with a text cut short: a record is written as an
object, no text that ends inside it is one, and white space alone is not JSON. -/
structure Backend.Truncates (x : Backend) : Prop where
  opens : ∀ record line, x.toVec record = .ok line → line.head? = some 123
  cut : ∀ record line n, x.toVec record = .ok line → n < line.length →
    ∃ err, x.fromSlice (line.take n) = .error err
  blank : ∀ line, isBlank line = true → ∃ err, x.fromSlice line = .error err

/-- `u64::saturating_add(1)`. -/
def saturatingSucc (n : Fin (2 ^ 64)) : Fin (2 ^ 64) :=
  if h : n.val + 1 < 2 ^ 64 then ⟨n.val + 1, h⟩ else n

/-- `previous.map_or(1, |chain| chain.sequence.saturating_add(1))`. -/
def nextSequence (previous : Option AuditChain) : Fin (2 ^ 64) :=
  match previous with
  | none => 1
  | some chain => saturatingSucc chain.sequence

/-- Hash a record with its own chain cleared, then link it to `previous`. -/
def makeChain (x : Backend) (record : AuditRecord) (previous : Option AuditChain) :
    Except AuditError AuditChain :=
  match x.toVec { record with chain := none } with
  | .error err => .error (.encode err)
  | .ok bytes => .ok
      { sequence := nextSequence previous
        prev := previous.map (·.hash)
        hash := x.sha256Hex bytes
        torn := none }

/-- `(!gap.is_empty()).then(|| Sha256Digest::of(gap).to_string())`. -/
def tornDigest (x : Backend) (gap : Bytes) : Option String :=
  if gap.isEmpty then none else some (x.sha256Hex gap)

/-- Check that `record` directly follows `previous`, that its `torn` digest
names exactly the unreadable `gap` between them, and that its hash matches its
contents. `bad` is the parse error of the first line in `gap`. -/
def checkLink (x : Backend) (record : AuditRecord) (previous : Option AuditChain)
    (gap : Bytes) (bad : Option String) : Except AuditError Unit := do
  let actual ← match record.chain with
    | none => .error (AuditError.chain "a record has no chain metadata")
    | some chain => .ok chain
  let sequence := actual.sequence.val
  if actual.sequence ≠ nextSequence previous ∨ actual.prev ≠ previous.map (·.hash) then
    .error (.chain s!"record {sequence} is not linked to its predecessor")
  else if actual.torn ≠ tornDigest x gap then
    .error (.chain (match actual.torn, bad with
      | none, some bad => bad
      | none, none => s!"a line before record {sequence} is not valid JSON"
      | some _, _ => s!"record {sequence} does not match the skipped lines before it"))
  else
    let expected ← makeChain x record previous
    if expected.hash ≠ actual.hash then
      .error (.chain s!"record {sequence} hash does not match its contents")
    else
      .ok ()

/-- What a verified pass over the log found. -/
structure Scan where
  anchor : Option AuditChain
  gap : Bytes
  deriving DecidableEq, Repr

/-- The loop state of `scan_records`: the scan so far, the first parse error of
the open gap, the number of lines read and the records passed to `each`. -/
structure ScanState where
  scan : Scan
  firstBad : Option String
  index : Nat
  each : List AuditRecord
  deriving DecidableEq, Repr

/-- One iteration of the loop of `scan_records`. -/
def scanLine (x : Backend) (st : ScanState) (line : Bytes) : Except AuditError ScanState :=
  let number := st.index + 1
  match x.fromSlice line with
  | .error err => .ok
      { st with
        scan := { st.scan with gap := st.scan.gap ++ line ++ [newline] }
        firstBad := st.firstBad <|> some s!"record {number} is not valid JSON: {err}"
        index := number }
  | .ok record =>
    if record.chain.isNone then
      .error (.chain s!"record {number} has no chain metadata")
    else do
      checkLink x record st.scan.anchor st.scan.gap st.firstBad
      .ok { scan := { anchor := record.chain, gap := [] }
            firstBad := none
            index := number
            each := st.each ++ [record] }

/-- The lines of a raw log that are not blank, in order. -/
def visibleLines (raw : Bytes) : List Bytes :=
  (raw.splitOn newline).filter (fun line => !isBlank line)

def startState (start : Option AuditChain) : ScanState :=
  { scan := { anchor := start, gap := [] }, firstBad := none, index := 0, each := [] }

/-- `scan_records`: the scan and, for `each`, the records oldest first. -/
def scanRecords (x : Backend) (raw : Bytes) (start : Option AuditChain) :
    Except AuditError (Scan × List AuditRecord) := do
  let st ← (visibleLines raw).foldlM (scanLine x) (startState start)
  .ok (st.scan, st.each)

/-- `FileAudit::verify`, given the chain `rotated_anchor` returned and the
contents `read_log` returned. -/
def verify (x : Backend) (start : Option AuditChain) (log : Option Bytes) :
    Except AuditError AuditChain :=
  match log with
  | none => .error (.chain "log does not exist")
  | some raw => do
    let (scan, _) ← scanRecords x raw start
    match scan.anchor with
    | none => .error (.chain "log is empty")
    | some chain => .ok chain

end Detent.Source.AuditLog
