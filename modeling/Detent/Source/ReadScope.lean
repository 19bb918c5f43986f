import Detent.Source.Diff
import Detent.Source.Engine
import Detent.Source.SerdeJson
import Detent.Source.Sessions

/-!
# What a caller is shown of a module

`crates/detent-web/src/api/modules.rs:203-462`, `get_module`, `plan` and `run_checks` of
`crates/detent-ops/src/engine.rs:376-525` and the errors of
`crates/detent-web/src/error.rs:88-213`. Here the two operations answer with all they
report, diagnostics and diff included, and models are JSON values. The backend gives the
answers of the monitor; the wiring looks at no contents. The audit record of a plan is
left out: nothing of it is in the answer.
-/
namespace Detent.Source.ReadScope
open Lib Lib.Text Source.Engine Source.SerdeJson
open Source.Client (ClientError)

inductive Severity where
  | error | warning | recommendation
  deriving DecidableEq, Repr

structure Diagnostic where
  severity : Severity
  id : String
  field : Option String
  span : Option (Nat × Nat)
  args : List (String × String)
  deriving DecidableEq, Repr

/-- `Diagnostics::has_errors`. -/
def hasErrors (diagnostics : List Diagnostic) : Bool :=
  diagnostics.any (fun d => d.severity = .error)

/-- `DynModule`: what a module does with JSON models, with the text of its errors. The
host profile is applied already. -/
structure JsonModule where
  descriptor : ModuleDescriptor
  schema : Value
  secretPointers : List Text
  parseToModelJson : Text → Except String Value
  validateJson : Value → Except String (List Diagnostic)
  applyJson : Text → Value → Except String Text
  modelTargetJson : Value → Except String (Option Path)

structure ModuleView where
  descriptor : ModuleDescriptor
  schema : Value
  model : Option Value
  currentHash : Option Sha256Digest
  diagnostics : List Diagnostic
  secretPointers : List Text

structure PlanReport where
  module : String
  path : String
  wouldChange : Bool
  diff : List Diff.Hunk
  unifiedDiff : String
  rendered : Text
  affectedServices : List AffectedService
  checks : List CheckReport
  diagnostics : List Diagnostic
  currentHash : Sha256Digest
  deriving DecidableEq, Repr

/-- An `OpsError`, with the diagnostics of an invalid model. -/
inductive Refusal where
  | ops (err : OpsError)
  | invalid (diagnostics : List Diagnostic)

/-- `ApiError`, by its status. -/
structure ApiError where
  status : Nat
  messageId : String
  diagnostics : Option (List Diagnostic)
  deriving DecidableEq, Repr

/-- What answers an engine: the modules it was built from, the monitor and the texts of
errors. `authorize` is the decision about the caller and an operation on a module. -/
structure Backend where
  engine : OpsEngine
  modules : List JsonModule
  authorize : (id : String) → Except ApiError Unit
  wiring : ModuleDescriptor → Option Path → Except OpsError Wiring
  readTarget : TargetId → Except ClientError TargetContents
  runCheck : CheckId → Bytes → Except ClientError CheckOutcome
  renderUnified : Path → Path → List Diff.Hunk → String

variable (b : Backend)

/-- `impl From<OpsError> for ApiError`. -/
def statusOf : OpsError → Nat
  | .unknownModule _ => 404
  | .denied _ => 403
  | .invalid => 422
  | .hashConflict .. | .noTarget _ | .noService _ | .targetMissing | .updateRunning
  | .updateNotNewer => 409
  | .updateTagInvalid => 400
  | .privsep (.remote (.unknownId ..)) => 409
  | _ => 500

def apiError : Refusal → ApiError
  | .ops err => { status := statusOf err, messageId := messageId b.engine err, diagnostics := none }
  | .invalid diagnostics =>
    { status := 422, messageId := "ops-invalid-model", diagnostics := some diagnostics }

/-- `?` on a result of the operations layer. -/
def ofOps {α : Type} : Except OpsError α → Except Refusal α
  | .ok value => .ok value
  | .error err => .error (.ops err)

/-- `find_module`. -/
def findModule (id : String) : Except Refusal JsonModule :=
  match b.modules.find? (fun module => module.descriptor.id = id) with
  | some module => .ok module
  | none => .error (.ops (.unknownModule id))

/-- `OpsEngine::get_module`. -/
def getModule (id : String) : Except Refusal ModuleView := do
  let module ← findModule b id
  let wiring ← ofOps (b.wiring module.descriptor none)
  match b.readTarget wiring.target with
  | .ok contents => do
    let text ← ofOps (decode contents.bytes wiring.path)
    let model ← ofOps (ofModule (module.parseToModelJson text))
    let diagnostics ← ofOps (ofModule (module.validateJson model))
    pure { descriptor := module.descriptor, schema := module.schema, model := some model
           currentHash := some contents.digest, diagnostics
           secretPointers := module.secretPointers }
  | .error (.remote .notFound) =>
    pure { descriptor := module.descriptor, schema := module.schema, model := none
           currentHash := none
           diagnostics := [{ severity := .warning, id := "ops-target-missing", field := none
                             span := none, args := [("path", wiring.path)] }]
           secretPointers := module.secretPointers }
  | .error err => .error (.ops (mapClient err))

/-- `run_checks`. -/
def runChecks (wiring : Wiring) (candidate : Bytes) : List CheckReport :=
  wiring.checks.map (fun (id, program) =>
    match b.runCheck id candidate with
    | .ok outcome =>
      { program, ran := true, passed := outcome.passed, exitCode := outcome.exitCode
        detail := truncateDetail outcome.detail }
    | .error err =>
      { program, ran := false, passed := false, exitCode := none
        detail := truncateDetail (clientErrorText err) })

/-- `DEFAULT_CONTEXT`. -/
def defaultContext : Nat := 3

/-- `OpsEngine::plan`. -/
def planModel (id : String) (model : Value) : Except Refusal PlanReport := do
  let module ← findModule b id
  let target ← ofOps (ofModule (module.modelTargetJson model))
  let wiring ← ofOps (b.wiring module.descriptor target)
  let contents ← ofOps ((b.readTarget wiring.target).mapError mapClient)
  let current ← ofOps (decode contents.bytes wiring.path)
  let diagnostics ← ofOps (ofModule (module.validateJson model))
  if hasErrors diagnostics then .error (.invalid diagnostics)
  else do
    let rendered ← ofOps (ofModule (module.applyJson current model))
    let hunks := Diff.diff current rendered defaultContext
    pure { module := module.descriptor.id, path := wiring.path, wouldChange := current ≠ rendered
           diff := hunks, unifiedDiff := b.renderUnified wiring.path wiring.path hunks, rendered
           affectedServices := (wiring.binding.map (·.2)).toList
           checks := runChecks b wiring (utf8 rendered), diagnostics
           currentHash := contents.digest }

/-- `SECRET_NAMES`. -/
def secretNames : List Text :=
  ["password".toList, "pass".toList, "password2".toList, "passwd".toList, "psk".toList,
    "secret".toList]

def isSecretName (name : Text) : Bool :=
  secretNames.any (fun secret => toAsciiLowercase name = secret) ||
    contains "password".toList (toAsciiLowercase name)

/-- `split_inclusive`: the pieces with the character that ends them. -/
def splitInclusive (ends : Char → Bool) : Text → List Text
  | [] => []
  | c :: rest =>
    if ends c then [c] :: splitInclusive ends rest
    else
      match splitInclusive ends rest with
      | [] => [[c]]
      | piece :: pieces => (c :: piece) :: pieces

/-- Words end at a comma or white space. -/
def endsWord (c : Char) : Bool := c == ',' || isWhitespace c

/-- A piece with its secret replaced, when it has one. -/
def redactPiece (piece : Text) : Option Text :=
  let word := piece.rdropWhile endsWord
  let sep := piece.drop word.length
  match splitOnceP (· == '=') word with
  | none => none
  | some (name, value) =>
    let bare := name.dropWhile (· == '-')
    if isSecretName bare then some (name ++ "=[redacted]".toList ++ sep)
    else if toAsciiLowercase bare = "user".toList ∨ toAsciiLowercase bare = "username".toList then
      match splitOnceP (· == '%') value with
      | some (user, _) => some (name ++ ['='] ++ user ++ "%[redacted]".toList ++ sep)
      | none => none
    else none

/-- `redact_options`. -/
def redactOptions (s : Text) : Option Text :=
  let pieces := splitInclusive endsWord s
  if pieces.any (fun piece => (redactPiece piece).isSome) then
    some (pieces.flatMap (fun piece => (redactPiece piece).getD piece))
  else none

def redacted : String := "[redacted]"

mutual

/-- `redact_pointer_target`. -/
def redactPointerTarget : Value → Value
  | .string s => .string (((redactOptions s.toList).map String.ofList).getD redacted)
  | .array items => .array (redactTargetItems items)
  | .object members => .object (redactTargetMembers members)
  | value => value

def redactTargetItems : List Value → List Value
  | [] => []
  | item :: rest => redactPointerTarget item :: redactTargetItems rest

def redactTargetMembers : List (String × Value) → List (String × Value)
  | [] => []
  | (name, item) :: rest => (name, redactPointerTarget item) :: redactTargetMembers rest

end

mutual

/-- `redact_inner`. -/
def redactInner : Value → Value
  | .string _ => .string redacted
  | .array items => .array (redactInnerItems items)
  | .object members => .object (redactInnerMembers members)
  | value => value

def redactInnerItems : List Value → List Value
  | [] => []
  | item :: rest => redactInner item :: redactInnerItems rest

def redactInnerMembers : List (String × Value) → List (String × Value)
  | [] => []
  | (name, item) :: rest => (name, redactInner item) :: redactInnerMembers rest

end

/-- Whether an object is a `{key, value}` entry whose key is a secret's. -/
def isSecretEntry (members : List (String × Value)) : Bool :=
  ["key", "name"].any (fun field =>
    (((members.lookup field).bind Value.asStr).map (fun s => isSecretName s.toList)).getD false)

def isSecretMember (secretEntry : Bool) (name : String) : Bool :=
  let lower := toAsciiLowercase name.toList
  lower = "password".toList || lower = "psk".toList || lower = "secret".toList ||
    contains "password".toList lower || (secretEntry && name = "value")

mutual

/-- `redact_heuristic`. -/
def redactHeuristic : Value → Value
  | .string s => .string (((redactOptions s.toList).map String.ofList).getD s)
  | .array items => .array (redactItems items)
  | .object members => .object (redactMembers (isSecretEntry members) members)
  | value => value

def redactItems : List Value → List Value
  | [] => []
  | item :: rest => redactHeuristic item :: redactItems rest

def redactMembers (secretEntry : Bool) : List (String × Value) → List (String × Value)
  | [] => []
  | (name, item) :: rest =>
    (name, if isSecretMember secretEntry name then redactInner item else redactHeuristic item) ::
      redactMembers secretEntry rest

end

/-- `redact_view`, on the model. -/
def redactModel (secretPointers : List Text) (model : Value) : Value :=
  redactHeuristic (secretPointers.foldl (fun model pointer =>
    match pointerTokens pointer with
    | some tokens => Value.modifyAt redactPointerTarget tokens model
    | none => model) model)

def redactView (view : ModuleView) : ModuleView :=
  { view with model := view.model.map (redactModel view.secretPointers) }

/-- `blank_plan`. -/
def blankPlan (report : PlanReport) : PlanReport :=
  { report with rendered := [], unifiedDiff := "", diff := [] }

/-- `well_formed_id`, with `MAX_ID_LEN`. -/
def wellFormedId (id : String) : Bool :=
  let chars := id.toList
  !chars.isEmpty && (utf8 chars).length ≤ 64 && chars.head?.any isAsciiAlphanumeric &&
    chars.all (fun c => ('a' ≤ c && c ≤ 'z') || isAsciiDigit c || c == '_' || c == '-')

/-- `check_depth`, with `MAX_JSON_DEPTH`. -/
def checkDepth (model : Value) : Except ApiError Unit :=
  if model.depth > 32 then
    .error { status := 400, messageId := "web-request-too-deep", diagnostics := none }
  else .ok ()

/-- `get_one`. -/
def getOne (scopes : Sessions.Scopes) (id : String) : Except ApiError ModuleView := do
  if !wellFormedId id then .error (apiError b (.ops (.unknownModule id)))
  else do
    b.authorize id
    let view ← (getModule b id).mapError (apiError b)
    pure (if scopes.write then view else redactView view)

/-- The handler `plan`. -/
def plan (scopes : Sessions.Scopes) (id : String) (model : Value) : Except ApiError PlanReport := do
  if !wellFormedId id then .error (apiError b (.ops (.unknownModule id)))
  else do
    checkDepth model
    b.authorize id
    let report ← (planModel b id model).mapError (apiError b)
    pure (if scopes.write then report else blankPlan report)

end Detent.Source.ReadScope
