import Detent.Source.Client
import Detent.Source.Mounts

/-!
# The runner

`crates/detent-platform/src/privsep/runner.rs:60-290`: what the unconfined runner does
with the requests of the monitor, as a program over its calls, with the candidate
directory of a check (`allowlist.rs:342-402`, `descriptor.rs:84-140`) and the rule for a
release tag (`proto.rs:86-107`).

A start, a stop and the removal of the record of mounts are calls here; `Mounts` says
what they do. One request asks at most once whether a path exists, so what it hears is a
function of the path. A run of `serve_runner` takes `turns` messages.
-/
namespace Detent.Source.Runner
open Lib
open Source.Client (ChannelError)

inductive RunnerRequest where
  | check (check : CheckId) (candidate : Text)
  | service (binding : BindingId) (action : ServiceAction)
  | reloadUnitFiles
  | startAddedMounts (target : TargetId)
  | stopStartedMounts
  | forgetStartedMounts
  | startUpdate (tag : Text)
  | serviceStatus (binding : BindingId)
  deriving DecidableEq, Repr

inductive RunnerResponse where
  | checked (outcome : CheckOutcome)
  | serviced (outcome : ServiceOutcome)
  | reloaded (detail : String)
  | mounts (units : List MountOutcome)
  | forgotten
  | unavailable (message : String)
  | failed (message : String)
  | updateStarted (detail : String)
  | updateRunning
  | unitStatus (status : UnitStatus)
  deriving DecidableEq, Repr

/-- `DirOwner`. -/
inductive DirOwner where
  | euid | euidOrRoot | any
  deriving DecidableEq, Repr

/-- The calls of the runner. -/
inductive RunnerOp : Type → Type 1
  | recv : RunnerOp (Except ChannelError RunnerRequest)
  | send (response : RunnerResponse) : RunnerOp (Except ChannelError Unit)
  /-- `Path::exists`. -/
  | existing : RunnerOp (Path → Bool)
  /-- `require_trusted_dir(..).is_ok()`. -/
  | trustedDir (dir : Path) (owner : DirOwner) : RunnerOp Bool
  /-- `symlink_metadata` names a regular file. -/
  | isFile (path : Path) : RunnerOp Bool
  | runCheck (check : ExternalCheck) (path : Path) : RunnerOp (Except HookError CheckOutcome)
  | service (binding : ServiceBinding) (action : CoreServiceAction) :
      RunnerOp (Except HookError ServiceOutcome)
  | serviceStatus (binding : ServiceBinding) : RunnerOp (Except HookError UnitStatus)
  | reloadUnitFiles : RunnerOp (Except HookError String)
  | startAdded (dir : Path) (target : TargetId) : RunnerOp (Except HookError (List MountOutcome))
  | stopStarted (dir : Path) : RunnerOp (Except HookError (List MountOutcome))
  | forgetStarted (dir : Path) : RunnerOp (Except HookError Unit)
  | startUpdate (tag : Text) : RunnerOp (Except HookError UpdateStart)

/-- `Path::join` with a relative name. -/
def join (dir : Path) (name : Text) : Path :=
  if dir.toList.getLast? = some '/' then dir ++ String.ofList name
  else dir ++ "/" ++ String.ofList name

/-- The path of these components. -/
def ofComponents : List Text → Path
  | ['/'] :: rest => "/" ++ String.ofList (Text.join ['/'] rest)
  | parts => String.ofList (Text.join ['/'] parts)

/-- `Path::parent`, written without `.` and double slashes. -/
def parent (path : Path) : Option Path :=
  match (Mounts.components path).getLast? with
  | none => none
  | some last => if last = ['/'] then none else some (ofComponents (Mounts.components path).dropLast)

/-- The name has one component, and it is a normal one. -/
def isPlainName (name : Text) : Bool :=
  match name.splitOn '/' with
  | [] => false
  | first :: rest =>
    decide (first ∉ [[], ['.'], ['.', '.']]) && rest.all (fun part => part == [] || part == ['.'])

/-- `CANDIDATE_PREFIX`. -/
def candidatePrefix : Text := ".detent-candidate-".toList

/-- `MAX_RELEASE_TAG_LEN`. -/
def maxReleaseTagLen : Nat := 64

section Directory

variable (present : Path → Bool)

/-- The last part of `path.rsplit('/')`. -/
def fileName (target : Target) : Option Text := (target.path.toList.splitOn '/').getLast?

/-- `ModuleDescriptor::relocated`. -/
def relocated (descriptor : ModuleDescriptor) (chosen : Target) : Target :=
  let detected := descriptor.targets.filter (fun target => chosen.kind = .file &&
    target.kind = .file && target.path ≠ chosen.path && target.backendDetect)
  let alternatives := detected.filter (fun target => fileName target = fileName chosen)
  let dropIns := detected.filter (fun target =>
    (chosen.path.toList ++ ".d/".toList).isPrefixOf target.path.toList)
  if (alternatives.isEmpty && dropIns.isEmpty) || present chosen.path then chosen
  else ((alternatives.find? (fun target => present target.path)).or dropIns.head?).getD chosen

/-- `candidate_dir`. -/
def candidateDir (allow : Allowlist) (module : ModuleId) : Option Path := do
  let descriptor ← allow.module module
  let files := (allow.targetsOf module).filter (fun entry => entry.kind = .file)
  let chosen := (descriptor.targets.filter (·.backendDetect)).find? (fun target =>
    files.any (fun entry => entry.path = target.path))
  let primary ← ((chosen.map (relocated present descriptor)).bind (fun target =>
    files.find? (fun entry => entry.path = target.path))).or files.head?
  parent primary.path

/-- `check_candidate_dir`. -/
def checkCandidateDir (allow : Allowlist) (id : CheckId) : Option Path := do
  let entry ← allow.check id
  if entry.check.appliesTo.isEmpty then candidateDir present allow entry.module
  else
    let target ← (entry.targets.filterMap allow.target).find? (fun target => target.kind = .file)
    parent target.path

end Directory

/-- What the runner is started with. `runAsDirOwner` is the field of a check, and
`buildOf` the build metadata of a version that parses. -/
structure RunnerSetup where
  allow : Allowlist
  stagingDir : Path
  runAsDirOwner : ExternalCheck → Bool
  buildOf : Text → Option Text

section Answer

variable (rs : RunnerSetup)

/-- `DirOwner::of_candidate_dir`. -/
def RunnerSetup.ownerOf (check : ExternalCheck) : DirOwner :=
  if rs.runAsDirOwner check then .any else .euidOrRoot

/-- `is_release_tag`. -/
def RunnerSetup.isReleaseTag (tag : Text) : Bool :=
  decide (tag.length ≤ maxReleaseTagLen) &&
    tag.all (fun c => c.isAlphanum || c == '.' || c == '-') &&
    ((Text.stripStart ['v'] tag).bind rs.buildOf).any (·.isEmpty)

/-- `staged_candidate`. -/
def stagedCandidate (dir : Path) (name : Text) : Prog RunnerOp (Option Path) :=
  if isPlainName name then do
    let found ← Prog.perform (.isFile (join dir name))
    pure (if found then some (join dir name) else none)
  else pure none

/-- A candidate beside a target, once its directory is looked at. -/
def besideTarget (dir : Path) (name : Text) : Bool → Prog RunnerOp (Option Path)
  | false => pure none
  | true => do
    match ← stagedCandidate dir name with
    | some path => pure (some path)
    | none => stagedCandidate rs.stagingDir name

/-- The path of a candidate. -/
def candidatePath (entry : CheckEntry) (name : Text) : Option Path → Prog RunnerOp (Option Path)
  | none => stagedCandidate rs.stagingDir name
  | some dir =>
    if candidatePrefix.isPrefixOf name then do
      let trusted ← Prog.perform (.trustedDir dir (rs.ownerOf entry.check))
      besideTarget rs dir name trusted
    else pure none

/-- What a hook's result is sent as. -/
def respond {α : Type} (success : α → RunnerResponse) : Except HookError α → RunnerResponse
  | .ok value => success value
  | .error (.unavailable message) => .unavailable message
  | .error (.failed message) => .failed message

def answerCheck (id : CheckId) (candidate : Text) : Prog RunnerOp RunnerResponse :=
  match rs.allow.check id with
  | none => pure (.failed "unknown check")
  | some entry => do
    let present ← Prog.perform .existing
    match ← candidatePath rs entry candidate (checkCandidateDir present rs.allow id) with
    | none => pure (.failed "candidate is not a staged file")
    | some path => do
      let outcome ← Prog.perform (.runCheck entry.check path)
      pure (respond .checked outcome)

def answerService (id : BindingId) (action : ServiceAction) : Prog RunnerOp RunnerResponse :=
  match rs.allow.binding id with
  | none => pure (.failed "unknown service binding")
  | some entry =>
    match action.toCore.filter (fun core => core ∈ entry.binding.actions) with
    | none => pure (.failed "service action is not allowed for this binding")
    | some core => do
      let outcome ← Prog.perform (.service entry.binding core)
      pure (respond .serviced outcome)

/-- `no_record_dir`. -/
def noRecordDir : RunnerResponse :=
  .failed "the staging directory has no parent for the mount record"

/-- `mounts::record_dir`. -/
def RunnerSetup.recordDir : Option Path := (parent rs.stagingDir).filter (fun dir => dir ≠ "")

/-- A request about mounts, with the directory of the record. -/
def withRecord {α : Type} (success : α → RunnerResponse)
    (ask : Path → RunnerOp (Except HookError α)) : Prog RunnerOp RunnerResponse :=
  match rs.recordDir with
  | none => pure noRecordDir
  | some dir => do
    let outcome ← Prog.perform (ask dir)
    pure (respond success outcome)

def ofUpdateStart : UpdateStart → RunnerResponse
  | .started detail => .updateStarted detail
  | .alreadyRunning => .updateRunning

/-- `answer`. -/
def answer : RunnerRequest → Prog RunnerOp RunnerResponse
  | .check id candidate => answerCheck rs id candidate
  | .service id action => answerService rs id action
  | .reloadUnitFiles =>
    if rs.allow.modules.any (·.reloadUnitFiles) then do
      let outcome ← Prog.perform .reloadUnitFiles
      pure (respond .reloaded outcome)
    else pure (.failed "no enabled module reloads unit files")
  | .startAddedMounts target => withRecord rs .mounts (fun dir => .startAdded dir target)
  | .stopStartedMounts => withRecord rs .mounts .stopStarted
  | .forgetStartedMounts => withRecord rs (fun _ => .forgotten) .forgetStarted
  | .startUpdate tag =>
    if rs.isReleaseTag tag then do
      let outcome ← Prog.perform (.startUpdate tag)
      pure (respond ofUpdateStart outcome)
    else pure (.failed "not a release tag")
  | .serviceStatus id =>
    match rs.allow.binding id with
    | none => pure (.failed "unknown service binding")
    | some entry => do
      let outcome ← Prog.perform (.serviceStatus entry.binding)
      pure (respond .unitStatus outcome)

/-- `serve_runner`. -/
def serveRunner : Nat → Prog RunnerOp Unit
  | 0 => pure ()
  | turns + 1 => do
    match ← Prog.perform .recv with
    | .error .timeout => serveRunner turns
    | .error _ => pure ()
    | .ok request => do
      let response ← answer rs request
      match ← Prog.perform (.send response) with
      | .error _ => pure ()
      | .ok () => serveRunner turns

end Answer

end Detent.Source.Runner
