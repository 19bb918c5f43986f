import Detent.Source.AuditLog
import Detent.Source.Client
import Detent.Source.Monitor

/-!
# The operations engine

`crates/detent-ops/src/engine.rs`, with `Operation` (`op.rs`), `OpsError`
(`error.rs`) and the reports (`report.rs`): `execute` authorizes an operation,
writes the audit records around it and turns it into requests to the monitor.

The engine is a program over its own effects: one exchange of the client, one
write or read of the audit sink, the clock, `Path::exists`, the hook of the front
end and the fields of the engine itself. The host profile is applied in the
modules already. Left out: the log lines, the diff and the diagnostics of a
report, the schema of a module view, and the reports about the host and the
certificate, which nothing here reads.
-/
namespace Detent.Source.Engine
open Lib Source.Client Source.AuditLog

/-- What a caller may ask be done to a service. -/
inductive ServiceCommand where
  | restart | reload | start | stop
  deriving DecidableEq, Repr

def ServiceCommand.toWire : ServiceCommand → ServiceAction
  | .restart => .restart
  | .reload => .reload
  | .start => .start
  | .stop => .stop

/-- `command`: `status` is a query. -/
def command : ServiceAction → Option ServiceCommand
  | .restart => some .restart
  | .reload => some .reload
  | .start => some .start
  | .stop => some .stop
  | .status => none

structure AuditQuery where
  module : Option String
  who : Option String
  limit : Option Nat
  deriving DecidableEq, Repr

/-- Everything the operations layer can be asked to do. `confirm` is in seconds. -/
inductive Operation where
  | listModules
  | getModule (id : String)
  | validate (id : String) (model : Json)
  | plan (id : String) (model : Json)
  | apply (id : String) (model : Json) (expectedHash : Option Sha256Digest)
      (serviceAction : Option ServiceCommand) (confirm : Option Nat)
  | confirmCommit (commitId : CommitId)
  | rollbackCommit (commitId : CommitId)
  | listBackups (id : String)
  | restore (id : String) (backupId : BackupId) (expectedHash : Option Sha256Digest)
  | serviceStatus (id : String)
  | serviceAction (id : String) (action : ServiceCommand)
  | hostProfile
  | auditQuery (query : AuditQuery)
  | updateStatus
  | certStatus
  | certRenew
  | updateApply (version : String)
  deriving DecidableEq, Repr

namespace Operation

def kind : Operation → OpKind
  | .listModules => .listModules
  | .getModule _ => .getModule
  | .validate .. => .validate
  | .plan .. => .plan
  | .apply .. => .apply
  | .confirmCommit _ => .confirmCommit
  | .rollbackCommit _ => .rollbackCommit
  | .listBackups _ => .listBackups
  | .restore .. => .restore
  | .serviceStatus _ => .serviceStatus
  | .serviceAction .. => .serviceAction
  | .hostProfile => .hostProfile
  | .auditQuery _ => .auditQuery
  | .updateStatus => .updateStatus
  | .certStatus => .certStatus
  | .certRenew => .certRenew
  | .updateApply _ => .updateApply

/-- The module this operation is about, when it is about one. -/
def module : Operation → Option String
  | .getModule id | .validate id _ | .plan id _ | .apply id _ _ _ _ | .listBackups id
  | .restore id _ _ | .serviceStatus id | .serviceAction id _ => some id
  | .listModules | .confirmCommit _ | .rollbackCommit _ | .hostProfile | .auditQuery _
  | .updateStatus | .certStatus | .certRenew | .updateApply _ => none

def isMutating : Operation → Bool
  | .apply .. | .confirmCommit _ | .rollbackCommit _ | .restore .. | .serviceAction ..
  | .certRenew | .updateApply _ => true
  | _ => false

end Operation

/-- `DEFAULT_CONFIRM`, in seconds. -/
def defaultConfirm : Nat := 90

/-- `Denied`: the Fluent id of the refusal, and the scope it names. -/
structure Denied where
  id : String
  requiredScope : Option String
  deriving DecidableEq, Repr

inductive ServiceError where
  | unavailable (message : String)
  | failed (message : String)
  deriving DecidableEq, Repr

/-- `OpsError`; the diagnostics of `Invalid` are not kept. -/
inductive OpsError where
  | unknownModule (id : String)
  | denied (denied : Denied)
  | invalid
  | checkFailed (program detail : String)
  | hashConflict (expected : Sha256Digest) (actual : Option Sha256Digest)
  | module (message : String)
  | privsep (err : ClientError)
  | service (err : ServiceError)
  | noTarget (module : String)
  | noService (module : String)
  | commitPending (commit : CommitId)
  | noBackup
  | armFailed (arming : OpsError) (restoreError : Option OpsError)
  | targetMissing
  | audit (err : AuditError)
  | auditUnavailable (err : AuditError)
  | cert (id reason : String)
  | unsupported (what : String)
  | updateRunning
  | updateTagInvalid
  | updateNotNewer

/-! ## Reports -/

structure AffectedService where
  unit : String
  actions : List ServiceCommand
  deriving DecidableEq, Repr

structure CheckReport where
  program : String
  ran : Bool
  passed : Bool
  exitCode : Option Int
  detail : String
  deriving DecidableEq, Repr

structure PlanReport where
  module : String
  path : String
  rendered : Text
  affectedServices : List AffectedService
  checks : List CheckReport
  currentHash : Sha256Digest
  wouldChange : Bool
  deriving DecidableEq, Repr

structure PendingCommit where
  commitId : CommitId
  timeoutS : Nat
  deadline : String
  rollbackTargets : Nat
  deriving DecidableEq, Repr

structure ServiceReport where
  unit : String
  action : ServiceCommand
  active : Bool
  detail : String
  deriving DecidableEq, Repr

structure MountsReport where
  activated : Bool
  units : List MountOutcome
  error : Option String
  deriving DecidableEq, Repr

structure ApplyReport where
  module : String
  path : String
  prevHash : Option Sha256Digest
  newHash : Sha256Digest
  created : Bool
  backedUp : Bool
  service : Option ServiceReport
  commit : Option PendingCommit
  checks : List CheckReport
  mounts : Option MountsReport
  deriving DecidableEq, Repr

structure ModuleView where
  descriptor : ModuleDescriptor
  model : Option Json
  currentHash : Option Sha256Digest
  deriving DecidableEq, Repr

/-- `OpOutcome`; `validated` keeps whether the diagnostics hold an error. -/
inductive OpOutcome where
  | modules (descriptors : List ModuleDescriptor)
  | module (view : ModuleView)
  | validated (hasErrors : Bool)
  | planned (plan : PlanReport)
  | applied (report : ApplyReport)
  | commitConfirmed (commitId : CommitId)
  | rolledBack (commitId : CommitId) (restored : Nat)
  | backups (entries : List BackupInfo)
  | restored (target : TargetId) (newHash : Sha256Digest)
  | status (status : UnitStatus)
  | serviced (report : ServiceReport)
  | host
  | audit (records : List AuditRecord)
  | certStatus
  | certRenewRequested
  | updateStarted (version : String)
  deriving DecidableEq

/-! ## Effects -/

/-- The digests one mutating operation observed. -/
structure Hashes where
  prev : Option Sha256Digest
  new : Option Sha256Digest
  commitId : Option CommitId
  deriving DecidableEq, Repr

/-- `Hashes::default`. -/
def Hashes.empty : Hashes := { prev := none, new := none, commitId := none }

/-- What `&mut self` and `&mut Hashes` keep. -/
structure Session where
  nextCommit : Nat
  pendingCommit : Option PendingCommit
  hashes : Hashes
  deriving DecidableEq, Repr

/-- The effects of the engine. -/
inductive EngineOp : Type → Type 1
  /-- One exchange of the client with the monitor. -/
  | ask (request : Request) : EngineOp (Except ChannelError Response)
  /-- `AuditSink::record`. -/
  | record (record : AuditRecord) : EngineOp (Except AuditError Unit)
  /-- `AuditSink::query`. -/
  | query (query : AuditQuery) : EngineOp (Except AuditError (List AuditRecord))
  /-- The current time plus some seconds, as RFC 3339. -/
  | timestamp (offsetS : Nat) : EngineOp String
  | pathExists (path : Path) : EngineOp Bool
  /-- `CertFrontEnd::status` and `CertFrontEnd::renew`: id and reason of a failure. -/
  | certStatus : EngineOp (Except (String × String) Unit)
  | certRenew : EngineOp (Except (String × String) Unit)
  /-- A read or write of the engine's own fields. -/
  | session {β : Type} (f : Session → β × Session) : EngineOp β

/-- Programs of the engine. -/
abbrev EngineM := ExceptT OpsError (Prog EngineOp)

/-- Change the engine's own fields. -/
def modifySession (f : Session → Session) : EngineM Unit :=
  Fallible.perform (.session (fun s => ((), f s)))

def noteHashes (f : Hashes → Hashes) : EngineM Unit :=
  modifySession (fun s => { s with hashes := f s.hashes })

inductive UpdateTagRefusal where
  | notReleaseTag | notNewer
  deriving DecidableEq, Repr

/-- What an engine is built from: the modules, the tables of the handshake and
whether a certificate hook is installed. `checkUpdateTag` is `check_update_tag`
against the running version, `moduleErrorId` is `DynError::message_id` by the text
of the error. -/
structure OpsEngine where
  modules : List DynModule
  tables : Option HelloAck
  certFrontEnd : Bool
  checkUpdateTag : String → Option UpdateTagRefusal
  moduleErrorId : String → String

/-- Everything the monitor advertised about one module. -/
structure Wiring where
  target : TargetId
  path : Path
  checks : List (CheckId × String)
  binding : Option (BindingId × AffectedService)
  deriving DecidableEq, Repr

/-! ## Errors and texts -/

/-- `IdKind::fmt`. -/
def idKindText : IdKind → String
  | .target => "target"
  | .check => "check"
  | .binding => "binding"
  | .module => "module"
  | .backup => "backup"
  | .commit => "commit"

/-- `ProtoError::fmt`. -/
def protoErrorText : ProtoError → String
  | .versionMismatch expected got =>
    "protocol version mismatch: monitor speaks " ++ toString expected ++ ", worker speaks " ++
      toString got
  | .handshakeRequired => "handshake required before any other request"
  | .unknownId kind id => "unknown " ++ idKindText kind ++ " id " ++ toString id
  | .actionNotAllowed => "service action is not allowed for this binding"
  | .conflict .. => "target changed on disk since it was read"
  | .commitPending commit => "commit " ++ toString commit.get ++ " is already pending"
  | .commitExpired commit => "commit " ++ toString commit.get ++ " confirmation window expired"
  | .unsupported message => "unsupported request: " ++ message
  | .unavailable message => "unavailable: " ++ message
  | .io message => "i/o error: " ++ message
  | .verificationFailed => "staged release verification failed"
  | .notFound => "target does not exist"
  | .stateLockUnavailable => "the monitor does not hold the state lock; state changes are refused"
  | .updateRunning => "an update is already running"

/-- `ClientError::fmt`. -/
def clientErrorText : ClientError → String
  | .channel _ => "privsep channel failed"
  | .remote err => "monitor refused the request: " ++ protoErrorText err
  | .unexpected want got => "monitor answered " ++ got ++ " where " ++ want ++ " was expected"
  | .notGreeted => "privsep handshake has not happened yet"

/-- `map_client`. -/
def mapClient : ClientError → OpsError
  | .remote (.conflict expected actual) => .hashConflict expected actual
  | .remote .notFound => .targetMissing
  | other => .privsep other

/-- `map_status_error`. -/
def mapStatusError : ClientError → OpsError
  | .remote (.unavailable message) => .service (.unavailable message)
  | .remote (.io message) => .service (.failed message)
  | other => .privsep other

/-- `mount_error_text`. -/
def mountErrorText : ClientError → String
  | .remote (.unavailable message) => message
  | .remote (.io message) => message
  | other => clientErrorText other

/-- `Utf8Error::valid_up_to`: the length of the longest start that is UTF-8. -/
def validUpTo (bytes : Bytes) : Nat :=
  ((List.range (bytes.length + 1)).reverse.find? (fun n => (ofUtf8 (bytes.take n)).isSome)).getD 0

def decode (bytes : Bytes) (path : Path) : Except OpsError Text :=
  match ofUtf8 bytes with
  | some text => .ok text
  | none => .error (.module (path ++ " is not valid UTF-8 at byte " ++ toString (validUpTo bytes)))

/-- `CHECK_DETAIL_LIMIT`. -/
def checkDetailLimit : Nat := 512

def truncateDetail (detail : String) : String :=
  String.ofList (Monitor.takeBytes checkDetailLimit detail.toList)

/-- The answer of a module. -/
def ofModule {α : Type} : Except String α → Except OpsError α
  | .ok value => .ok value
  | .error message => .error (.module message)

/-- `?` on a value. -/
def orThrow {α : Type} : Except OpsError α → EngineM α
  | .ok value => pure value
  | .error err => throw err

section Programs

variable (e : OpsEngine)

/-- `OpsError::message_id`. -/
def messageId : OpsError → String
  | .unknownModule _ => "ops-unknown-module"
  | .denied denied => denied.id
  | .invalid => "ops-invalid-model"
  | .checkFailed .. => "ops-check-failed"
  | .hashConflict .. => "ops-hash-conflict"
  | .module message => e.moduleErrorId message
  | .privsep _ => "ops-privsep-failed"
  | .service _ => "ops-service-failed"
  | .noTarget _ => "ops-no-target"
  | .noService _ => "ops-no-service"
  | .audit _ => "ops-audit-failed"
  | .auditUnavailable _ => "ops-audit-unavailable"
  | .commitPending _ => "ops-commit-pending"
  | .noBackup => "ops-no-backup"
  | .armFailed _ none => "ops-arm-failed-restored"
  | .armFailed _ (some _) => "ops-arm-failed-unrestored"
  | .targetMissing => "ops-target-missing"
  | .cert id _ => id
  | .unsupported _ => "ops-unsupported"
  | .updateRunning => "ops-update-running"
  | .updateTagInvalid => "ops-update-tag-invalid"
  | .updateNotNewer => "ops-update-not-newer"

/-! ## The client -/

/-- `Client::checked_call` and the match of a method on its response. -/
def exchange {α : Type} (request : Request) (want : String) (select : Response → Option α) :
    Prog EngineOp (Except ClientError α) :=
  if e.tables.isNone then pure (.error .notGreeted)
  else do
    match ← Prog.perform (.ask request) with
    | .error err => pure (.error (.channel err))
    | .ok response => pure (expect want select response)

/-- `.map_err(map_client)?`. -/
def mapped {α : Type} (p : Prog EngineOp (Except ClientError α)) : EngineM α := do
  match ← ExceptT.lift p with
  | .ok value => pure value
  | .error err => throw (mapClient err)

def readTarget (target : TargetId) : Prog EngineOp (Except ClientError TargetContents) :=
  exchange e (.readTarget target) "Target" asTarget

def writeTarget (target : TargetId) (expectedPrev : Option Sha256Digest) (bytes : Bytes)
    (journal : Bool) : Prog EngineOp (Except ClientError WriteReceipt) :=
  exchange e (.writeTarget target expectedPrev bytes journal) "Written" asWritten

def runCheck (check : CheckId) (bytes : Bytes) : Prog EngineOp (Except ClientError CheckOutcome) :=
  exchange e (.runCheck check bytes) "Checked" asChecked

def service (binding : BindingId) (action : ServiceAction) :
    Prog EngineOp (Except ClientError ServiceOutcome) :=
  exchange e (.service binding action) "Serviced" asServiced

def serviceStatusOf (binding : BindingId) : Prog EngineOp (Except ClientError UnitStatus) :=
  exchange e (.service binding .status) "UnitStatus" asUnitStatus

def reloadUnitFiles (module : ModuleId) : Prog EngineOp (Except ClientError String) :=
  exchange e (.reloadUnitFiles module) "UnitFilesReloaded" asUnitFilesReloaded

def mount (target : TargetId) : Prog EngineOp (Except ClientError (Bool × List MountOutcome)) :=
  exchange e (.mount target) "Mounted" asMounted

def listBackups (module : ModuleId) : Prog EngineOp (Except ClientError (List BackupInfo)) :=
  exchange e (.listBackups module) "Backups" asBackups

def restoreBackup (module : ModuleId) (backup : BackupId) :
    Prog EngineOp (Except ClientError (TargetId × Sha256Digest)) :=
  exchange e (.restore module backup) "Restored" asRestored

def startConfirmTimer (commit : CommitId) (timeoutS : Nat) (service : Option PendingService) :
    Prog EngineOp (Except ClientError (Nat × Nat)) :=
  exchange e (.startConfirmTimer commit timeoutS service) "ConfirmTimerStarted"
    asConfirmTimerStarted

def pendingCommit : Prog EngineOp (Except ClientError (Option CommitId)) :=
  exchange e .pendingCommit "Pending" asPending

def confirmCommit (commit : CommitId) : Prog EngineOp (Except ClientError CommitId) :=
  exchange e (.confirmCommit commit) "Committed" asCommitted

def rollbackCommit (commit : CommitId) : Prog EngineOp (Except ClientError (CommitId × Nat)) :=
  exchange e (.rollbackCommit commit) "RolledBack" asRolledBack

def startUpdate (tag : String) : Prog EngineOp (Except ClientError String) :=
  exchange e (.startUpdate tag) "UpdateStarted" asUpdateStarted

/-! ## Modules and their wiring -/

def findModule (id : String) : Except OpsError DynModule :=
  match e.modules.find? (fun module => module.id = id) with
  | some module => .ok module
  | none => .error (.unknownModule id)

/-- `Client::module_id`. -/
def clientModuleId (name : String) : Option ModuleId :=
  e.tables.bind (fun ack => (ack.modules.find? (fun module => module.name = name)).map (·.id))

/-- `module_id`. -/
def moduleId (module : DynModule) : Except OpsError ModuleId :=
  match clientModuleId e module.id with
  | some id => .ok id
  | none => .error (.unknownModule module.id)

/-- `path.rsplit('/').next()`. -/
def fileName (path : Path) : List Char := (path.toList.reverse.takeWhile (· ≠ '/')).reverse

/-- The first target whose file exists. -/
def firstExisting : List Target → Prog EngineOp (Option Target)
  | [] => pure none
  | target :: targets => do
    if ← Prog.perform (.pathExists target.path) then pure (some target)
    else firstExisting targets

/-- `ModuleDescriptor::relocated`. -/
def relocated (descriptor : ModuleDescriptor) (chosen : Target) : Prog EngineOp Target :=
  let detectedFile (target : Target) : Bool :=
    chosen.kind = .file && target.kind = .file && target.path ≠ chosen.path && target.backendDetect
  let alternatives := (descriptor.targets.filter detectedFile).filter
    (fun target => fileName target.path = fileName chosen.path)
  let dropIns := (descriptor.targets.filter detectedFile).filter
    (fun target => target.path.startsWith (chosen.path ++ ".d/"))
  if alternatives.isEmpty && dropIns.isEmpty then pure chosen
  else do
    if ← Prog.perform (.pathExists chosen.path) then pure chosen
    else
      match ← firstExisting alternatives with
      | some target => pure target
      | none => pure (dropIns.head?.getD chosen)

/-- The target a declared path stands for on this host. -/
def advertisedFor (descriptor : ModuleDescriptor) (advertised : List TargetInfo)
    (target : Option Target) : Prog EngineOp (Option TargetInfo) :=
  match target with
  | none => pure none
  | some target => do
    let target ← relocated descriptor target
    pure (advertised.find? (fun info => info.path = target.path))

/-- The file target of an operation: the one the model names, else the first one
the module detects, else the first advertised. -/
def chooseTarget (descriptor : ModuleDescriptor) (advertised : List TargetInfo)
    (modelTarget : Option Path) : Prog EngineOp (Option TargetInfo) :=
  match modelTarget with
  | some path =>
    advertisedFor descriptor advertised (descriptor.targets.find? (fun target => target.path = path))
  | none => do
    let found ← advertisedFor descriptor advertised
      ((descriptor.targets.filter (·.backendDetect)).find?
        (fun target => (advertised.find? (fun info => info.path = target.path)).isSome))
    pure (found.or advertised.head?)

/-- What the tables say about the chosen target. -/
def wiringOf (ack : HelloAck) (module : ModuleId) (chosen : TargetInfo) : Wiring where
  target := chosen.id
  path := chosen.path
  checks := (ack.checks.filter (fun check => check.module = module && check.targets.contains chosen.id)).map
    (fun check => (check.id, check.program))
  binding := (ack.bindings.find? (fun binding =>
    binding.module = module && binding.targets.contains chosen.id)).map
      (fun binding => (binding.id,
        { unit := binding.unit, actions := binding.actions.filterMap command }))

def wiring (descriptor : ModuleDescriptor) (modelTarget : Option Path) : EngineM Wiring :=
  match e.tables, clientModuleId e descriptor.id with
  | _, none => throw (.unknownModule descriptor.id)
  | none, some _ => throw (.privsep .notGreeted)
  | some ack, some module => do
    let advertised := ack.targets.filter (fun target => target.module = module && target.kind = .file)
    match ← ExceptT.lift (chooseTarget descriptor advertised modelTarget) with
    | some chosen => pure (wiringOf ack module chosen)
    | none => throw (.noTarget descriptor.id)

/-- The wiring of an operation on `model`. -/
def modelWiring (id : String) (model : Json) : EngineM Wiring := do
  let module ← orThrow (findModule e id)
  let target ← orThrow (ofModule (module.modelTargetJson model))
  wiring e module.descriptor target

/-! ## Read-only operations -/

def getModule (id : String) : EngineM OpOutcome := do
  let module ← orThrow (findModule e id)
  let wiring ← wiring e module.descriptor none
  match ← ExceptT.lift (readTarget e wiring.target) with
  | .ok contents => do
    let text ← orThrow (decode contents.bytes wiring.path)
    let model ← orThrow (ofModule (module.parseToModelJson text))
    let _ ← orThrow (ofModule (module.validateJson model))
    pure (.module { descriptor := module.descriptor, model := some model
                    currentHash := some contents.digest })
  | .error (.remote .notFound) =>
    pure (.module { descriptor := module.descriptor, model := none, currentHash := none })
  | .error err => throw (mapClient err)

/-- Run every validator that judges the target; one that cannot run is reported. -/
def runChecks (candidate : Bytes) : List (CheckId × String) → Prog EngineOp (List CheckReport)
  | [] => pure []
  | (id, program) :: checks => do
    let report ← match ← runCheck e id candidate with
      | .ok outcome =>
        pure { program, ran := true, passed := outcome.passed, exitCode := outcome.exitCode
               detail := truncateDetail outcome.detail }
      | .error err =>
        pure { program, ran := false, passed := false, exitCode := none
               detail := truncateDetail (clientErrorText err) }
    return report :: (← runChecks candidate checks)

/-- Validate, and refuse outright on any error diagnostic. -/
def validated (module : DynModule) (model : Json) : EngineM Unit := do
  if ← orThrow (ofModule (module.validateJson model)) then throw .invalid else pure ()

def plan (id : String) (model : Json) : EngineM PlanReport := do
  let module ← orThrow (findModule e id)
  let wiring ← modelWiring e id model
  let contents ← mapped (readTarget e wiring.target)
  let current ← orThrow (decode contents.bytes wiring.path)
  validated module model
  let rendered ← orThrow (ofModule (module.applyJson current model))
  let checks ← ExceptT.lift (runChecks e (utf8 rendered) wiring.checks)
  pure { module := module.id, path := wiring.path, rendered
         affectedServices := (wiring.binding.map (·.2)).toList, checks
         currentHash := contents.digest, wouldChange := current ≠ rendered }

def serviceStatus (id : String) : EngineM OpOutcome := do
  let module ← orThrow (findModule e id)
  let _ ← orThrow (moduleId e module)
  match (← wiring e module.descriptor none).binding with
  | none => throw (.noService module.id)
  | some (binding, _) =>
    match ← ExceptT.lift (serviceStatusOf e binding) with
    | .ok status => pure (.status status)
    | .error err => throw (mapStatusError err)

/-- Whether an `Apply` would change nothing; `false` for every other operation. -/
def applyIsNoop : Operation → EngineM Bool
  | .apply id model expectedHash serviceAction _ => do
    let module ← orThrow (findModule e id)
    if ← orThrow (ofModule (module.validateJson model)) then pure false
    else do
      let wiring ← modelWiring e id model
      if serviceAction.isSome && wiring.binding.isNone then pure false
      else do
        let contents ← mapped (readTarget e wiring.target)
        if expectedHash.any (fun expected => expected ≠ contents.digest) then pure false
        else do
          let current ← orThrow (decode contents.bytes wiring.path)
          let rendered ← orThrow (ofModule (module.applyJson current model))
          pure (current = rendered)
  | _ => pure false

/-! ## Apply -/

/-- Ask the monitor to act on a service binding. -/
def act (binding : BindingId) (unit : String) (action : ServiceCommand) : EngineM ServiceReport := do
  let outcome ← mapped (service e binding action.toWire)
  pure { unit, action, active := outcome.active, detail := outcome.detail }

/-- For a module that declares mounts, start those an apply added to `target`;
every error goes into the report. -/
def startMounts (descriptor : ModuleDescriptor) (target : TargetId) :
    Prog EngineOp (Option MountsReport) :=
  if descriptor.addedMounts then do
    match ← mount e target with
    | .ok (activated, units) => pure (some { activated, units, error := none })
    | .error err => pure (some { activated := true, units := [], error := some (mountErrorText err) })
  else pure none

/-- The module id to reload unit files for after a write. -/
def reloadModule (descriptor : ModuleDescriptor) : Except OpsError (Option ModuleId) :=
  if descriptor.reloadUnitFiles then do
    let module ← findModule e descriptor.id
    let id ← moduleId e module
    pure (some id)
  else pure none

/-- Roll back `commit`, if one was armed, and forget it once the monitor confirms. -/
def discardCommit (commit : Option PendingCommit) : EngineM Unit :=
  match commit with
  | none => pure ()
  | some commit => do
    match ← ExceptT.lift (rollbackCommit e commit.commitId) with
    | .ok _ => modifySession (fun s => { s with pendingCommit := none })
    | .error _ => pure ()

def reloadOrDiscard (module : Option ModuleId) (commit : Option PendingCommit) : EngineM Unit :=
  match module with
  | none => pure ()
  | some module => do
    match ← ExceptT.lift (reloadUnitFiles e module) with
    | .ok _ => pure ()
    | .error err => do
      discardCommit e commit
      throw (mapClient err)

/-- Put back the contents a write just replaced, from the backup that write made. -/
def undoWrite (module : String) (target : TargetId) (prev : Option Sha256Digest) (backedUp : Bool) :
    EngineM Unit :=
  match backedUp, prev with
  | true, some prev => do
    let module ← orThrow (findModule e module)
    let id ← orThrow (moduleId e module)
    let backups ← mapped (listBackups e id)
    match backups.find? (fun info => info.target = target && info.digest = prev) with
    | none => throw .noBackup
    | some backup => do
      let _ ← mapped (restoreBackup e id backup.id)
      pure ()
  | _, _ => throw .noBackup

/-- `u16::try_from(secs).unwrap_or(u16::MAX)`. -/
def narrowSecs (secs : Nat) : Nat := if secs < 2 ^ 16 then secs else 2 ^ 16 - 1

/-- Take the next commit id. -/
def takeCommit : EngineM CommitId :=
  Fallible.perform (.session (fun s =>
    (⟨s.nextCommit⟩, { s with nextCommit := min (s.nextCommit + 1) (2 ^ 32 - 1) })))

/-- Start the monitor's commit-confirm timer and describe the window. -/
def armCommit (confirm : Option Nat) (service : Option PendingService) : EngineM PendingCommit := do
  let commitId ← takeCommit
  let requested := narrowSecs (confirm.getD defaultConfirm)
  let (timeoutS, rollbackTargets) ← mapped (startConfirmTimer e commitId requested service)
  let deadline ← Fallible.perform (.timestamp timeoutS)
  pure { commitId, timeoutS, deadline, rollbackTargets }

/-- Arm commit-confirm for a write already on disk; when that fails, put the
previous contents back. -/
def armOrUndo (confirm : Option Nat) (service : Option PendingService) (descriptor : ModuleDescriptor)
    (wiring : Wiring) (written : WriteReceipt) : EngineM PendingCommit := do
  match ← Fallible.attempt (armCommit e confirm service) with
  | .ok commit => pure commit
  | .error arming => do
    let restored ← Fallible.attempt
      (undoWrite e descriptor.id wiring.target written.prevDigest written.backedUp)
    match restored with
    | .ok () => throw (.armFailed arming none)
    | .error err => throw (.armFailed arming (some err))

/-- `unchanged_report`. -/
def unchangedReport (module : String) (path : Path) (digest : Sha256Digest) : ApplyReport where
  module := module
  path := path
  prevHash := some digest
  newHash := digest
  created := false
  backedUp := false
  service := none
  commit := none
  checks := []
  mounts := none

/-- A change an apply has checked and may write. -/
structure Candidate where
  descriptor : ModuleDescriptor
  wiring : Wiring
  reload : Option ModuleId
  current : Sha256Digest
  rendered : Text
  checks : List CheckReport
  commitRequired : Bool

/-- Steps 1 to 4 of `apply`, which only read: the candidate, or the report of an
apply that changes nothing. -/
def prepare (id : String) (model : Json) (expectedHash : Option Sha256Digest)
    (serviceAction : Option ServiceCommand) (confirm : Option Nat) :
    EngineM (ApplyReport ⊕ Candidate) := do
  let module ← orThrow (findModule e id)
  validated module model
  let wiring ← modelWiring e id model
  if serviceAction.isSome && wiring.binding.isNone then throw (.noService module.id)
  let reload ← orThrow (reloadModule e module.descriptor)
  let contents ← mapped (readTarget e wiring.target)
  noteHashes (fun hashes => { hashes with prev := some contents.digest })
  match expectedHash.filter (fun expected => expected ≠ contents.digest) with
  | some expected => throw (.hashConflict expected (some contents.digest))
  | none => do
    let current ← orThrow (decode contents.bytes wiring.path)
    let rendered ← orThrow (ofModule (module.applyJson current model))
    if current = rendered then
      pure (.inl (unchangedReport module.id wiring.path contents.digest))
    else do
      let checks ← ExceptT.lift (runChecks e (utf8 rendered) wiring.checks)
      let commitRequired := module.descriptor.commitConfirm || confirm.isSome
      if commitRequired then
        match ← mapped (pendingCommit e) with
        | some commit => throw (.commitPending commit)
        | none => pure ()
      match checks.find? (fun report => !report.ran || !report.passed) with
      | some report => throw (.checkFailed report.program report.detail)
      | none =>
        pure (.inr { descriptor := module.descriptor, wiring, reload, current := contents.digest
                     rendered, checks, commitRequired })

/-- Step 5: the commit-confirm window of a write that was made. -/
def openWindow (candidate : Candidate) (serviceAction : Option ServiceCommand) (confirm : Option Nat)
    (receipt : WriteReceipt) : EngineM (Option PendingCommit) :=
  if candidate.commitRequired then do
    let service := match serviceAction, candidate.wiring.binding with
      | some action, some (binding, _) => some { binding, action := action.toWire : PendingService }
      | _, _ => none
    let commit ← armOrUndo e confirm service candidate.descriptor candidate.wiring receipt
    modifySession (fun s => { s with
      pendingCommit := some commit, hashes := { s.hashes with commitId := some commit.commitId } })
    if receipt.backedUp then pure (some commit)
    else do
      discardCommit e (some commit)
      throw .noBackup
  else pure none

/-- Step 8: the service action of an apply. -/
def actOrDiscard (candidate : Candidate) (serviceAction : Option ServiceCommand)
    (commit : Option PendingCommit) : EngineM (Option ServiceReport) :=
  match serviceAction, candidate.wiring.binding with
  | some action, some (binding, affected) => do
    match ← Fallible.attempt (act e binding affected.unit action) with
    | .ok report => pure (some report)
    | .error err => do
      discardCommit e commit
      throw err
  | _, _ => pure none

/-- Steps 4 to 8 of `apply`: the write and what follows it. -/
def carryOut (candidate : Candidate) (serviceAction : Option ServiceCommand)
    (confirm : Option Nat) : EngineM ApplyReport := do
  let receipt ← mapped (writeTarget e candidate.wiring.target (some candidate.current)
    (utf8 candidate.rendered) candidate.commitRequired)
  noteHashes (fun hashes =>
    { hashes with prev := receipt.prevDigest, new := some receipt.newDigest })
  let commit ← openWindow e candidate serviceAction confirm receipt
  reloadOrDiscard e candidate.reload commit
  let mounts ← ExceptT.lift (startMounts e candidate.descriptor candidate.wiring.target)
  let service ← actOrDiscard e candidate serviceAction commit
  pure { module := candidate.descriptor.id, path := candidate.wiring.path
         prevHash := receipt.prevDigest, newHash := receipt.newDigest, created := receipt.created
         backedUp := receipt.backedUp, service, commit, checks := candidate.checks, mounts }

def apply (id : String) (model : Json) (expectedHash : Option Sha256Digest)
    (serviceAction : Option ServiceCommand) (confirm : Option Nat) : EngineM ApplyReport := do
  match ← prepare e id model expectedHash serviceAction confirm with
  | .inl report => pure report
  | .inr candidate => carryOut e candidate serviceAction confirm

/-! ## The other mutating operations -/

def restore (id : String) (backupId : BackupId) (expectedHash : Option Sha256Digest) :
    EngineM OpOutcome := do
  let found ← orThrow (findModule e id)
  let module ← orThrow (moduleId e found)
  let wiring ← wiring e found.descriptor none
  let contents ← mapped (readTarget e wiring.target)
  noteHashes (fun hashes => { hashes with prev := some contents.digest })
  match expectedHash.filter (fun expected => expected ≠ contents.digest) with
  | some expected => throw (.hashConflict expected (some contents.digest))
  | none => do
    let (target, newHash) ← mapped (restoreBackup e module backupId)
    noteHashes (fun hashes => { hashes with new := some newHash })
    pure (.restored target newHash)

def serviceAction (id : String) (action : ServiceCommand) : EngineM OpOutcome := do
  let module ← orThrow (findModule e id)
  match (← wiring e module.descriptor none).binding with
  | none => throw (.noService module.id)
  | some (binding, affected) => do
    let report ← act e binding affected.unit action
    pure (.serviced report)

def updateApply (version : String) : EngineM OpOutcome :=
  match e.checkUpdateTag version with
  | some .notReleaseTag => throw .updateTagInvalid
  | some .notNewer => throw .updateNotNewer
  | none => do
    match ← ExceptT.lift (startUpdate e version) with
    | .ok _ => pure (.updateStarted version)
    | .error (.remote .updateRunning) => throw .updateRunning
    | .error (.remote (.unavailable _)) | .error (.remote (.unsupported _)) =>
      throw (.unsupported "update_apply")
    | .error err => throw (mapClient err)

/-- An answer of the certificate hook. -/
def certAnswer (what : String) (hook : EngineOp (Except (String × String) Unit)) (outcome : OpOutcome) :
    EngineM OpOutcome :=
  if e.certFrontEnd then do
    match ← Fallible.perform hook with
    | .ok () => pure outcome
    | .error (id, reason) => throw (.cert id reason)
  else throw (.unsupported what)

/-- `dispatch`: one operation, without auditing. -/
def dispatch : Operation → EngineM OpOutcome
  | .listModules => pure (.modules (e.modules.map (·.descriptor)))
  | .getModule id => getModule e id
  | .validate id model => do
    let module ← orThrow (findModule e id)
    return .validated (← orThrow (ofModule (module.validateJson model)))
  | .plan id model => do return .planned (← plan e id model)
  | .apply id model expectedHash serviceAction confirm => do
    return .applied (← apply e id model expectedHash serviceAction confirm)
  | .confirmCommit commitId => do
    noteHashes (fun hashes => { hashes with commitId := some commitId })
    let commit ← mapped (confirmCommit e commitId)
    modifySession (fun s => { s with pendingCommit := none })
    pure (.commitConfirmed commit)
  | .rollbackCommit commitId => do
    noteHashes (fun hashes => { hashes with commitId := some commitId })
    let (commit, restored) ← mapped (rollbackCommit e commitId)
    modifySession (fun s => { s with pendingCommit := none })
    pure (.rolledBack commit restored)
  | .listBackups id => do
    let module ← orThrow (findModule e id)
    let id ← orThrow (moduleId e module)
    return .backups (← mapped (listBackups e id))
  | .restore id backupId expectedHash => restore e id backupId expectedHash
  | .serviceStatus id => serviceStatus e id
  | .serviceAction id action => serviceAction e id action
  | .hostProfile => pure .host
  | .auditQuery query => do
    match ← Fallible.perform (.query query) with
    | .ok records => pure (.audit records)
    | .error err => throw (.audit err)
  | .certStatus => certAnswer e "cert_status" .certStatus .certStatus
  | .updateStatus => throw (.unsupported "update_status")
  | .certRenew => certAnswer e "cert_renew" .certRenew .certRenewRequested
  | .updateApply version => updateApply e version

/-! ## `execute` -/

/-- `AuditRecord::new`. -/
def newRecord (who : Identity) (op : OpKind) (module : Option String) (result : AuditResult) :
    Prog EngineOp AuditRecord := do
  return { ts := (← Prog.perform (.timestamp 0)), who := who.subject, kind := who.kind, op, module
           prevHash := none, newHash := none, beforeHash := none, afterHash := none
           commitId := none, result, errorId := none, chain := none }

/-- `AuditRecord::with_hashes`. -/
def withHashes (record : AuditRecord) (prev new : Option Sha256Digest) : AuditRecord :=
  { record with
    prevHash := prev.map (·.hex), newHash := new.map (·.hex)
    beforeHash := prev.map (·.hex), afterHash := new.map (·.hex) }

/-- `emit`. -/
def emit (record : AuditRecord) : Prog EngineOp (Except AuditError Unit) :=
  Prog.perform (.record record)

/-- The name of the module an operation is about, when this build has it. -/
def auditedModule (op : Operation) : Option String :=
  op.module.bind (fun id => (e.modules.find? (fun module => module.id = id)).map (·.id))

/-- The best-effort record of a plan that ran validators. -/
def recordPlan (who : Identity) (op : Operation) (result : Except OpsError OpOutcome) :
    Prog EngineOp Unit :=
  match result with
  | .ok (.planned plan) =>
    if plan.checks.any (·.ran) then do
      let record ← newRecord who op.kind (auditedModule e op) .ok
      let _ ← emit (withHashes record (some plan.currentHash) none)
      pure ()
    else pure ()
  | _ => pure ()

/-- The best-effort outcome record of a mutating operation. -/
def recordOutcome (who : Identity) (op : Operation) (result : Except OpsError OpOutcome) :
    Prog EngineOp Unit := do
  let hashes ← Prog.perform (.session (fun s => (s.hashes, s)))
  let outcome : AuditResult := match result with
    | .ok _ => .ok
    | .error _ => .error
  let record ← newRecord who op.kind (auditedModule e op) outcome
  let record := { withHashes record hashes.prev hashes.new with
    commitId := hashes.commitId.map (fun commit => Fin.ofNat (2 ^ 32) commit.get)
    errorId := match result with
      | .ok _ => none
      | .error err => some (messageId e err) }
  let _ ← emit record
  pure ()

/-- The operation itself, with fresh hashes. -/
def perform (op : Operation) : Prog EngineOp (Except OpsError OpOutcome) := do
  Prog.perform (.session (fun s => ((), { s with hashes := Hashes.empty })))
  (dispatch e op).run

/-- An operation that leaves no intent record. -/
def executeQuietly (op : Operation) (who : Identity) : Prog EngineOp (Except OpsError OpOutcome) := do
  let result ← perform e op
  recordPlan e who op result
  pure result

/-- An operation between its intent record and its outcome record. -/
def executeAudited (op : Operation) (who : Identity) : Prog EngineOp (Except OpsError OpOutcome) := do
  let started ← newRecord who op.kind (auditedModule e op) .started
  match ← emit started with
  | .error err => pure (.error (.auditUnavailable err))
  | .ok () => do
    let result ← perform e op
    recordOutcome e who op result
    pure result

/-- `execute`: `permit` is the policy of the caller. -/
def execute (op : Operation) (who : Identity) (permit : Identity → Operation → Except Denied Unit) :
    Prog EngineOp (Except OpsError OpOutcome) :=
  match permit who op with
  | .error denied => do
    let record ← newRecord who op.kind (auditedModule e op) .denied
    let _ ← emit { record with errorId := some denied.id }
    pure (.error (.denied denied))
  | .ok () =>
    if op.isMutating then do
      match ← (applyIsNoop e op).run with
      | .ok true => executeQuietly e op who
      | _ => executeAudited e op who
    else executeQuietly e op who

end Programs

/-! ## The surroundings of an engine -/

/-- Whatever answers the engine: the monitor, the audit sink, the clock, the file
system and the hook of the front end, over a state of its own. -/
structure Env (σ : Type) where
  ask : Request → σ → Except ChannelError Response × σ
  record : AuditRecord → σ → Except AuditError Unit × σ
  query : AuditQuery → σ → Except AuditError (List AuditRecord) × σ
  timestamp : Nat → σ → String × σ
  pathExists : Path → σ → Bool × σ
  certStatus : σ → Except (String × String) Unit × σ
  certRenew : σ → Except (String × String) Unit × σ

/-- Answer from the surroundings; the engine's own fields stay. -/
def Env.outside {σ β : Type} (f : σ → β × σ) (s : Session × σ) : β × (Session × σ) :=
  ((f s.2).1, (s.1, (f s.2).2))

/-- The meaning of the effects. -/
def engine {σ : Type} (env : Env σ) : Handler EngineOp (Session × σ) where
  apply
    | .ask request, s => Env.outside (env.ask request) s
    | .record record, s => Env.outside (env.record record) s
    | .query query, s => Env.outside (env.query query) s
    | .timestamp offsetS, s => Env.outside (env.timestamp offsetS) s
    | .pathExists path, s => Env.outside (env.pathExists path) s
    | .certStatus, s => Env.outside env.certStatus s
    | .certRenew, s => Env.outside env.certRenew s
    | .session f, s => ((f s.1).1, ((f s.1).2, s.2))
  torn _ _ _ := False

end Detent.Source.Engine
