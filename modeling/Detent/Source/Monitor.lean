import Detent.Source.Allowlist
import Detent.Source.Atomic
import Detent.Source.ExecDeny

/-!
# The monitor

`crates/detent-platform/src/privsep/monitor.rs:467-1760`: the request handlers,
the commit-confirm state machine and the recovery at startup, as programs over
the file and hook effects. What `&mut self` keeps is `Mem`; it does not survive
the process. The two clocks count nanoseconds. The log lines and the request
summaries are left out, and so is the overflow of a deadline.
-/
namespace Detent.Source.Monitor
open Lib Source.Atomic

variable [Sha256]

/-- `MAX_CONFIRM_TIMEOUT_S`. -/
def maxConfirmTimeoutS : Nat := 3600

/-- `DETAIL_LIMIT`. -/
def detailLimit : Nat := 512

/-- `MonitorError`, without the errors of the channel and of the lock. -/
inductive MonitorError where
  | state (op : String) (kind : ErrorKind)
  | corruptMarker
  deriving DecidableEq, Repr

structure Pending where
  commit : CommitId
  deadline : Nat
  entries : List RollbackEntry
  service : Option PendingService
  deriving DecidableEq, Repr

/-- What the monitor keeps in memory. -/
structure Mem where
  greeted : Bool
  journal : List RollbackEntry
  pending : Option Pending
  deriving DecidableEq, Repr

/-- `Monitor::new`. -/
def Mem.new : Mem := { greeted := false, journal := [], pending := none }

/-- What a monitor is built from. `updateTagRefusal` is the text with which
`check_update_tag` and the running version refuse a tag, `updater` the `update`
feature. -/
structure Setup where
  allow : Allowlist
  modules : List DynModule
  checksConfigured : Bool
  updateTagRefusal : String → Option String
  updater : Bool

def unknown (kind : IdKind) (id : Nat) : Response := .error (.unknownId kind id)

/-- `atomic_to_proto`: the paths are dropped. -/
def atomicToProto : AtomicError → ProtoError
  | .conflict expected actual => .conflict expected actual
  | .io op kind => .io (op ++ ": " ++ kind.text)
  | .symlink => .io "target is a symlink"
  | .notRegularFile => .io "target is not a regular file"

/-- `ProtoError::from` of a hook error. -/
def hookToProto : HookError → ProtoError
  | .unavailable message => .unavailable message
  | .failed message => .io message

/-- The longest start of a text that fits into `limit` bytes. -/
def takeBytes : Nat → Text → Text
  | _, [] => []
  | limit, c :: cs =>
    if c.utf8Size ≤ limit then c :: takeBytes (limit - c.utf8Size) cs else []

def truncate (detail : String) : String := String.ofList (takeBytes detailLimit detail.toList)

/-- One effect that calls a hook. -/
def hook {β : Type} (op : HookOp β) : Prog SysOp (Except HookError β) := Prog.perform (.hook op)

section Handlers

variable (m : Setup)

def readTarget (id : TargetId) : Prog SysOp Response :=
  match m.allow.target id with
  | none => pure (unknown .target id.get)
  | some entry => do
    match ← (readWithDigest entry.path).run with
    | .ok (bytes, digest) => pure (.target { target := id, bytes, digest })
    | .error (.io _ .notFound) => pure (.error .notFound)
    | .error err => pure (.error (atomicToProto err))

/-- A refusal is the error of the response. -/
def validateCandidate (module : DynModule) (bytes : Bytes) : Except ProtoError Unit :=
  match ofUtf8 bytes with
  | none => .error (.io "module content is not valid UTF-8")
  | some source =>
    match module.parseToModelJson source with
    | .error err => .error (.io ("module parser rejected candidate content: " ++ err))
    | .ok model =>
      match module.validateJson model with
      | .error err => .error (.io ("module validation rejected candidate content: " ++ err))
      | .ok true => .error (.io "module validation rejected candidate content")
      | .ok false => .ok ()

/-- The content gate of the write path and of `RunCheck`: no new execution
directive, then the module's parser and validator. -/
def gateContent (module : ModuleId) (previous : List Bytes) (bytes : Bytes) :
    Except ProtoError Unit :=
  match m.allow.module module with
  | none => .error (.unknownId .module module.get)
  | some descriptor =>
    if previous.all (fun previous => ExecDeny.addsExecDirective descriptor.id previous bytes) then
      .error (.io "module content adds a forbidden execution directive")
    else
      match m.modules.find? (fun module => module.id = descriptor.id) with
      | none => .error (.io "module parser is unavailable")
      | some module => validateCandidate module bytes

/-- The external validators of `revalidate`, one after the other. -/
def runValidators (bytes : Bytes) : List CheckEntry → Prog SysOp (Except ProtoError Unit)
  | [] => pure (.ok ())
  | entry :: entries => do
    match ← Prog.perform (.runCheck entry.id bytes) with
    | .error err => pure (.error (hookToProto err))
    | .ok outcome =>
      if outcome.passed then runValidators bytes entries
      else pure (.error (.io "external validator rejected candidate content"))

/-- Re-run the module's and the external validators before a write to `target`. -/
def revalidate (module : ModuleId) (target : Path) (previous bytes : Bytes) :
    Prog SysOp (Except ProtoError Unit) :=
  match gateContent m module [previous] bytes with
  | .error err => pure (.error err)
  | .ok () =>
    if m.checksConfigured then
      runValidators bytes ((m.allow.checksOf module).filter (fun entry => entry.check.judges target))
    else pure (.ok ())

/-- The previous contents `write_target` judges: a missing file is empty. -/
def previousContents (path : Path) : Prog SysOp (Except AtomicError Bytes) := do
  match ← (readWithDigest path).run with
  | .ok (contents, _) => pure (.ok contents)
  | .error (.io _ .notFound) => pure (.ok [])
  | .error err => pure (.error err)

/-- The `WriteRequest` of `write_target`. -/
def writeRequest (entry : TargetEntry) (expectedPrev : Option Sha256Digest) (bytes : Bytes) :
    WriteRequest :=
  { path := entry.path, contents := bytes, expectedPrev, backupDir := entry.backupDir
    keepBackups := m.allow.config.keepBackups, inPlace := .marker }

/-- The journal after a write: one entry more when the write is journaled and
took a backup. A write outside a commit starts a new journal. -/
def Mem.record (mem : Mem) (journal : Bool) (id : TargetId) (path : Path) (outcome : WriteOutcome) :
    Mem :=
  match outcome.backup with
  | some backup =>
    if journal then
      let kept := if mem.pending.isNone then [] else mem.journal
      { mem with journal := kept ++
        [{ target := id.get, path, backup, newDigest := some outcome.newDigest }] }
    else mem
  | none => mem

def writeTarget (mem : Mem) (id : TargetId) (expectedPrev : Option Sha256Digest) (bytes : Bytes)
    (journal : Bool) : Prog SysOp (Response × Mem) :=
  match m.allow.target id with
  | none => pure (unknown .target id.get, mem)
  | some entry => do
    match ← previousContents entry.path with
    | .error err => pure (.error (atomicToProto err), mem)
    | .ok previous =>
      match ← revalidate m entry.module entry.path previous bytes with
      | .error err => pure (.error err, mem)
      | .ok () =>
        match ← (writeAtomic (writeRequest m entry expectedPrev bytes)).run with
        | .error err => pure (.error (atomicToProto err), mem)
        | .ok outcome =>
          pure (.written { target := id, prevDigest := outcome.prevDigest
                           newDigest := outcome.newDigest, created := outcome.created
                           backedUp := outcome.backup.isSome
                           ownerPreserved := outcome.ownerPreserved },
            mem.record journal id entry.path outcome)

/-- The contents of each file a check judges; one that cannot be read adds
nothing. -/
def judgedContents : List TargetEntry → Prog SysOp (List Bytes)
  | [] => pure []
  | entry :: entries => do
    match ← (readWithDigest entry.path).run with
    | .ok (contents, _) => return contents :: (← judgedContents entries)
    | .error _ => judgedContents entries

def runCheck (id : CheckId) (bytes : Bytes) : Prog SysOp Response :=
  match m.allow.check id with
  | none => pure (unknown .check id.get)
  | some entry => do
    let judged := (entry.targets.filterMap m.allow.target).filter (fun target => target.kind = .file)
    let found ← judgedContents judged
    let previous := if found.isEmpty then [[]] else found
    match gateContent m entry.module previous bytes with
    | .error err => pure (.error err)
    | .ok () =>
      match ← Prog.perform (.runCheck id bytes) with
      | .ok outcome =>
        pure (.checked { outcome with check := id, detail := truncate outcome.detail })
      | .error err => pure (.error (hookToProto err))

def service (id : BindingId) (action : ServiceAction) : Prog SysOp Response :=
  match m.allow.binding id with
  | none => pure (unknown .binding id.get)
  | some entry =>
    match action.toCore with
    | none => do
      match ← hook (.serviceStatus id) with
      | .ok status => pure (.unitStatus status)
      | .error err => pure (.error (hookToProto err))
    | some core =>
      if core ∈ entry.binding.actions then do
        match ← hook (.service id action) with
        | .ok outcome =>
          pure (.serviced { outcome with binding := id, detail := truncate outcome.detail })
        | .error err => pure (.error (hookToProto err))
      else pure (.error .actionNotAllowed)

def reloadUnitFiles (module : ModuleId) : Prog SysOp Response :=
  match m.allow.module module with
  | none => pure (unknown .module module.get)
  | some descriptor =>
    if descriptor.reloadUnitFiles then do
      match ← hook .reloadUnitFiles with
      | .ok detail => pure (.unitFilesReloaded (truncate detail))
      | .error err => pure (.error (hookToProto err))
    else pure (.error .actionNotAllowed)

def mount (target : TargetId) : Prog SysOp Response :=
  match m.allow.target target with
  | none => pure (unknown .target target.get)
  | some entry =>
    if (m.allow.module entry.module).all (fun module => !module.addedMounts) then
      pure (.error .actionNotAllowed)
    else if m.allow.config.activateMounts then do
      match ← hook (.startAddedMounts target) with
      | .ok units =>
        pure (.mounted true (units.map (fun unit => { unit with detail := truncate unit.detail })))
      | .error err => pure (.error (hookToProto err))
    else pure (.mounted false [])

def startUpdate (tag : String) : Prog SysOp Response :=
  match m.updateTagRefusal tag with
  | some text => pure (.error (.io text))
  | none =>
    if m.updater then do
      match ← hook (.startUpdate tag) with
      | .ok (.started detail) => pure (.updateStarted (truncate detail))
      | .ok .alreadyRunning => pure (.error .updateRunning)
      | .error err => pure (.error (hookToProto err))
    else pure (.error (.unsupported "this build has no updater"))

/-- A backup in the listing of a module: its target and the target's path. -/
structure Row where
  target : TargetId
  path : Path
  entry : BackupEntry
  deriving DecidableEq, Repr

/-- Newest modification time first, then by path. -/
def Row.Before (left right : Row) : Prop :=
  right.entry.createdUtc < left.entry.createdUtc ∨
    left.entry.createdUtc = right.entry.createdUtc ∧
      (left.entry.path.dir < right.entry.path.dir ∨
        left.entry.path.dir = right.entry.path.dir ∧ right.entry.path.name.After left.entry.path.name)

instance : DecidableRel Row.Before := fun _ _ =>
  inferInstanceAs (Decidable (_ ∨ _ ∧ (_ ∨ _ ∧ _)))

def targetRows : List TargetEntry → FileM (List Row)
  | [] => pure []
  | target :: targets => do
    let entries ← listBackups target.backupDir
    let rows ← targetRows targets
    pure (entries.map (fun entry => { target := target.id, path := target.path, entry }) ++ rows)

/-- `collect_backups`: the backups of all targets of a module, newest first. -/
def collectBackups (module : ModuleId) : Prog SysOp (Except ProtoError (List Row)) :=
  match m.allow.module module with
  | none => pure (.error (.unknownId .module module.get))
  | some _ => do
    match ← (targetRows (m.allow.targetsOf module)).run with
    | .ok rows => pure (.ok (rows.insertionSort Row.Before))
    | .error err => pure (.error (atomicToProto err))

/-- What the worker sees of a row; its id is its position. -/
def Row.info (row : Row) (index : Nat) : BackupInfo where
  id := ⟨index⟩
  target := row.target
  name := row.entry.path.name
  createdUnixS := row.entry.createdUtc / 1000000000
  digest := row.entry.digest
  len := row.entry.originalLen

def listing (rows : List Row) : List BackupInfo := rows.zipIdx.map (fun (row, index) => row.info index)

def listBackups (module : ModuleId) : Prog SysOp Response := do
  match ← collectBackups m module with
  | .ok rows => pure (.backups (listing rows))
  | .error err => pure (.error err)

def restore (module : ModuleId) (backup : BackupId) : Prog SysOp Response := do
  match ← collectBackups m module with
  | .error err => pure (.error err)
  | .ok rows =>
    match rows[backup.get]? with
    | none => pure (unknown .backup backup.get)
    | some row =>
      match ← (restoreBackupWith row.entry.path row.path none .marker).run with
      | .ok outcome => pure (.restored row.target outcome.newDigest)
      | .error err => pure (.error (atomicToProto err))

/-- `Monitor::write_marker`. -/
def writeMarker (record : PendingCommitMarker) : Prog SysOp (Except MonitorError Unit) := do
  match ← Prog.perform (.file .openPending) with
  | .error kind => pure (.error (.state "write" kind))
  | .ok () =>
    match ← Prog.perform (.file (.fillPending record)) with
    | .error kind => pure (.error (.state "write" kind))
    | .ok () =>
      match ← Prog.perform (.file .fsync) with
      | .error kind => pure (.error (.state "write" kind))
      | .ok () => pure (.ok ())

/-- `clear_marker`: a marker that is gone is no error. -/
def clearMarker : Prog SysOp (Except MonitorError Unit) := do
  match ← Prog.perform (.file .unlinkPending) with
  | .ok () => pure (.ok ())
  | .error .notFound => pure (.ok ())
  | .error kind => pure (.error (.state "remove_file" kind))

def startsMounts (entries : List RollbackEntry) : Bool :=
  entries.any (fun entry => m.allow.startsMountsAfter entry.path)

def stopStartedMounts (entries : List RollbackEntry) : Prog SysOp (Except HookError Unit) :=
  if startsMounts m entries then do
    match ← hook .stopStartedMounts with
    | .ok _ => pure (.ok ())
    | .error err => pure (.error err)
  else pure (.ok ())

def replayReload (entries : List RollbackEntry) : Prog SysOp (Except HookError Unit) :=
  if entries.any (fun entry => m.allow.reloadsUnitFilesAfter entry.path) then do
    match ← hook .reloadUnitFiles with
    | .ok _ => pure (.ok ())
    | .error err => pure (.error err)
  else pure (.ok ())

def replayService (service : Option PendingService) : Prog SysOp (Except HookError Unit) :=
  match service with
  | none => pure (.ok ())
  | some service =>
    match m.allow.binding service.binding with
    | none => pure (.error (.failed
        ("service binding " ++ toString service.binding.get ++ " disappeared")))
    | some entry =>
      match service.action.toCore with
      | none => pure (.error (.failed "pending service action is not mutating"))
      | some core =>
        if core ∈ entry.binding.actions then do
          match ← hook (.service service.binding service.action) with
          | .ok _ => pure (.ok ())
          | .error err => pure (.error err)
        else pure (.error (.failed "pending service action is no longer allowed"))

/-- Restore one recorded backup, while the target still has the contents the
write left. -/
def restoreEntry (entry : RollbackEntry) : Prog SysOp (Except AtomicError WriteOutcome) :=
  (restoreBackupWith entry.backup entry.path entry.newDigest .marker).run

/-- Restore the entries in the order given; the results, one for each. -/
def restoreEntries : List RollbackEntry → Prog SysOp (List (Except AtomicError WriteOutcome))
  | [] => pure []
  | entry :: entries => do
    let result ← restoreEntry entry
    return result :: (← restoreEntries entries)

def restoredCount (results : List (Except AtomicError WriteOutcome)) : Nat :=
  results.countP (fun result => result.toOption.isSome)

/-- `roll_back`: newest write first. -/
def rollBack (entries : List RollbackEntry) : Prog SysOp Nat := do
  return restoredCount (← restoreEntries entries.reverse)

/-- The rollback of a pending commit that `rollback_commit`, `enforce_deadline`
and `rollback_pending_on_exit` share: hooks may fail, the marker goes last. -/
def undo (pending : Pending) : Prog SysOp (Except MonitorError Nat) := do
  let _ ← stopStartedMounts m pending.entries
  let restored ← rollBack pending.entries
  let _ ← replayReload m pending.entries
  let _ ← replayService m pending.service
  match ← clearMarker with
  | .ok () => pure (.ok restored)
  | .error err => pure (.error err)

def startConfirmTimer (mem : Mem) (commit : CommitId) (timeoutS : Nat)
    (service : Option PendingService) : Prog SysOp (Except MonitorError Response × Mem) :=
  match mem.pending with
  | some pending => pure (.ok (.error (.commitPending pending.commit)), mem)
  | none => do
    let timeoutS := min (max timeoutS 1) maxConfirmTimeoutS
    let entries := mem.journal
    let mem := { mem with journal := [] }
    let deadline := (← Prog.perform .instant) + timeoutS * 1000000000
    let deadlineUnixMs := (← Prog.perform .systemTime) / 1000000 + timeoutS * 1000
    match ← writeMarker { commit := commit.get, deadlineUnixMs, entries, service } with
    | .error err => pure (.error err, mem)
    | .ok () =>
      pure (.ok (.confirmTimerStarted commit timeoutS (min entries.length 65535)),
        { mem with pending := some { commit, deadline, entries, service } })

/-- Roll back if the pending commit's deadline has passed. -/
def enforceDeadline (mem : Mem) : Prog SysOp (Except MonitorError Unit × Mem) :=
  match mem.pending with
  | none => pure (.ok (), mem)
  | some pending => do
    if pending.deadline ≤ (← Prog.perform .instant) then
      match ← undo m pending with
      | .ok _ => pure (.ok (), { mem with pending := none })
      | .error err => pure (.error err, { mem with pending := none })
    else pure (.ok (), mem)

def rollbackPendingOnExit (mem : Mem) : Prog SysOp (Except MonitorError Unit) :=
  match mem.pending with
  | none => pure (.ok ())
  | some pending => do
    match ← undo m pending with
    | .ok _ => pure (.ok ())
    | .error err => pure (.error err)

def forgetStartedMounts (entries : List RollbackEntry) : Prog SysOp (Except HookError Unit) :=
  if startsMounts m entries then hook .forgetStartedMounts else pure (.ok ())

/-- The confirmation of a commit that has not expired. -/
def confirmPending (mem : Mem) (pending : Pending) :
    Prog SysOp (Except MonitorError Response × Mem) := do
  let _ ← forgetStartedMounts m pending.entries
  match ← clearMarker with
  | .ok () => pure (.ok (.committed pending.commit), { mem with pending := none })
  | .error err => pure (.error err, { mem with pending := none })

def confirmCommit (mem : Mem) (commit : CommitId) : Prog SysOp (Except MonitorError Response × Mem) :=
  match mem.pending with
  | some pending =>
    if pending.commit = commit then do
      if pending.deadline ≤ (← Prog.perform .instant) then
        match ← enforceDeadline m mem with
        | (.ok (), mem) => pure (.ok (.error (.commitExpired commit)), mem)
        | (.error err, mem) => pure (.error err, mem)
      else confirmPending m mem pending
    else pure (.ok (unknown .commit commit.get), mem)
  | none => pure (.ok (unknown .commit commit.get), mem)

def rollbackCommit (mem : Mem) (commit : CommitId) :
    Prog SysOp (Except MonitorError Response × Mem) :=
  match mem.pending with
  | some pending =>
    if pending.commit = commit then do
      match ← undo m pending with
      | .ok restored =>
        pure (.ok (.rolledBack commit (min restored 65535)), { mem with pending := none })
      | .error err => pure (.error err, { mem with pending := none })
    else pure (.ok (unknown .commit commit.get), mem)
  | none => pure (.ok (unknown .commit commit.get), mem)

/-- A handler that leaves the memory alone and cannot fail the monitor. -/
def answer (mem : Mem) (response : Prog SysOp Response) :
    Prog SysOp (Except MonitorError Response × Mem) := do
  return (.ok (← response), mem)

/-- The requests before the handshake. -/
def greet (mem : Mem) (request : Request) : Response × Mem :=
  match request with
  | .hello proto =>
    if proto = protoVersion then (.helloAck m.allow.helloAck, { mem with greeted := true })
    else (.error (.versionMismatch protoVersion proto), mem)
  | _ => (.error .handshakeRequired, mem)

def dispatch (mem : Mem) (request : Request) : Prog SysOp (Except MonitorError Response × Mem) :=
  if mem.greeted then
    match request with
    | .hello _ => answer mem (pure (.error .handshakeRequired))
    | .readTarget target => answer mem (readTarget m target)
    | .writeTarget target expectedPrev bytes journal => do
      let (response, mem) ← writeTarget m mem target expectedPrev bytes journal
      pure (.ok response, mem)
    | .runCheck check bytes => answer mem (runCheck m check bytes)
    | .service binding action => answer mem (service m binding action)
    | .listBackups module => answer mem (listBackups m module)
    | .restore module backup => answer mem (restore m module backup)
    | .startConfirmTimer commit timeoutS service => startConfirmTimer mem commit timeoutS service
    | .confirmCommit commit => confirmCommit m mem commit
    | .rollbackCommit commit => rollbackCommit m mem commit
    | .pendingCommit => answer mem (pure (.pending (mem.pending.map (·.commit))))
    | .mount target => answer mem (mount m target)
    | .replaceBinary .. | .stageBegin .. | .stageUpdate .. =>
      answer mem (pure (.error (.unsupported "the monitor installs no release; use StartUpdate")))
    | .shutdown => answer mem (pure .shuttingDown)
    | .reloadUnitFiles module => answer mem (reloadUnitFiles m module)
    | .startUpdate tag => answer mem (startUpdate m tag)
  else
    let (response, mem) := greet m mem request
    pure (.ok response, mem)

/-- One request of the serve loop: without the state lock a greeted monitor
refuses every change of state. -/
def serveRequest (lockHeld : Bool) (mem : Mem) (request : Request) :
    Prog SysOp (Except MonitorError Response × Mem) :=
  if !lockHeld && mem.greeted && request.changesState then
    pure (.ok (.error .stateLockUnavailable), mem)
  else dispatch m mem request

/-- Programs of the recovery. -/
abbrev RecoverM := ExceptT MonitorError (Prog SysOp)

/-- A call whose error stops the monitor. -/
def stateCall {β : Type} (op : String) (file : FileOp β) : RecoverM β := do
  match ← Fallible.perform (.file file) with
  | .ok value => pure value
  | .error kind => throw (.state op kind)

/-- What the recovery did with a leftover in-place marker. -/
inductive InPlaceOutcome where
  | whole | restored | refused
  | failed (err : AtomicError)
  deriving DecidableEq, Repr

structure InPlaceRecovered where
  path : Path
  outcome : InPlaceOutcome
  deriving DecidableEq, Repr

/-- `remove_marker` at recovery. -/
def removeInPlace : RecoverM Unit := do
  match ← ExceptT.lift removeMarker.run with
  | .ok () => pure ()
  | .error _ => throw (.state "remove_file" .other)

/-- The allow-listed file target an in-place marker names, with its backup in
that target's backup directory. -/
def markedTarget (record : InPlaceMarker) : Option TargetEntry :=
  m.allow.targets.entries.find? (fun entry =>
    entry.path = record.path && entry.kind = .file &&
      record.backup.any (fun backup => backup.dir = entry.backupDir))

/-- A marked target that has the new or the previous contents is whole. Any other
contents are replaced by the backup; when that fails the marker stays. -/
def settleInPlace (record : InPlaceMarker) (backup : BackupPath) : RecoverM InPlaceOutcome := do
  let found ← ExceptT.lift (readWithDigest record.path).run
  let now := found.toOption.map (·.2)
  if now = some record.new || now = some record.prev then do
    removeInPlace
    pure .whole
  else do
    match ← ExceptT.lift (restoreBackupWith backup record.path none .guarded).run with
    | .ok _ => do
      removeInPlace
      pure .restored
    | .error err => pure (.failed err)

def recoverInPlace : RecoverM (Option InPlaceRecovered) := do
  match ← stateCall "read" .readInPlace with
  | none => pure none
  | some (.torn _) => throw .corruptMarker
  | some (.whole record) =>
    match markedTarget m record, record.backup with
    | some _, some backup => do
      let outcome ← settleInPlace record backup
      pure (some { path := record.path, outcome })
    | _, _ => do
      removeInPlace
      pure (some { path := record.path, outcome := .refused })

/-- A step of the commit recovery that failed. -/
inductive Failure where
  | hook (err : HookError)
  | restore (err : AtomicError)
  deriving DecidableEq, Repr

structure Recovered where
  commit : CommitId
  restored : Nat
  failures : List Failure
  deriving DecidableEq, Repr

def hookFailure : Except HookError Unit → List Failure
  | .ok () => []
  | .error err => [.hook err]

def restoreFailures (results : List (Except AtomicError WriteOutcome)) : List Failure :=
  results.filterMap (fun
    | .ok _ => none
    | .error err => some (.restore err))

/-- Roll back a commit that was armed by a monitor that then died. -/
def recoverPending : RecoverM (Option Recovered) := do
  let _ ← recoverInPlace m
  match ← stateCall "read" .readPending with
  | none => pure none
  | some (.torn _) => throw .corruptMarker
  | some (.whole record) => do
    let stopped ← ExceptT.lift (stopStartedMounts m record.entries)
    let results ← ExceptT.lift (restoreEntries record.entries.reverse)
    let reloaded ← ExceptT.lift (replayReload m record.entries)
    let replayed ← ExceptT.lift (replayService m record.service)
    stateCall "remove_file" .unlinkPending
    pure (some { commit := ⟨record.commit⟩, restored := restoredCount results
                 failures := hookFailure stopped ++ restoreFailures results ++
                   hookFailure reloaded ++ hookFailure replayed })

end Handlers

end Detent.Source.Monitor
