import Mathlib.Data.List.Sort
import Detent.Lib.Prog
import Detent.Source.Proto

/-!
# Files, markers and the effects on them

The state root, the targets and the backup directories as
`crates/detent-platform/src/fs/atomic.rs` and `privsep/monitor.rs` see them, and
one effect for each system call (or group of calls without a visible state in
between) and for each hook the monitor calls. `Host` holds what the code cannot
choose: the clocks, the calls that fail, the directories that refuse a temp file
and the answers of the hooks, each as a function of the number of effects so far.

Owners, modes and extended attributes are not kept; whether the owner could be
preserved is an answer of the host. A missing parent directory is a call that
fails. Temp files and files that are no backups have no state here: no modelled
function reads them. The text of a marker is its record, or a strict prefix of
it, which is no JSON.
-/
namespace Detent.Source
open Lib

abbrev Path := String

/-- `std::io::ErrorKind`, as far as the code tells kinds apart. -/
inductive ErrorKind where
  | notFound | alreadyExists | readOnlyFilesystem | permissionDenied | other
  deriving DecidableEq, Repr

/-- `ErrorKind::fmt`. -/
def ErrorKind.text : ErrorKind → String
  | .notFound => "entity not found"
  | .alreadyExists => "entity already exists"
  | .readOnlyFilesystem => "read-only filesystem or storage medium"
  | .permissionDenied => "permission denied"
  | .other => "other error"

/-- A file in a backup directory. -/
structure BackupPath where
  dir : Path
  name : BackupName
  deriving DecidableEq, Repr

structure BackupFile where
  name : BackupName
  contents : Bytes
  modified : Nat
  deriving DecidableEq, Repr

/-- A backup directory: its backup files, in directory order, under distinct
names. A missing directory is one without files. -/
structure BackupDir where
  files : List BackupFile
  unique : (files.map (·.name)).Nodup

namespace BackupDir

def empty : BackupDir := { files := [], unique := List.nodup_nil }

def names (dir : BackupDir) : List BackupName := dir.files.map (·.name)

def find (dir : BackupDir) (name : BackupName) : Option BackupFile :=
  dir.files.find? (fun file => file.name = name)

/-- The directory with a new empty file; `none` when the name is taken. -/
def create (dir : BackupDir) (name : BackupName) (modified : Nat) : Option BackupDir :=
  if h : name ∈ dir.names then none
  else some
    { files := dir.files ++ [{ name, contents := [], modified }]
      unique := by
        rw [List.map_append, List.nodup_append']
        exact ⟨dir.unique, List.nodup_singleton _, by simpa [names] using h⟩ }

/-- The directory with the contents of one file replaced. -/
def fill (dir : BackupDir) (name : BackupName) (contents : Bytes) (modified : Nat) : BackupDir where
  files := dir.files.map (fun file =>
    if file.name = name then { file with contents, modified } else file)
  unique := by
    have hsame : ∀ file : BackupFile,
        (if file.name = name then { file with contents, modified } else file).name = file.name := by
      intro file
      split <;> rfl
    simpa only [List.map_map, Function.comp_def, hsame] using dir.unique

/-- The directory without one file. -/
def unlink (dir : BackupDir) (name : BackupName) : BackupDir where
  files := dir.files.filter (fun file => file.name ≠ name)
  unique := dir.unique.sublist (List.filter_sublist.map _)

end BackupDir

/-- What stands at a target path. -/
inductive Node where
  | file (contents : Bytes)
  | symlink
  | special
  deriving DecidableEq, Repr

/-- The write-in-progress record of an in-place write. -/
structure InPlaceMarker where
  path : Path
  backup : Option BackupPath
  prev : Sha256Digest
  new : Sha256Digest
  deriving DecidableEq, Repr

/-- One file to put back if a commit is not confirmed. -/
structure RollbackEntry where
  target : Nat
  path : Path
  backup : BackupPath
  newDigest : Option Sha256Digest
  deriving DecidableEq, Repr

/-- The on-disk crash-recovery marker of a pending commit. -/
structure PendingCommitMarker where
  commit : Nat
  deadlineUnixMs : Nat
  entries : List RollbackEntry
  service : Option PendingService
  deriving DecidableEq, Repr

/-- A marker file: the whole record, or the first `written` bytes of it. -/
inductive MarkerFile (α : Type) where
  | whole (record : α)
  | torn (written : Nat)
  deriving DecidableEq, Repr

/-- The targets, the backup directories and the two markers. `taken` is a history:
the backups written so far, oldest first. No call reads it. -/
structure Files where
  node : Path → Option Node
  backups : Path → BackupDir
  inPlace : Option (MarkerFile InPlaceMarker)
  pending : Option (MarkerFile PendingCommitMarker)
  taken : List BackupPath

/-- The files, and the number of effects so far. -/
structure Disk extends Files where
  tick : Nat

inductive HookError where
  | unavailable (message : String)
  | failed (message : String)
  deriving DecidableEq, Repr

inductive UpdateStart where
  | started (detail : String)
  | alreadyRunning
  deriving DecidableEq, Repr

/-- The calls on files. -/
inductive FileOp : Type → Type
  /-- `statat`, `openat` and `read` of a target. -/
  | readNode (path : Path) : FileOp (Option Node)
  /-- `openat(O_EXCL)` of a temp file beside the target. -/
  | createTemp (path : Path) : FileOp Unit
  /-- Mode, owner, attributes, contents and `fsync` of the temp file; whether
  the owner was preserved. -/
  | fillTemp (path : Path) : FileOp Bool
  /-- `renameat` of the temp file, which holds `contents`. -/
  | renameTemp (path : Path) (contents : Bytes) : FileOp Unit
  /-- `openat(O_WRONLY | O_TRUNC)` of the target. -/
  | openTruncate (path : Path) : FileOp Unit
  /-- `write_all` to the truncated target. -/
  | writeTruncated (path : Path) (contents : Bytes) : FileOp Unit
  | fsync : FileOp Unit
  | backupNames (dir : Path) : FileOp (List BackupName)
  /-- `openat(O_EXCL)` of a backup file. -/
  | createBackup (backup : BackupPath) : FileOp Unit
  | fillBackup (backup : BackupPath) (contents : Bytes) : FileOp Unit
  | readBackup (backup : BackupPath) : FileOp BackupFile
  | unlinkBackup (backup : BackupPath) : FileOp Unit
  | readInPlace : FileOp (Option (MarkerFile InPlaceMarker))
  /-- `openat(O_EXCL)` of the in-place marker. -/
  | createInPlace : FileOp Unit
  | fillInPlace (record : InPlaceMarker) : FileOp Unit
  | unlinkInPlace : FileOp Unit
  | readPending : FileOp (Option (MarkerFile PendingCommitMarker))
  /-- `open(O_CREAT | O_TRUNC)` of the pending-commit marker. -/
  | openPending : FileOp Unit
  | fillPending (record : PendingCommitMarker) : FileOp Unit
  | unlinkPending : FileOp Unit

/-- The calls of `ServiceControl`. -/
inductive HookOp : Type → Type
  | service (binding : BindingId) (action : ServiceAction) : HookOp ServiceOutcome
  | serviceStatus (binding : BindingId) : HookOp UnitStatus
  | reloadUnitFiles : HookOp String
  | startAddedMounts (target : TargetId) : HookOp (List MountOutcome)
  | stopStartedMounts : HookOp (List MountOutcome)
  | forgetStartedMounts : HookOp Unit
  | startUpdate (tag : String) : HookOp UpdateStart

/-- The effects of the monitor. -/
inductive SysOp : Type → Type 1
  | file {β : Type} (op : FileOp β) : SysOp (Except ErrorKind β)
  | hook {β : Type} (op : HookOp β) : SysOp (Except HookError β)
  /-- A candidate file, the validator run on it and its removal. -/
  | runCheck (check : CheckId) (bytes : Bytes) : SysOp (Except HookError CheckOutcome)
  | systemTime : SysOp Nat
  | instant : SysOp Nat

/-- What the code cannot choose. A function of a number answers at that number
of effects. `fault` gives the error of a call that fails and how many bytes it
wrote before. -/
structure Host where
  systemTime : Nat → Nat
  instant : Nat → Nat
  modified : Nat → Nat
  fault : Nat → {β : Type} → FileOp β → Option (ErrorKind × Nat)
  tempRefused : Path → Bool
  ownerPreserved : Path → Bool
  runCheck : Nat → CheckId → Bytes → Except HookError CheckOutcome
  hook : Nat → {β : Type} → HookOp β → Except HookError β

namespace Files

/-- The contents of a regular file at `path`. -/
def contents (f : Files) (path : Path) : Option Bytes :=
  match f.node path with
  | some (.file contents) => some contents
  | _ => none

def setNode (f : Files) (path : Path) (node : Node) : Files :=
  { f with node := Function.update f.node path (some node) }

def setBackups (f : Files) (dir : Path) (files : BackupDir) : Files :=
  { f with backups := Function.update f.backups dir files }

/-- The backup file at `backup`. -/
def backup (f : Files) (backup : BackupPath) : Option BackupFile :=
  (f.backups backup.dir).find backup.name

end Files

/-- What a call does when the host does not fail it: its result and the files
after it, or the error it reports. `tick` is the number of effects before it. -/
def FileOp.effect (host : Host) (tick : Nat) :
    {β : Type} → FileOp β → Files → Except ErrorKind (β × Files)
  | _, .readNode path, f => .ok (f.node path, f)
  | _, .createTemp path, f =>
    if host.tempRefused path then .error .readOnlyFilesystem else .ok ((), f)
  | _, .fillTemp path, f => .ok (host.ownerPreserved path, f)
  | _, .renameTemp path contents, f => .ok ((), f.setNode path (.file contents))
  | _, .openTruncate path, f =>
    match f.node path with
    | some (.file _) => .ok ((), f.setNode path (.file []))
    | some _ => .error .other
    | none => .error .notFound
  | _, .writeTruncated path contents, f => .ok ((), f.setNode path (.file contents))
  | _, .fsync, f => .ok ((), f)
  | _, .backupNames dir, f => .ok ((f.backups dir).names, f)
  | _, .createBackup backup, f =>
    match (f.backups backup.dir).create backup.name (host.modified tick) with
    | some dir => .ok ((), f.setBackups backup.dir dir)
    | none => .error .alreadyExists
  | _, .fillBackup backup contents, f =>
    .ok ((), { f.setBackups backup.dir
      ((f.backups backup.dir).fill backup.name contents (host.modified tick)) with
      taken := f.taken ++ [backup] })
  | _, .readBackup backup, f =>
    match f.backup backup with
    | some file => .ok (file, f)
    | none => .error .notFound
  | _, .unlinkBackup backup, f =>
    match f.backup backup with
    | some _ => .ok ((), f.setBackups backup.dir ((f.backups backup.dir).unlink backup.name))
    | none => .error .notFound
  | _, .readInPlace, f => .ok (f.inPlace, f)
  | _, .createInPlace, f =>
    match f.inPlace with
    | some _ => .error .alreadyExists
    | none => .ok ((), { f with inPlace := some (.torn 0) })
  | _, .fillInPlace record, f => .ok ((), { f with inPlace := some (.whole record) })
  | _, .unlinkInPlace, f =>
    match f.inPlace with
    | some _ => .ok ((), { f with inPlace := none })
    | none => .error .notFound
  | _, .readPending, f => .ok (f.pending, f)
  | _, .openPending, f => .ok ((), { f with pending := some (.torn 0) })
  | _, .fillPending record, f => .ok ((), { f with pending := some (.whole record) })
  | _, .unlinkPending, f =>
    match f.pending with
    | some _ => .ok ((), { f with pending := none })
    | none => .error .notFound

/-- The files after the first `written` bytes of a `write_all`; `none` for a call
that writes nothing or all of it. -/
def FileOp.cutShort (host : Host) (tick written : Nat) :
    {β : Type} → FileOp β → Files → Option Files
  | _, .writeTruncated path contents, f => some (f.setNode path (.file (contents.take written)))
  | _, .fillBackup backup contents, f =>
    some (f.setBackups backup.dir
      ((f.backups backup.dir).fill backup.name (contents.take written) (host.modified tick)))
  | _, .fillInPlace _, f => some { f with inPlace := some (.torn written) }
  | _, .fillPending _, f => some { f with pending := some (.torn written) }
  | _, _, _ => none

/-- A call on files. -/
def FileOp.perform (host : Host) {β : Type} (op : FileOp β) (d : Disk) :
    Except ErrorKind β × Disk :=
  match host.fault d.tick op with
  | some (kind, written) =>
    (.error kind,
      { (op.cutShort host d.tick written d.toFiles).getD d.toFiles with tick := d.tick + 1 })
  | none =>
    match op.effect host d.tick d.toFiles with
    | .ok (value, f) => (.ok value, { f with tick := d.tick + 1 })
    | .error kind => (.error kind, { d with tick := d.tick + 1 })

/-- The meaning of the effects on a host. -/
def sys (host : Host) : Handler SysOp Disk where
  apply
    | .file op, d => op.perform host d
    | .hook op, d => (host.hook d.tick op, { d with tick := d.tick + 1 })
    | .runCheck check bytes, d => (host.runCheck d.tick check bytes, { d with tick := d.tick + 1 })
    | .systemTime, d => (host.systemTime d.tick, { d with tick := d.tick + 1 })
    | .instant, d => (host.instant d.tick, { d with tick := d.tick + 1 })
  torn
    | .file op, d, d' =>
      d'.tick = d.tick + 1 ∧ ∃ written, op.cutShort host d.tick written d.toFiles = some d'.toFiles
    | _, _, _ => False

end Detent.Source
