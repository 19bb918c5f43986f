import Detent.Source.Files

/-!
# Atomic writes, backups and in-place writes

`crates/detent-platform/src/fs/atomic.rs:300-595,600-1036`: `write_atomic` and
what it is made of, `restore_backup_with` and `list_backups`, as programs over
the file effects. The paths of the callers are absolute, so the error
`RelativePath` does not occur, and the mode of a created file is not kept. The
`fstat` comparison of `write_in_place` compares the file with itself: nothing
else writes between the two opens of one call.
-/
namespace Detent.Source.Atomic
open Lib

variable [Sha256]

/-- `AtomicError`, without the paths in it. -/
inductive AtomicError where
  | conflict (expected : Sha256Digest) (actual : Option Sha256Digest)
  | io (op : String) (kind : ErrorKind)
  | symlink
  | notRegularFile
  deriving DecidableEq, Repr

/-- Programs of this module. -/
abbrev FileM := ExceptT AtomicError (Prog SysOp)

/-- A call whose error is reported under `op`. -/
def call {β : Type} (op : String) (file : FileOp β) : FileM β := do
  match ← Fallible.perform (.file file) with
  | .ok value => pure value
  | .error kind => throw (.io op kind)

/-- `DEFAULT_KEEP_BACKUPS`. -/
def defaultKeepBackups : Nat := 20

/-- `NAME_ATTEMPTS`. -/
def nameAttempts : Nat := 32

/-- Whether, and how, an existing target may be written in place. The marker is
the one in the state root. -/
inductive InPlace where
  | never | marker | guarded
  deriving DecidableEq, Repr

structure WriteRequest where
  path : Path
  contents : Bytes
  expectedPrev : Option Sha256Digest
  backupDir : Path
  keepBackups : Nat
  inPlace : InPlace

/-- `WriteRequest::new`. -/
def WriteRequest.new (path : Path) (contents : Bytes) (backupDir : Path) : WriteRequest :=
  { path, contents, expectedPrev := none, backupDir, keepBackups := defaultKeepBackups,
    inPlace := .never }

structure WriteOutcome where
  prevDigest : Option Sha256Digest
  newDigest : Sha256Digest
  backup : Option BackupPath
  created : Bool
  ownerPreserved : Bool
  deriving DecidableEq, Repr

/-- The current state of the target file. -/
structure Existing where
  contents : Bytes
  digest : Sha256Digest
  deriving DecidableEq, Repr

/-- Read the target file, refusing symlinks; `none` when it does not exist. -/
def readExisting (path : Path) : FileM (Option Existing) := do
  match ← call "statat" (.readNode path) with
  | none => pure none
  | some (.file contents) => pure (some { contents, digest := Sha256.of contents })
  | some .symlink => throw .symlink
  | some .special => throw .notRegularFile

/-- `read_with_digest` of a target. -/
def readWithDigest (path : Path) : FileM (Bytes × Sha256Digest) := do
  match ← readExisting path with
  | some found => pure (found.contents, found.digest)
  | none => throw (.io "openat" .notFound)

/-- Create a backup file under the first free name, one nanosecond later at each
attempt. -/
def createBackupFile (dir : Path) (short : String) (now : Nat) : Nat → Nat → FileM BackupName
  | _, 0 => throw (.io "openat" .alreadyExists)
  | attempt, left + 1 => do
    let name : BackupName := { stamp := now + attempt, short }
    match ← Fallible.perform (.file (.createBackup { dir, name })) with
    | .ok () => pure name
    | .error .alreadyExists => createBackupFile dir short now (attempt + 1) left
    | .error kind => throw (.io "openat" kind)

/-- Write `contents` into a fresh backup file; a failed write removes it. -/
def writeBackup (dir : Path) (contents : Bytes) (digest : Sha256Digest) (now : Nat) :
    FileM BackupPath := do
  let name ← createBackupFile dir digest.shortHex now 0 nameAttempts
  match ← Fallible.perform (.file (.fillBackup { dir, name } contents)) with
  | .ok () => do
    call "fsync" .fsync
    pure { dir, name }
  | .error kind => do
    let _ ← Fallible.perform (.file (.unlinkBackup { dir, name }))
    throw (.io "write" kind)

def unlinkBackups (dir : Path) : List BackupName → FileM Unit
  | [] => pure ()
  | name :: names => do
    call "unlinkat" (.unlinkBackup { dir, name })
    unlinkBackups dir names

/-- Delete all but `keep` backups: `newest`, and the newest others by name. -/
def rotateBackups (dir : Path) (keep : Nat) (newest : BackupName) : FileM Unit := do
  let names ← call "readdir" (.backupNames dir)
  if names.length ≤ keep then pure ()
  else do
    let others := (names.filter (· ≠ newest)).insertionSort BackupName.After
    unlinkBackups dir (others.drop (keep - 1))
    call "fsync" .fsync

/-- The backup step of `write_atomic`. -/
def backUp (req : WriteRequest) (existing : Option Existing) : FileM (Option BackupPath) :=
  match existing with
  | none => pure none
  | some found =>
    if 0 < req.keepBackups then do
      let now ← Fallible.perform .systemTime
      let path ← writeBackup req.backupDir found.contents found.digest now
      rotateBackups req.backupDir req.keepBackups path.name
      pure (some path)
    else pure none

/-- Create the temp file, fill it, rename it over the target; whether the
previous owner was preserved. -/
def replaceContents (path : Path) (contents : Bytes) (existing : Option Existing) :
    FileM Bool := do
  call "openat" (.createTemp path)
  let preserved ← call "write" (.fillTemp path)
  call "renameat" (.renameTemp path contents)
  call "fsync" .fsync
  pure (existing.isNone || preserved)

/-- `temp_refused`: the directory refuses a temp file. -/
def tempRefused : AtomicError → Bool
  | .io op kind => op = "openat" && (kind = .readOnlyFilesystem || kind = .permissionDenied)
  | _ => false

/-- `write_marker`. -/
def writeMarker (record : InPlaceMarker) : FileM Unit := do
  call "openat" .createInPlace
  call "write" (.fillInPlace record)
  call "fsync" .fsync

/-- `remove_marker`. -/
def removeMarker : FileM Unit := do
  call "unlinkat" .unlinkInPlace
  call "fsync" .fsync

/-- Write `contents` over the existing target on the same inode. -/
def writeInPlace (path : Path) (contents : Bytes) : FileM Unit := do
  call "openat" (.openTruncate path)
  call "write" (.writeTruncated path contents)
  call "fsync" .fsync

/-- The in-place step of `write_atomic`, after a temp file was refused with
`err`. -/
def installInPlace (req : WriteRequest) (found : Existing) (backup : Option BackupPath)
    (err : AtomicError) : FileM Bool :=
  match req.inPlace with
  | .never => throw err
  | .marker =>
    match backup with
    | none => throw err
    | some backup => do
      writeMarker { path := req.path, backup := some backup, prev := found.digest
                    new := Sha256.of req.contents }
      match ← Fallible.attempt (writeInPlace req.path req.contents) with
      | .ok () => do
        removeMarker
        pure true
      -- the open failed, so nothing was truncated
      | .error (.io "openat" kind) => do
        removeMarker
        throw (.io "openat" kind)
      -- the target may be torn: the marker stays
      | .error err => throw err
  | .guarded => do
    writeInPlace req.path req.contents
    pure true

/-- The replacement step of `write_atomic`. -/
def install (req : WriteRequest) (existing : Option Existing) (backup : Option BackupPath) :
    FileM Bool := do
  match ← Fallible.attempt (replaceContents req.path req.contents existing), existing with
  | .error err, some found =>
    if tempRefused err then installInPlace req found backup err else throw err
  | .error err, none => throw err
  | .ok preserved, _ => pure preserved

/-- The optimistic-concurrency check of `write_atomic`. -/
def checkExpected (expectedPrev : Option Sha256Digest) (existing : Option Existing) :
    FileM Unit :=
  match expectedPrev with
  | none => pure ()
  | some expected =>
    let actual := existing.map (·.digest)
    if actual = some expected then pure () else throw (.conflict expected actual)

/-- The replacement, and what `write_atomic` reports. -/
def installReporting (req : WriteRequest) (existing : Option Existing) (backup : Option BackupPath) :
    FileM WriteOutcome := do
  let ownerPreserved ← install req existing backup
  pure { prevDigest := existing.map (·.digest), newDigest := Sha256.of req.contents, backup,
         created := existing.isNone, ownerPreserved }

/-- `write_atomic`. -/
def writeAtomic (req : WriteRequest) : FileM WriteOutcome := do
  let existing ← readExisting req.path
  checkExpected req.expectedPrev existing
  let backup ← backUp req existing
  installReporting req existing backup

/-- One file in a backup directory. -/
structure BackupEntry where
  path : BackupPath
  createdUtc : Nat
  digest : Sha256Digest
  originalLen : Nat
  deriving DecidableEq, Repr

def readEntries (dir : Path) : List BackupName → FileM (List BackupEntry)
  | [] => pure []
  | name :: names => do
    let file ← call "openat" (.readBackup { dir, name })
    let entries ← readEntries dir names
    pure ({ path := { dir, name }, createdUtc := file.modified, digest := Sha256.of file.contents,
            originalLen := file.contents.length } :: entries)

/-- `list_backups`: newest name first. -/
def listBackups (dir : Path) : FileM (List BackupEntry) := do
  let names ← call "readdir" (.backupNames dir)
  readEntries dir (names.insertionSort BackupName.After)

/-- The `WriteRequest` of `restore_backup_with`. -/
def restoreRequest (backup : BackupPath) (target : Path) (contents : Bytes)
    (expectedPrev : Option Sha256Digest) (inPlace : InPlace) : WriteRequest :=
  { WriteRequest.new target contents backup.dir with expectedPrev, inPlace }

/-- `restore_backup_with`: the current contents of `target` are backed up first,
into the directory that holds `backup`. -/
def restoreBackupWith (backup : BackupPath) (target : Path) (expectedPrev : Option Sha256Digest)
    (inPlace : InPlace) : FileM WriteOutcome := do
  let file ← call "openat" (.readBackup backup)
  writeAtomic (restoreRequest backup target file.contents expectedPrev inPlace)

end Detent.Source.Atomic
