import Detent.Lib.Prog
import Detent.Source.Sha256

/-!
# The binary swap

`crates/detent-update/src/install.rs:32-175`: `swap`, what it is made of, and
`Installed::rollback`, as programs over the calls they make. A file system is a map
from paths to what stands there, and the staged file, whose random name no other
file has. What is no regular file is neither removed nor written through. The
target is a path `symlink_metadata` finds a regular file under, so its last
component is a name and the kept binary stands at the path followed by the suffix.
-/
namespace Detent.Source.Install
open Lib

abbrev Path := String

/-- The reason of a call that failed. -/
inductive ErrorKind where
  | notFound | alreadyExists | notAFile | other
  deriving DecidableEq, Repr

/-- What stands at a path. -/
inductive Node where
  | file (bytes : Bytes) (mode : Nat)
  | special
  deriving DecidableEq, Repr

/-- The file system, and the staged file while there is one. -/
structure Dir where
  node : Path → Option Node
  staged : Option (Bytes × Nat)

/-- The calls of a swap and of its rollback. -/
inductive InstallOp : Type → Type
  | symlinkMetadata (path : Path) : InstallOp Node
  /-- `NamedTempFile::new_in`. -/
  | createStaged : InstallOp Unit
  | openCandidate (path : Path) : InstallOp Bytes
  /-- `io::copy` to the staged file. -/
  | copyStaged (bytes : Bytes) : InstallOp Unit
  | setMode (mode : Nat) : InstallOp Unit
  | syncStaged : InstallOp Unit
  /-- The staged file is dropped. -/
  | removeStaged : InstallOp Unit
  /-- The removal of the binary kept by an earlier swap. -/
  | removePrevious (path : Path) : InstallOp Unit
  /-- The removal of the kept binary after a failure. -/
  | takeBack (path : Path) : InstallOp Unit
  | hardLink (target previous : Path) : InstallOp Unit
  /-- `fs::copy`, contents and mode. -/
  | copyPrevious (target previous : Path) : InstallOp Unit
  | renameStaged (target : Path) : InstallOp Unit
  | renamePrevious (previous target : Path) : InstallOp Unit
  | openDirectory : InstallOp Unit
  | syncDirectory : InstallOp Unit

/-- A call with its answer as a value. -/
inductive Effect : Type → Type 1
  | call {β : Type} (op : InstallOp β) : Effect (Except ErrorKind β)

/-- Which calls fail, with which reason and after how many bytes. -/
structure Host where
  fault : {β : Type} → InstallOp β → Option (ErrorKind × Nat)

namespace Dir

def set (d : Dir) (path : Path) (node : Option Node) : Dir :=
  { d with node := Function.update d.node path node }

/-- `remove_file`. -/
def removeFile (d : Dir) (path : Path) : Except ErrorKind Unit × Dir :=
  match d.node path with
  | some (.file _ _) => (.ok (), d.set path none)
  | some .special => (.error .notAFile, d)
  | none => (.error .notFound, d)

end Dir

/-- What a call does when the host does not fail it. -/
def InstallOp.effect : {β : Type} → InstallOp β → Dir → Except ErrorKind β × Dir
  | _, .symlinkMetadata path, d =>
    match d.node path with
    | some node => (.ok node, d)
    | none => (.error .notFound, d)
  | _, .createStaged, d => (.ok (), { d with staged := some ([], 0) })
  | _, .openCandidate path, d =>
    match d.node path with
    | some (.file bytes _) => (.ok bytes, d)
    | some .special => (.error .notAFile, d)
    | none => (.error .notFound, d)
  | _, .copyStaged bytes, d =>
    (.ok (), { d with staged := d.staged.map (fun file => (bytes, file.2)) })
  | _, .setMode mode, d => (.ok (), { d with staged := d.staged.map (fun file => (file.1, mode)) })
  | _, .syncStaged, d => (.ok (), d)
  | _, .removeStaged, d => (.ok (), { d with staged := none })
  | _, .removePrevious path, d => d.removeFile path
  | _, .takeBack path, d => d.removeFile path
  | _, .hardLink target previous, d =>
    match d.node target, d.node previous with
    | some (.file bytes mode), none => (.ok (), d.set previous (some (.file bytes mode)))
    | _, some _ => (.error .alreadyExists, d)
    | some .special, none => (.error .notAFile, d)
    | none, none => (.error .notFound, d)
  | _, .copyPrevious target previous, d =>
    match d.node target, d.node previous with
    | some (.file _ _), some .special => (.error .notAFile, d)
    | some (.file bytes mode), _ => (.ok (), d.set previous (some (.file bytes mode)))
    | some .special, _ => (.error .notAFile, d)
    | none, _ => (.error .notFound, d)
  | _, .renameStaged target, d =>
    match d.staged with
    | some (bytes, mode) => (.ok (), { d.set target (some (.file bytes mode)) with staged := none })
    | none => (.error .notFound, d)
  | _, .renamePrevious previous target, d =>
    match d.node previous with
    | some node => (.ok (), (d.set target (some node)).set previous none)
    | none => (.error .notFound, d)
  | _, .openDirectory, d => (.ok (), d)
  | _, .syncDirectory, d => (.ok (), d)

/-- The files after a copy stopped when it had written `written` bytes; `none` for a
call that changes nothing before it succeeds. -/
def InstallOp.cutShort (written : Nat) : {β : Type} → InstallOp β → Dir → Option Dir
  | _, .copyStaged bytes, d =>
    some { d with staged := d.staged.map (fun file => (bytes.take written, file.2)) }
  | _, .copyPrevious target previous, d =>
    match d.node target, d.node previous with
    | some (.file _ _), some .special => none
    | some (.file bytes mode), _ => some (d.set previous (some (.file (bytes.take written) mode)))
    | _, _ => none
  | _, _, _ => none

/-- A call on a host. -/
def InstallOp.perform (host : Host) {β : Type} (op : InstallOp β) (d : Dir) :
    Except ErrorKind β × Dir :=
  match host.fault op with
  | none => op.effect d
  | some (kind, written) => (.error kind, (op.cutShort written d).getD d)

/-- The meaning of the calls on a host. -/
def sys (host : Host) : Handler Effect Dir where
  apply
    | .call op, d => op.perform host d
  torn
    | .call op, d, d' => ∃ written, op.cutShort written d = some d'

/-- `UpdateError`, as far as this module reports it. -/
inductive UpdateError where
  | badTarget (path : Path)
  | install (step : String) (reason : ErrorKind)
  deriving DecidableEq, Repr

/-- Programs of this module. -/
abbrev InstallM := ExceptT UpdateError (Prog Effect)

/-- A call whose error is reported under `step`. -/
def call {β : Type} (step : String) (op : InstallOp β) : InstallM β := do
  match ← Fallible.perform (.call op) with
  | .ok value => pure value
  | .error kind => throw (.install step kind)

/-- A completed swap that can still be undone. -/
structure Installed where
  target : Path
  previous : Path
  deriving DecidableEq, Repr

/-- `<target>.prev`, next to the target. -/
def previousPath (target : Path) : Path := target ++ ".prev"

def syncDirectory : InstallM Unit := do
  call "sync-dir" .openDirectory
  call "sync-dir" .syncDirectory

/-- Put the previous binary back. -/
def Installed.rollback (installed : Installed) : InstallM Unit := do
  call "rollback" (.renamePrevious installed.previous installed.target)
  syncDirectory

/-- A step whose failure drops the staged file. -/
def orDrop {β : Type} (x : InstallM β) : InstallM β := do
  match ← Fallible.attempt x with
  | .ok value => pure value
  | .error err => do
    let _ ← Fallible.perform (.call .removeStaged)
    throw err

/-- Copy `candidate` to the staged file, with the target's mode, and flush it. -/
def stage (candidate : Path) (mode : Nat) : InstallM Unit := do
  call "stage" .createStaged
  orDrop do
    let source ← call "read" (.openCandidate candidate)
    call "copy" (.copyStaged source)
    call "mode" (.setMode mode)
    call "sync" .syncStaged

/-- Keep the current target at `previous`: a hard link, or else a copy. -/
def keepPrevious (target previous : Path) : InstallM Unit := do
  let _ ← Fallible.perform (.call (.removePrevious previous))
  match ← Fallible.perform (.call (.hardLink target previous)) with
  | .ok () => pure ()
  | .error _ => call "keep" (.copyPrevious target previous)

/-- Rename the staged file over the target. -/
def persist (target : Path) : InstallM Unit := call "install" (.renameStaged target)

/-- The steps of `swap` whose failure takes back the kept copy. -/
def keepAndPersist (target previous : Path) : InstallM Unit := do
  orDrop (keepPrevious target previous)
  orDrop (persist target)
  syncDirectory

/-- Replace `target` with the bytes of `candidate`, keeping the old binary. -/
def swap (candidate target : Path) : InstallM Installed := do
  match ← Fallible.perform (.call (.symlinkMetadata target)) with
  | .ok (.file _ mode) => do
    let previous := previousPath target
    stage candidate mode
    match ← Fallible.attempt (keepAndPersist target previous) with
    | .ok () => pure { target, previous }
    | .error err => do
      let _ ← Fallible.perform (.call (.takeBack previous))
      throw err
  | _ => throw (.badTarget target)

end Detent.Source.Install
