import Detent.Source.Serve

/-!
# The record of started mounts

`crates/detent-platform/src/privsep/mounts.rs:39-334`: the runner starts the mount
units of the entries an apply added, and keeps one record of what the last start
started. A rollback stops the units on record, a confirmation forgets them.
`crates/detent-platform/src/service/mod.rs:103-117` checks the names of the units.

The init system performs every start and stop it is asked for. `added_mounts` of
the module, the texts of file and name errors and the failures of the runner's own file
calls are parameters. `started` and `stopped` are histories; nothing reads them.
-/
namespace Detent.Source.Mounts
open Lib Source.Monitor

/-- `MountUnit`, and `Recorded`. -/
structure MountUnit where
  mountpoint : String
  unit : String
  deriving DecidableEq, Repr

/-- The units one start started, for the target at `path` while it had `digest`. -/
structure Record where
  path : Path
  digest : Sha256Digest
  units : List MountUnit
  deriving DecidableEq, Repr

/-- The record file, and the mount units of the host that are active. -/
structure Runner where
  record : Option Record
  active : List String
  started : List MountUnit
  stopped : List MountUnit
  deriving DecidableEq, Repr

/-- The file calls of the runner. -/
inductive RunnerOp where
  | readTarget | listBackups | readBackup | readRecord | writeRecord | removeRecord
  deriving DecidableEq, Repr

/-- What the runner is built from: `added` is the module's `added_mounts`, `shelter`
what `protected_paths` gives. -/
structure RunnerSetup where
  added : Text → Text → List MountUnit
  shelter : List Path
  errorText : Atomic.AtomicError → String
  invalidNameText : String → String
  fault : Nat → RunnerOp → Option HookError

/-- `MAX_UNIT_NAME_LEN`. -/
def maxUnitNameLen : Nat := 256

/-- The name without a suffix of `.mount` or `.automount`. -/
def mountStem (name : Text) : Option Text :=
  let strip (suffix : Text) : Option Text :=
    if suffix.isSuffixOf name then some (name.take (name.length - suffix.length)) else none
  (strip ".mount".toList).or (strip ".automount".toList)

/-- `validate_mount_unit_name`. -/
def validMountUnitName (name : String) : Bool :=
  decide (name.utf8ByteSize ≤ maxUnitNameLen) &&
    (mountStem name.toList).any (fun stem => !stem.isEmpty && stem.head? != some '-') &&
    name.toList.all (fun c => c.isAlphanum || c ∈ [':', '_', '.', '\\', '-'])

/-- `Path::components`: the root, then every part that is not empty or `.`. -/
def components (path : String) : List Text :=
  let parts := (path.toList.splitOn '/').filter (fun part => part ≠ [] && part ≠ ['.'])
  if path.toList.head? = some '/' then ['/'] :: parts else parts

/-- `covers`: a mount there would hide one of `paths` or files under one of them. -/
def covers (mountpoint : String) (paths : List Path) : Bool :=
  mountpoint == "/" ||
    paths.any (fun path => (components mountpoint).isPrefixOf (components path) ||
      (components path).isPrefixOf (components mountpoint))

def outcome (unit : MountUnit) (state : MountState) : MountOutcome :=
  { mountpoint := unit.mountpoint, unit := unit.unit, state, detail := "" }

section Runner

variable [Sha256] (rs : RunnerSetup) (allow : Allowlist)

/-- The runner's `read_with_digest` of a target. -/
def readTarget (tick : Nat) (f : Files) (path : Path) : Except HookError (Bytes × Sha256Digest) :=
  match rs.fault tick .readTarget with
  | some err => .error err
  | none =>
    match f.node path with
    | some (.file contents) => .ok (contents, Sha256.of contents)
    | some .symlink => .error (.failed (rs.errorText .symlink))
    | some .special => .error (.failed (rs.errorText .notRegularFile))
    | none => .error (.failed (rs.errorText (.io "openat" .notFound)))

/-- The contents of the newest backup, by name. -/
def newestBackup (tick : Nat) (f : Files) (dir : Path) : Except HookError Bytes :=
  match rs.fault tick .listBackups with
  | some err => .error err
  | none =>
    match ((f.backups dir).names.insertionSort BackupName.After).head? with
    | none => .error (.failed "no backup to compare the target with")
    | some name =>
      match rs.fault tick .readBackup, f.backup { dir, name } with
      | some err, _ => .error err
      | none, some file => .ok file.contents
      | none, none => .error (.failed (rs.errorText (.io "openat" .notFound)))

def text (bytes : Bytes) : Except HookError Text :=
  match ofUtf8 bytes with
  | some source => .ok source
  | none => .error (.failed "the file is not UTF-8")

/-- `mount_unit_states`: names are checked before the init system is asked. -/
def mountUnitStates (active : List String) (names : List String) :
    Except HookError (List (String × UnitState)) :=
  match names.find? (fun name => !validMountUnitName name) with
  | some name => .error (.unavailable (rs.invalidNameText name))
  | none => .ok (names.map (fun name => (name, if name ∈ active then .active else .inactive)))

def stateOf (found : List (String × UnitState)) (unit : String) : Option UnitState :=
  (found.find? (fun state => state.1 = unit)).map (·.2)

/-- What a start does before it writes the record. -/
structure Plan where
  path : Path
  digest : Sha256Digest
  refused : List MountUnit
  allowed : List MountUnit
  toStart : List MountUnit

/-- The file target whose mounts may be started. -/
def mountTarget (target : TargetId) : Except HookError TargetEntry :=
  if allow.config.activateMounts then
    match (allow.target target).filter (fun entry => entry.kind = .file) with
    | none => .error (.failed "unknown file target")
    | some entry =>
      if (allow.module entry.module).any (·.addedMounts) then .ok entry
      else .error (.failed "the target's module declares no mounts")
  else .error (.failed "mount activation is off ([mounts] activate_new_entries)")

/-- The states before the start; nothing is asked when there is no unit. -/
def statesBefore (active : List String) (allowed : List MountUnit) :
    Except HookError (List (String × UnitState)) :=
  if allowed.isEmpty then .ok [] else mountUnitStates rs active (allowed.map (·.unit))

/-- `start_added` up to the record. -/
def planStart (target : TargetId) (tick : Nat) (f : Files) (active : List String) :
    Except HookError Plan := do
  let entry ← mountTarget allow target
  let current ← readTarget rs tick f entry.path
  let previous ← newestBackup rs tick f entry.backupDir
  let units := rs.added (← text previous) (← text current.1)
  let refused := units.filter (fun unit => covers unit.mountpoint rs.shelter)
  let allowed := units.filter (fun unit => !covers unit.mountpoint rs.shelter)
  let before ← statesBefore rs active allowed
  let toStart := allowed.filter (fun unit => stateOf before unit.unit ≠ some .active)
  pure { path := entry.path, digest := current.2, refused, allowed, toStart }

/-- `start_added`: the record is written before anything is started. -/
def startAdded (target : TargetId) (tick : Nat) (f : Files) (r : Runner) :
    Except HookError (List MountOutcome) × Runner :=
  match planStart rs allow target tick f r.active with
  | .error err => (.error err, r)
  | .ok plan =>
    match rs.fault tick .writeRecord with
    | some err => (.error err, r)
    | none =>
      (.ok (plan.refused.map (outcome · .protectedMount) ++ plan.allowed.map (fun unit =>
          outcome unit (if plan.toStart.any (fun started => started.unit = unit.unit) then .mounted
            else .alreadyMounted))),
        { record := some { path := plan.path, digest := plan.digest, units := plan.toStart }
          active := r.active ++ plan.toStart.map (·.unit)
          started := r.started ++ plan.toStart
          stopped := r.stopped })

/-- `forget_started`. -/
def forgetStarted (tick : Nat) (r : Runner) : Except HookError Unit × Runner :=
  match rs.fault tick .removeRecord with
  | some err => (.error err, r)
  | none => (.ok (), { r with record := none })

/-- Whether a record names a file target of a module that declares mounts. -/
def declared (path : Path) : Bool :=
  allow.targets.entries.any (fun entry => entry.path = path && entry.kind = .file &&
    (allow.module entry.module).any (·.addedMounts))

/-- `stop_started`, once the record is read and removed. -/
def stopRecorded (record : Record) (tick : Nat) (f : Files) (r : Runner) :
    Except HookError (List MountOutcome) × Runner :=
  if !declared allow record.path then
    (.error (.failed "the record names a target that declares no mounts"), r)
  else
    match (record.units.map (·.unit)).find? (fun name => !validMountUnitName name) with
    | some name => (.error (.failed (rs.invalidNameText name)), r)
    | none =>
      match readTarget rs tick f record.path with
      | .error err => (.error err, r)
      | .ok (_, digest) =>
        if digest ≠ record.digest then
          (.error (.failed "the file changed after the mounts were started; nothing was stopped"), r)
        else
          (.ok (record.units.map (outcome · .stopped)),
            { r with
              active := r.active.filter (· ∉ record.units.map (·.unit))
              stopped := r.stopped ++ record.units })

/-- `stop_started`. -/
def stopStarted (tick : Nat) (f : Files) (r : Runner) :
    Except HookError (List MountOutcome) × Runner :=
  match rs.fault tick .readRecord with
  | some err => (.error err, r)
  | none =>
    match r.record with
    | none => (.ok [], r)
    | some record =>
      match forgetStarted rs tick r with
      | (.error err, r) => (.error err, r)
      | (.ok (), r) => stopRecorded rs allow record tick f r

/-- The hooks of a monitor whose runner keeps the record. -/
def hookEffect (host : Host) : {β : Type} → HookOp β → Disk → Runner → Except HookError β × Runner
  | _, .startAddedMounts target, d, r => startAdded rs allow target d.tick d.toFiles r
  | _, .stopStartedMounts, d, r => stopStarted rs allow d.tick d.toFiles r
  | _, .forgetStartedMounts, d, r => forgetStarted rs d.tick r
  | _, op, d, r => (host.hook d.tick op, r)

/-- The effects of a monitor with its runner. -/
def withRunner (host : Host) : Handler SysOp (Disk × Runner) where
  apply
    | .hook op, (d, r) =>
      ((hookEffect rs allow host op d r).1,
        { d with tick := d.tick + 1 }, (hookEffect rs allow host op d r).2)
    | e, (d, r) => (((sys host).apply e d).1, ((sys host).apply e d).2, r)
  torn
    | e, (d, r), (d', r') => (sys host).torn e d d' ∧ r' = r

end Runner

/-- The files, the memory of the monitor and the runner. -/
structure MountWorld extends World where
  runner : Runner

/-- What happens in one step: a program of the monitor, its end between two of
them, or an edit by another program. -/
inductive Happening where
  | done (event : Event) (response : Option Response)
  | killed
  | edit (path : Path) (node : Option Node)
  deriving DecidableEq, Repr

inductive MountStep [Sha256] (rs : RunnerSetup) (m : Setup) (host : Host) :
    MountWorld → Happening → MountWorld → Prop
  | done {w : MountWorld} {event : Event} {p : Prog SysOp Ending} {response : Option Response}
      {mem : Option Mem} {d : Disk} {r : Runner} (hprogram : program m w.mem event = some p)
      (hrun : p.run (withRunner rs m.allow host) (w.disk, w.runner) = ((response, mem), d, r)) :
      MountStep rs m host w (.done event response) { disk := d, mem, runner := r }
  | killed {w : MountWorld} : MountStep rs m host w .killed { w with mem := none }
  | edit {w : MountWorld} (path : Path) (node : Option Node) :
      MountStep rs m host w (.edit path node)
        { w with disk := { w.disk with node := Function.update w.disk.node path node } }

end Detent.Source.Mounts
