import Detent.Guarantees.MemoryTurns
import Detent.Source.Mounts

/-!
# Who calls the mount hooks

Three hooks reach the record of started mounts: a `Mount` request starts units, a
rollback stops those on record, a confirmation forgets them. Every other program
of the monitor leaves the runner as it is, and does on the host with a runner what
it does on the host alone.
-/
namespace Detent.Guarantees.MountCalls
open Lib Source Source.Atomic Source.Monitor Source.Mounts
open Fallible (Uses uses_bind)
open Prog (Uses.bind uses_perform)

/-- Every effect but a call of a mount hook. -/
def NoMounts (β : Type) : SysOp β → Prop
  | .hook (.startAddedMounts _) | .hook .stopStartedMounts | .hook .forgetStartedMounts => False
  | _ => True

section Run

variable [Sha256] {rs : RunnerSetup} {allow : Allowlist} {host : Host}

theorem apply_withRunner {β : Type} {e : SysOp β} (he : NoMounts β e) (d : Disk) (r : Runner) :
    (withRunner rs allow host).apply e (d, r) =
      (((sys host).apply e d).1, ((sys host).apply e d).2, r) := by
  cases e with
  | hook op =>
    cases op with
    | startAddedMounts | stopStartedMounts | forgetStartedMounts => exact he.elim
    | _ => rfl
  | _ => rfl

/-- Without a mount hook the runner stays as it is. -/
theorem run_withRunner {α : Type} {p : Prog SysOp α} (hp : p.Uses NoMounts) (d : Disk) (r : Runner) :
    p.run (withRunner rs allow host) (d, r) =
      ((p.run (sys host) d).1, (p.run (sys host) d).2, r) := by
  induction p generalizing d with
  | ret a => rfl
  | eff e next ih =>
    simp only [Prog.run, apply_withRunner hp.1]
    exact ih _ (hp.2 _) _

/-- A quiet program that ended on the host with a runner. -/
theorem run_quiet {α : Type} {p : Prog SysOp α} {a : α} {d d' : Disk} {r r' : Runner}
    (hp : p.Uses NoMounts) (h : p.run (withRunner rs allow host) (d, r) = (a, d', r')) :
    p.run (sys host) d = (a, d') ∧ r' = r := by
  rw [run_withRunner hp] at h
  obtain ⟨ha, hd⟩ := Prod.mk.inj h
  obtain ⟨hd, hr⟩ := Prod.mk.inj hd
  exact ⟨Prod.ext ha hd, hr.symm⟩

end Run

theorem call_quiet {β : Type} {label : String} (op : FileOp β) :
    Uses NoMounts (call label op) :=
  uses_bind (Fallible.uses_perform trivial) (fun r => by cases r <;> trivial)

theorem createBackupFile_quiet (dir : Path) (short : String) (now attempt left : Nat) :
    Uses NoMounts (createBackupFile dir short now attempt left) := by
  induction left generalizing attempt with
  | zero => trivial
  | succ left ih =>
    apply uses_bind (Fallible.uses_perform trivial)
    intro result
    match result with
    | .ok () => trivial
    | .error .alreadyExists => exact ih (attempt + 1)
    | .error .notFound | .error .readOnlyFilesystem | .error .permissionDenied | .error .other =>
      trivial

theorem writeBackup_quiet (dir : Path) (contents : Bytes) (digest : Sha256Digest) (now : Nat) :
    Uses NoMounts (writeBackup dir contents digest now) := by
  apply uses_bind (createBackupFile_quiet _ _ _ _ _)
  intro name
  apply uses_bind (Fallible.uses_perform trivial)
  intro result
  cases result with
  | ok value => exact uses_bind (call_quiet _) (fun _ => trivial)
  | error kind => exact uses_bind (Fallible.uses_perform trivial) (fun _ => trivial)

theorem unlinkBackups_quiet (dir : Path) (names : List BackupName) :
    Uses NoMounts (unlinkBackups dir names) := by
  induction names with
  | nil => trivial
  | cons name names ih => exact uses_bind (call_quiet _) (fun _ => ih)

theorem rotateBackups_quiet (dir : Path) (keep : Nat) (newest : BackupName) :
    Uses NoMounts (rotateBackups dir keep newest) := by
  apply uses_bind (call_quiet _)
  intro names
  split
  · trivial
  · exact uses_bind (unlinkBackups_quiet _ _) (fun _ => call_quiet _)

variable (req : WriteRequest) (path : Path)

theorem backUp_quiet (existing : Option Existing) : Uses NoMounts (backUp req existing) := by
  unfold backUp
  cases existing with
  | none => trivial
  | some found =>
    dsimp only
    split
    · apply uses_bind (Fallible.uses_perform trivial)
      intro now
      apply uses_bind (writeBackup_quiet _ _ _ _)
      intro backup
      exact uses_bind (rotateBackups_quiet _ _ _) (fun _ => trivial)
    · trivial

theorem writeInPlace_quiet (contents : Bytes) : Uses NoMounts (writeInPlace path contents) :=
  uses_bind (call_quiet _) (fun _ =>
    uses_bind (call_quiet _) (fun _ => call_quiet _))

theorem removeMarker_quiet : Uses NoMounts removeMarker :=
  uses_bind (call_quiet _) (fun _ => call_quiet _)

theorem replaceContents_quiet (contents : Bytes) (existing : Option Existing) :
    Uses NoMounts (replaceContents path contents existing) := by
  apply uses_bind (call_quiet _)
  intro _
  apply uses_bind (call_quiet _)
  intro _
  apply uses_bind (call_quiet _)
  intro _
  exact uses_bind (call_quiet _) (fun _ => trivial)

theorem checkExpected_quiet (expectedPrev : Option Sha256Digest) (existing : Option Existing) :
    Uses NoMounts (checkExpected expectedPrev existing) := by
  unfold checkExpected
  cases expectedPrev with
  | none => trivial
  | some expected =>
    dsimp only
    split <;> trivial

variable [Sha256]

theorem readExisting_quiet : Uses NoMounts (readExisting path) :=
  uses_bind (call_quiet _) (fun node => by
    match node with
    | none | some (.file _) | some .symlink | some .special => trivial)

theorem readWithDigest_quiet : Uses NoMounts (readWithDigest path) :=
  uses_bind (readExisting_quiet path) (fun found => by cases found <;> trivial)

theorem installInPlace_quiet (found : Existing) (backup : Option BackupPath) (err : AtomicError) :
    Uses NoMounts (installInPlace req found backup err) := by
  unfold installInPlace
  split
  · trivial
  · split
    · trivial
    · have hmarker : ∀ record, Uses NoMounts (Atomic.writeMarker record) := fun record =>
        uses_bind (call_quiet _) (fun _ =>
          uses_bind (call_quiet _) (fun _ => call_quiet _))
      apply uses_bind (hmarker _)
      intro _
      apply uses_bind (Fallible.uses_attempt (writeInPlace_quiet _ _))
      intro result
      split
      · exact uses_bind removeMarker_quiet (fun _ => trivial)
      · exact uses_bind removeMarker_quiet (fun _ => trivial)
      · trivial
  · exact uses_bind (writeInPlace_quiet _ _) (fun _ => trivial)

theorem install_quiet (existing : Option Existing) (backup : Option BackupPath) :
    Uses NoMounts (install req existing backup) := by
  apply uses_bind (Fallible.uses_attempt (replaceContents_quiet _ _ _))
  intro result
  match result, existing with
  | .ok preserved, _ => trivial
  | .error err, none => trivial
  | .error err, some found =>
    dsimp only
    split
    · exact installInPlace_quiet req found backup err
    · trivial

theorem writeAtomic_quiet : Uses NoMounts (writeAtomic req) := by
  apply uses_bind (readExisting_quiet _)
  intro existing
  apply uses_bind (checkExpected_quiet _ _)
  intro _
  apply uses_bind (backUp_quiet _ _)
  intro backup
  exact uses_bind (install_quiet _ _ _) (fun _ => trivial)

theorem restoreBackupWith_quiet (backup : BackupPath) (target : Path)
    (expectedPrev : Option Sha256Digest) (inPlace : InPlace) :
    Uses NoMounts (restoreBackupWith backup target expectedPrev inPlace) :=
  uses_bind (call_quiet _) (fun _ => writeAtomic_quiet _)

variable (m : Setup)

theorem previousContents_quiet : (previousContents path).Uses NoMounts := by
  apply Uses.bind (readWithDigest_quiet _)
  intro result
  split <;> trivial

omit [Sha256] in
theorem revalidate_quiet (module : ModuleId) (target : Path) (previous bytes : Bytes) :
    (revalidate m module target previous bytes).Uses NoMounts := by
  have hvalidators : ∀ entries, (runValidators bytes entries).Uses NoMounts := by
    intro entries
    induction entries with
    | nil => trivial
    | cons entry entries ih =>
      apply Uses.bind (uses_perform trivial)
      intro result
      cases result with
      | error err => trivial
      | ok outcome =>
        dsimp only
        split
        · exact ih
        · trivial
  unfold revalidate
  split
  · trivial
  · split
    · exact hvalidators _
    · trivial

theorem writeTarget_quiet (mem : Mem) (id : TargetId) (expectedPrev : Option Sha256Digest)
    (bytes : Bytes) (journal : Bool) :
    (writeTarget m mem id expectedPrev bytes journal).Uses NoMounts := by
  unfold writeTarget
  split
  · trivial
  · apply Uses.bind (previousContents_quiet _)
    intro previous
    cases previous with
    | error err => trivial
    | ok previous =>
      apply Uses.bind (revalidate_quiet m _ _ _ _)
      intro checked
      cases checked with
      | error err => trivial
      | ok _ => exact Uses.bind (writeAtomic_quiet _) (fun r => by cases r <;> trivial)

theorem collectBackups_quiet (module : ModuleId) : (collectBackups m module).Uses NoMounts := by
  have hentries : ∀ dir names, Uses NoMounts (readEntries dir names) := by
    intro dir names
    induction names with
    | nil => trivial
    | cons name names ih =>
      exact uses_bind (call_quiet _) (fun _ => uses_bind ih (fun _ => trivial))
  have hrows : ∀ targets, Uses NoMounts (targetRows targets) := by
    intro targets
    induction targets with
    | nil => trivial
    | cons target targets ih =>
      have hlist : Uses NoMounts (Atomic.listBackups target.backupDir) :=
        uses_bind (call_quiet _) (fun _ => hentries _ _)
      exact uses_bind hlist (fun _ => uses_bind ih (fun _ => trivial))
  unfold collectBackups
  split
  · trivial
  · exact Uses.bind (hrows _) (fun r => by cases r <;> trivial)

theorem restore_quiet (module : ModuleId) (backup : BackupId) :
    (restore m module backup).Uses NoMounts := by
  apply Uses.bind (collectBackups_quiet m module)
  intro result
  cases result with
  | error err => trivial
  | ok rows =>
    dsimp only
    split
    · trivial
    · exact Uses.bind (restoreBackupWith_quiet _ _ _ _) (fun r => by cases r <;> trivial)

theorem runCheck_quiet (id : CheckId) (bytes : Bytes) : (runCheck m id bytes).Uses NoMounts := by
  have hjudged : ∀ entries, (judgedContents entries).Uses NoMounts := by
    intro entries
    induction entries with
    | nil => trivial
    | cons entry entries ih =>
      apply Uses.bind (readWithDigest_quiet _)
      intro result
      cases result with
      | ok found => exact Uses.bind ih (fun _ => trivial)
      | error err => exact ih
  unfold runCheck
  split
  · trivial
  · apply Uses.bind (hjudged _)
    intro found
    dsimp only
    split
    · trivial
    · exact Uses.bind (uses_perform trivial) (fun r => by cases r <;> trivial)

omit [Sha256] in
theorem clearMarker_quiet : clearMarker.Uses NoMounts :=
  Uses.bind (uses_perform trivial) (fun r => by
    match r with
    | .ok () | .error .notFound | .error .alreadyExists | .error .readOnlyFilesystem
    | .error .permissionDenied | .error .other => trivial)

omit [Sha256] in
theorem writeMarker_quiet (record : PendingCommitMarker) :
    (Monitor.writeMarker record).Uses NoMounts := by
  apply Uses.bind (uses_perform trivial)
  intro opened
  cases opened with
  | error kind => trivial
  | ok _ =>
    apply Uses.bind (uses_perform trivial)
    intro filled
    cases filled with
    | error kind => trivial
    | ok _ => exact Uses.bind (uses_perform trivial) (fun r => by cases r <;> trivial)

omit [Sha256] in
theorem startConfirmTimer_quiet (mem : Mem) (commit : CommitId) (timeoutS : Nat)
    (service : Option PendingService) :
    (startConfirmTimer mem commit timeoutS service).Uses NoMounts := by
  unfold startConfirmTimer
  split
  · trivial
  · apply Uses.bind (uses_perform trivial)
    intro now
    apply Uses.bind (uses_perform trivial)
    intro wall
    exact Uses.bind (writeMarker_quiet _) (fun r => by cases r <;> trivial)

/-- The requests whose handlers may call a mount hook. -/
def MayMount : Request → Prop
  | .mount _ | .confirmCommit _ | .rollbackCommit _ => True
  | _ => False

theorem dispatch_quiet (mem : Mem) {request : Request} (h : ¬ MayMount request) :
    (dispatch m mem request).Uses NoMounts := by
  unfold dispatch
  split
  · cases request with
    | mount | confirmCommit | rollbackCommit => exact (h trivial).elim
    | readTarget target =>
      refine Uses.bind ?_ (fun _ => trivial)
      unfold Monitor.readTarget
      split
      · trivial
      · apply Uses.bind (readWithDigest_quiet _)
        intro result
        split <;> trivial
    | writeTarget target expectedPrev bytes journal =>
      exact Uses.bind (writeTarget_quiet m _ _ _ _ _) (fun _ => trivial)
    | runCheck check bytes => exact Uses.bind (runCheck_quiet m _ _) (fun _ => trivial)
    | service binding action =>
      refine Uses.bind ?_ (fun _ => trivial)
      unfold service
      split
      · trivial
      · split
        · exact Uses.bind (uses_perform trivial) (fun r => by cases r <;> trivial)
        · split
          · exact Uses.bind (uses_perform trivial) (fun r => by cases r <;> trivial)
          · trivial
    | listBackups module =>
      have hlist : (Monitor.listBackups m module).Uses NoMounts :=
        Uses.bind (collectBackups_quiet m _) (fun r => by cases r <;> trivial)
      exact Uses.bind hlist (fun _ => trivial)
    | restore module backup => exact Uses.bind (restore_quiet m _ _) (fun _ => trivial)
    | startConfirmTimer commit timeoutS service => exact startConfirmTimer_quiet _ _ _ _
    | reloadUnitFiles module =>
      refine Uses.bind ?_ (fun _ => trivial)
      unfold reloadUnitFiles
      split
      · trivial
      · split
        · exact Uses.bind (uses_perform trivial) (fun r => by cases r <;> trivial)
        · trivial
    | startUpdate tag =>
      refine Uses.bind ?_ (fun _ => trivial)
      unfold startUpdate
      split
      · trivial
      · split
        · exact Uses.bind (uses_perform trivial) (fun r => by
            match r with
            | .ok (.started _) | .ok .alreadyRunning | .error _ => trivial)
        · trivial
    | hello | replaceBinary | shutdown | pendingCommit | stageBegin | stageUpdate => trivial
  · trivial

/-- What a rollback does once the started mounts are stopped. -/
def restoring (entries : List RollbackEntry) (service : Option PendingService) :
    Prog SysOp (Except MonitorError Nat) := do
  let restored ← rollBack entries
  let _ ← replayReload m entries
  let _ ← replayService m service
  match ← clearMarker with
  | .ok () => pure (.ok restored)
  | .error err => pure (.error err)

theorem undo_eq (pending : Pending) :
    undo m pending = (do
      let _ ← stopStartedMounts m pending.entries
      restoring m pending.entries pending.service) :=
  rfl

theorem restoreEntries_quiet (entries : List RollbackEntry) :
    (restoreEntries entries).Uses NoMounts := by
  induction entries with
  | nil => trivial
  | cons entry entries ih =>
    apply Uses.bind (restoreBackupWith_quiet _ _ _ _)
    intro result
    exact Uses.bind ih (fun _ => trivial)

omit [Sha256] in
theorem replayReload_quiet (entries : List RollbackEntry) :
    (replayReload m entries).Uses NoMounts := by
  unfold replayReload
  split
  · exact Uses.bind (uses_perform trivial) (fun r => by cases r <;> trivial)
  · trivial

omit [Sha256] in
theorem replayService_quiet (service : Option PendingService) :
    (replayService m service).Uses NoMounts := by
  unfold replayService
  split
  · trivial
  · split
    · trivial
    · split
      · trivial
      · split
        · exact Uses.bind (uses_perform trivial) (fun r => by cases r <;> trivial)
        · trivial

theorem restoring_quiet (entries : List RollbackEntry) (service : Option PendingService) :
    (restoring m entries service).Uses NoMounts := by
  have hrollBack : (rollBack entries).Uses NoMounts :=
    Uses.bind (restoreEntries_quiet _) (fun _ => trivial)
  apply Uses.bind hrollBack
  intro restored
  apply Uses.bind (replayReload_quiet m _)
  intro _
  apply Uses.bind (replayService_quiet m _)
  intro _
  exact Uses.bind clearMarker_quiet (fun r => by cases r <;> trivial)

theorem recoverInPlace_quiet : Uses NoMounts (recoverInPlace m) := by
  have hstate : ∀ {β : Type} (op : String) (file : FileOp β),
      Uses NoMounts (stateCall op file) := fun _ _ =>
    uses_bind (Fallible.uses_perform trivial) (fun r => by cases r <;> trivial)
  have hlift : ∀ {α : Type} {p : Prog SysOp α}, p.Uses NoMounts →
      Uses NoMounts (ExceptT.lift p : RecoverM α) := fun hp =>
    Uses.bind hp (fun _ => trivial)
  have hremove : Uses NoMounts removeInPlace :=
    uses_bind (hlift removeMarker_quiet) (fun r => by cases r <;> trivial)
  apply uses_bind (hstate _ _)
  intro found
  match found with
  | none => trivial
  | some (.torn written) => trivial
  | some (.whole record) =>
    dsimp only
    split
    · refine uses_bind ?_ (fun _ => trivial)
      apply uses_bind (hlift (readWithDigest_quiet _))
      intro found
      dsimp only
      split
      · exact uses_bind hremove (fun _ => trivial)
      · apply uses_bind (hlift (restoreBackupWith_quiet _ _ _ _))
        intro result
        cases result with
        | ok outcome => exact uses_bind hremove (fun _ => trivial)
        | error err => trivial
    · exact uses_bind hremove (fun _ => trivial)

end Detent.Guarantees.MountCalls
