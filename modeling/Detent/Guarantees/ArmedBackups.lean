import Detent.Guarantees.Crashes
import Detent.Guarantees.MemoryTurns
import Detent.Guarantees.Retention

/-!
# The backups of a pending commit

Rotation knows nothing of a pending commit: each write and each restore in its
window, and each restore of the rollback itself, takes one more backup and deletes
the lowest names. An armed backup outlives the window as long as, before each of
these steps, few enough backups of its directory sort above it.
-/
namespace Detent.Guarantees.ArmedBackups
open Lib Source Source.Atomic Source.Monitor
open Fallible (Uses cut_end exec exec_bind_cases perform uses_bind uses_perform)
open Prog (run_bind_eq)

variable {f f' : Files} {backup : BackupPath} {r : Except AtomicError WriteOutcome} {mem mem' : Mem}

section Names

variable {host : Host} {d d' : Disk} {dir : Path}

/-- Every effect but the creation of a backup file. -/
def CreatesNone (β : Type) : SysOp β → Prop
  | .file (.createBackup _) => False
  | _ => True

theorem names_fill (files : BackupDir) (name : BackupName) (contents : Bytes) (modified : Nat) :
    (files.fill name contents modified).names = files.names := by
  have hsame : ∀ file : BackupFile,
      (if file.name = name then { file with contents, modified } else file).name = file.name := by
    intro file
    split <;> rfl
  simp only [BackupDir.names, BackupDir.fill, List.map_map, Function.comp_def, hsame]

theorem names_setBackups {other : Path} {files : BackupDir} (taken : List BackupPath)
    (h : files.names.Sublist (f.backups other).names) :
    (({ f.setBackups other files with taken } : Files).backups dir).names.Sublist
      (f.backups dir).names := by
  by_cases heq : dir = other
  · subst heq
    simpa only [Files.setBackups, Function.update_self] using h
  · simp only [Files.setBackups, Function.update_of_ne heq, List.Sublist.refl]

theorem effect_names {β : Type} {op : FileOp β} {tick : Nat} {value : β}
    (hop : CreatesNone _ (.file op)) (heffect : op.effect host tick f = .ok (value, f')) :
    (f'.backups dir).names.Sublist (f.backups dir).names := by
  cases op with
  | createBackup backup => exact hop.elim
  | fillBackup backup contents =>
    cases heffect
    exact names_setBackups _ (by rw [names_fill])
  | unlinkBackup backup =>
    simp only [FileOp.effect] at heffect
    split at heffect <;> cases heffect
    exact names_setBackups f.taken (List.filter_sublist.map _)
  | _ =>
    simp only [FileOp.effect] at heffect
    (try split at heffect) <;> cases heffect
    all_goals exact List.Sublist.refl _

theorem cutShort_names {β : Type} {op : FileOp β} {tick written : Nat}
    (hcut : op.cutShort host tick written f = some f') :
    (f'.backups dir).names.Sublist (f.backups dir).names := by
  cases op with
  | fillBackup backup contents =>
    cases hcut
    exact names_setBackups f.taken (by rw [names_fill])
  | _ =>
    cases hcut
    all_goals exact List.Sublist.refl _

theorem perform_names {β : Type} (op : FileOp β) (hop : CreatesNone _ (.file op)) (d : Disk) :
    (((op.perform host d).2).backups dir).names.Sublist (d.backups dir).names := by
  rcases hperform : op.perform host d with ⟨kind | value, d'⟩
  · obtain ⟨hsame | ⟨written, hcut⟩, -⟩ := perform_error hperform
    · rw [hsame]
    · exact cutShort_names hcut
  · exact effect_names hop (perform_ok hperform).1

/-- A program that creates no backup file adds no name. -/
theorem run_names {α : Type} {p : Prog SysOp α} {a : α} (hp : p.Uses CreatesNone)
    (h : p.run (sys host) d = (a, d')) :
    (d'.backups dir).names.Sublist (d.backups dir).names := by
  have hrun := hp.run_invariant (h := sys host)
    (I := fun t => (t.backups dir).names.Sublist (d.backups dir).names)
    (fun _ e t he ht => by
      cases e with
      | file op => exact (perform_names op he t).trans ht
      | hook | runCheck | systemTime => exact ht
      | instant => exact ht) (List.Sublist.refl _)
  rwa [h] at hrun

/-- At most one more name than before. -/
def Grown (dir : Path) (f f' : Files) : Prop :=
  ∃ more : List BackupName, more.length ≤ 1 ∧
    (f'.backups dir).names.Sublist ((f.backups dir).names ++ more)

theorem Grown.of_sublist (h : (f'.backups dir).names.Sublist (f.backups dir).names) :
    Grown dir f f' :=
  ⟨[], by simp, by simpa using h⟩

theorem Grown.trans_sublist {f'' : Files} (h : Grown dir f f')
    (hrest : (f''.backups dir).names.Sublist (f'.backups dir).names) : Grown dir f f'' := by
  obtain ⟨more, hmore, hnames⟩ := h
  exact ⟨more, hmore, hrest.trans hnames⟩

theorem names_create {modified : Nat} {created : BackupDir}
    (h : (f.backups backup.dir).create backup.name modified = some created) :
    Grown dir f (f.setBackups backup.dir created) := by
  unfold BackupDir.create at h
  split at h <;> cases h
  by_cases heq : dir = backup.dir
  · subst heq
    refine ⟨[backup.name], by simp, ?_⟩
    simp [Files.setBackups, BackupDir.names]
  · apply Grown.of_sublist
    simp only [Files.setBackups, Function.update_of_ne heq, List.Sublist.refl]

theorem perform_create {r : Except ErrorKind Unit}
    (h : (FileOp.createBackup backup).perform host d = (r, d')) :
    Grown dir d.toFiles d'.toFiles ∧ ((∃ kind, r = .error kind) → d'.toFiles = d.toFiles) := by
  cases r with
  | error kind =>
    obtain ⟨hsame | ⟨written, hcut⟩, -⟩ := perform_error h
    · exact ⟨.of_sublist (by rw [hsame]), fun _ => hsame⟩
    · cases hcut
  | ok value =>
    refine ⟨?_, by simp⟩
    have heffect := (perform_ok h).1
    simp only [FileOp.effect] at heffect
    split at heffect
    · rename_i created hcreate
      injection heffect with heffect
      rw [← (Prod.mk.inj heffect).2]
      exact names_create hcreate
    · cases heffect

/-- The search for a free name creates one file at most. -/
theorem createBackupFile_grown {short : String} {now attempt left : Nat} {other : Path}
    {r : Except AtomicError BackupName}
    (h : exec (sys host) (createBackupFile other short now attempt left) d = (r, d')) :
    Grown dir d.toFiles d'.toFiles := by
  induction left generalizing attempt d with
  | zero =>
    cases h
    exact .of_sublist (List.Sublist.refl _)
  | succ left ih =>
    obtain ⟨result, t, hresult, h⟩ := Fallible.exec_lift_bind _ h
    have hcreate : Grown dir d.toFiles t.toFiles ∧
        ((∃ kind, result = .error kind) → t.toFiles = d.toFiles) := perform_create hresult
    obtain ⟨hgrown, hsame⟩ := hcreate
    match result with
    | .ok () =>
      cases h
      exact hgrown
    | .error .alreadyExists =>
      rw [← hsame ⟨_, rfl⟩]
      exact ih h
    | .error .notFound | .error .readOnlyFilesystem | .error .permissionDenied | .error .other =>
      cases h
      exact hgrown

theorem call_createsNone {β : Type} {label : String} {op : FileOp β}
    (hop : CreatesNone _ (.file op)) : Uses CreatesNone (call label op) :=
  uses_bind (uses_perform hop) (fun r => by cases r <;> trivial)

theorem unlinkBackups_createsNone (other : Path) (names : List BackupName) :
    Uses CreatesNone (unlinkBackups other names) := by
  induction names with
  | nil => trivial
  | cons name names ih => exact uses_bind (call_createsNone (by trivial)) (fun _ => ih)

theorem rotateBackups_createsNone (other : Path) (keep : Nat) (newest : BackupName) :
    Uses CreatesNone (rotateBackups other keep newest) := by
  apply uses_bind (call_createsNone (by trivial))
  intro names
  split
  · trivial
  · apply uses_bind (unlinkBackups_createsNone _ _)
    intro _
    exact call_createsNone trivial

theorem fill_createsNone (other : Path) (name : BackupName) (contents : Bytes) :
    Uses CreatesNone (do
      match ← perform (.file (.fillBackup { dir := other, name } contents)) with
      | .ok () => do
        call "fsync" .fsync
        pure { dir := other, name }
      | .error kind => do
        let _ ← perform (.file (.unlinkBackup { dir := other, name }))
        throw (.io "write" kind) : FileM BackupPath) := by
  apply uses_bind (uses_perform trivial)
  intro result
  cases result with
  | ok _ => exact uses_bind (call_createsNone trivial) (fun _ => trivial)
  | error kind => exact uses_bind (uses_perform trivial) (fun _ => trivial)

/-- A backup step adds one name at most. -/
theorem backUp_grown {req : WriteRequest} {existing : Option Existing}
    {r : Except AtomicError (Option BackupPath)}
    (h : exec (sys host) (backUp req existing) d = (r, d')) :
    Grown dir d.toFiles d'.toFiles := by
  unfold backUp at h
  cases existing with
  | none =>
    cases h
    exact .of_sublist (List.Sublist.refl _)
  | some found =>
    dsimp only at h
    split at h
    · obtain ⟨now, d₁, hclock, h⟩ := Fallible.exec_lift_bind _ h
      have hd₁ : d₁.toFiles = d.toFiles := by
        cases hclock
        rfl
      rw [← hd₁]
      have hwritten : ∀ {r' : Except AtomicError BackupPath} {d₂ : Disk},
          exec (sys host) (writeBackup req.backupDir found.contents found.digest now) d₁ =
            (r', d₂) → Grown dir d₁.toFiles d₂.toFiles := by
        intro r' d₂ hwrite
        rcases exec_bind_cases _ hwrite with ⟨err, -, hcreate⟩ | ⟨name, d₃, hcreate, hfill⟩
        · exact createBackupFile_grown hcreate
        · exact (createBackupFile_grown hcreate).trans_sublist
            (run_names (fill_createsNone _ _ _) hfill)
      rcases exec_bind_cases _ h with ⟨err, -, hwrite⟩ | ⟨backup, d₂, hwrite, h⟩
      · exact hwritten hwrite
      · refine (hwritten hwrite).trans_sublist (run_names ?_ h)
        exact uses_bind (rotateBackups_createsNone _ _ _) (fun _ => trivial)
    · cases h
      exact .of_sublist (List.Sublist.refl _)

variable [Sha256]

theorem restoreBackupWith_grown {source : BackupPath} {target : Path}
    {expectedPrev : Option Sha256Digest} {inPlace : InPlace} {r : Except AtomicError WriteOutcome}
    (h : exec (sys host) (restoreBackupWith source target expectedPrev inPlace) d = (r, d')) :
    Grown dir d.toFiles d'.toFiles := by
  rcases exec_bind_cases _ h with ⟨err, -, hread⟩ | ⟨file, d₁, hread, h⟩
  · exact .of_sublist (by rw [exec_reads (call_confined (.inl rfl)) hread])
  have hd₁ := exec_reads (call_confined (.inl rfl)) hread
  rcases exec_bind_cases _ h with ⟨err, -, hexisting⟩ | ⟨existing, d₂, hexisting, h⟩
  · exact .of_sublist (by rw [exec_reads (readExisting_confined _) hexisting, hd₁])
  have hd₂ := (exec_reads (readExisting_confined _) hexisting).trans hd₁
  rcases exec_bind_cases _ h with ⟨err, -, hcheck⟩ | ⟨_, d₃, hcheck, h⟩
  · exact .of_sublist (by rw [exec_reads (checkExpected_confined _ _) hcheck, hd₂])
  have hd₃ := (exec_reads (checkExpected_confined _ _) hcheck).trans hd₂
  rw [← hd₃]
  rcases exec_bind_cases _ h with ⟨err, -, hbackup⟩ | ⟨taken, d₄, hbackup, h⟩
  · exact backUp_grown hbackup
  · refine (backUp_grown hbackup).trans_sublist ?_
    have hconfined : Confined (fun part => part = .node target ∨ part = .inPlace)
        (installReporting (restoreRequest source target file.contents expectedPrev inPlace) existing
          taken) := installReporting_confined (.inl rfl) (.inr rfl) _ _
    rw [(exec_agree hconfined h).backups dir (by simp)]

end Names

theorem above_sublist {name : BackupName} {names names' : List BackupName}
    (h : names'.Sublist names) : above name names' ≤ above name names :=
  (h.filter _).length_le

theorem above_grown {name : BackupName} {dir : Path} (h : Grown dir f f') :
    above name (f'.backups dir).names ≤ above name (f.backups dir).names + 1 := by
  obtain ⟨more, hmore, hnames⟩ := h
  have hfew : above name more ≤ more.length := List.length_filter_le _ _
  calc above name (f'.backups dir).names
      ≤ above name ((f.backups dir).names ++ more) := above_sublist hnames
    _ = above name (f.backups dir).names + above name more := by
        simp only [above, List.filter_append, List.length_append]
    _ ≤ above name (f.backups dir).names + 1 := by omega

section Window

variable [Sha256] (m : Setup) (host : Host)

/-- The commit is pending in the monitor's memory. -/
def Armed (pending : Pending) (w : World) : Prop :=
  ∃ mem, w.mem = some mem ∧ mem.pending = some pending

/-- One more backup in `dir`, rotated to `keep`, spares the armed ones there. -/
def Shallow (entries : List RollbackEntry) (dir : Path) (keep : Nat) (f : Files) : Prop :=
  ∀ entry ∈ entries, entry.backup.dir = dir →
    above entry.backup.name (f.backups dir).names + 2 ≤ keep

/-- The condition on a step in the window: a write or a restore that replaces a
file has few enough backups above the armed ones of the directory it backs up to. -/
def SparesArmed (entries : List RollbackEntry) (f : Files) : Label → Prop
  | .done (.request (.writeTarget target expectedPrev _ _)) _ => ∀ entry,
      m.allow.target target = some entry → WillReplace entry.path expectedPrev f →
      Shallow entries entry.backupDir (Retention.configured m) f
  | .done (.request (.restore module backup)) _ => ∀ row,
      (listingOf m module f.backups)[backup.get]? = some row → WillReplace row.path none f →
      Shallow entries row.entry.path.dir defaultKeepBackups f
  | _ => True

/-- A step after which the same commit is still pending. -/
structure WindowStep (pending : Pending) (w : World) (label : Label) (w' : World) : Prop where
  step : Step m host w label w'
  armed : Armed pending w'
  spares : SparesArmed m pending.entries w.disk.toFiles label

variable {m host} {pending : Pending} {original : RollbackEntry → Bytes} {w w' : World}

/-- Every armed backup is there with its original contents. -/
def HeldAll (entries : List RollbackEntry) (original : RollbackEntry → Bytes) (f : Files) : Prop :=
  ∀ entry ∈ entries, Holds entry.backup (original entry) f

omit [Sha256] in
theorem HeldAll.of_run {α : Type} {p : Prog SysOp α} {a : α} {d d' : Disk}
    {entries : List RollbackEntry} (h : HeldAll entries original d.toFiles)
    (hp : p.Uses (Inside pendingOnly)) (hrun : p.run (sys host) d = (a, d')) :
    HeldAll entries original d'.toFiles := by
  intro entry hentry
  exact (h entry hentry).of_agree (run_agree hp hrun) (by simp [pendingOnly])

omit [Sha256] in
theorem instant_files {now : Nat} {d d' : Disk}
    (h : (Prog.perform .instant).run (sys host) d = (now, d')) : d'.toFiles = d.toFiles := by
  cases h
  rfl

/-- A deadline check after which the commit is still pending came too early. -/
theorem enforceDeadline_early {r : Except MonitorError Unit} {d d' : Disk}
    (hpending : mem.pending = some pending) (hstill : mem'.pending = some pending)
    (hrun : (enforceDeadline m mem).run (sys host) d = ((r, mem'), d')) :
    d'.toFiles = d.toFiles := by
  unfold enforceDeadline at hrun
  rw [hpending] at hrun
  obtain ⟨now, d₁, hnow, hrun⟩ := run_bind_eq _ hrun
  split at hrun
  · obtain ⟨undone, d₂, -, hrun⟩ := run_bind_eq _ hrun
    cases undone <;> cases hrun <;> cases hstill
  · cases hrun
    exact instant_files hnow

/-- A confirmation after which the commit is still pending changed nothing. -/
theorem confirmCommit_other {commit : CommitId} {r : Except MonitorError Response} {d d' : Disk}
    (hpending : mem.pending = some pending) (hstill : mem'.pending = some pending)
    (hrun : (confirmCommit m mem commit).run (sys host) d = ((r, mem'), d')) :
    d'.toFiles = d.toFiles := by
  unfold confirmCommit at hrun
  rw [hpending] at hrun
  dsimp only at hrun
  split at hrun
  · obtain ⟨now, d₁, hnow, hrun⟩ := run_bind_eq _ hrun
    split at hrun
    · obtain ⟨⟨result, after⟩, d₂, hdeadline, hrun⟩ := run_bind_eq _ hrun
      have hd₂ : d₂.toFiles = d'.toFiles ∧ after = mem' := by
        cases result <;> cases hrun <;> exact ⟨rfl, rfl⟩
      obtain ⟨hd₂, rfl⟩ := hd₂
      rw [← hd₂, enforceDeadline_early hpending hstill hdeadline, instant_files hnow]
    · obtain ⟨_, d₂, -, hrun⟩ := run_bind_eq _ hrun
      obtain ⟨cleared, d₃, -, hrun⟩ := run_bind_eq _ hrun
      cases cleared <;> cases hrun <;> cases hstill
  · cases hrun
    rfl

theorem rollbackCommit_other {commit : CommitId} {r : Except MonitorError Response} {d d' : Disk}
    (hpending : mem.pending = some pending) (hstill : mem'.pending = some pending)
    (hrun : (rollbackCommit m mem commit).run (sys host) d = ((r, mem'), d')) :
    d'.toFiles = d.toFiles := by
  unfold rollbackCommit at hrun
  rw [hpending] at hrun
  dsimp only at hrun
  split at hrun
  · obtain ⟨undone, d₁, -, hrun⟩ := run_bind_eq _ hrun
    cases undone <;> cases hrun <;> cases hstill
  · cases hrun
    rfl

theorem dispatch_held {request : Request} {response : Response} {d d' : Disk}
    {answer : Option Response} (h : HeldAll pending.entries original d.toFiles)
    (hspares : SparesArmed m pending.entries d.toFiles (.done (.request request) answer))
    (hpending : mem.pending = some pending) (hstill : mem'.pending = some pending)
    (hrun : (dispatch m mem request).run (sys host) d = ((.ok response, mem'), d')) :
    HeldAll pending.entries original d'.toFiles := by
  by_cases hplain : Plain request
  · exact h.of_run (dispatch_uses m pendingOnly_pending mem hplain) hrun
  by_cases hgreeted : mem.greeted = true
  · unfold dispatch at hrun
    rw [if_pos hgreeted] at hrun
    cases request with
    | writeTarget target expectedPrev bytes journal =>
      obtain ⟨⟨found, after⟩, d₁, hwrite, hrun⟩ := run_bind_eq _ hrun
      cases hrun
      rcases writeTarget_cases hwrite with ⟨hsame, -⟩ | ⟨entry, d₁, r, hentry, hd₁, -, hexec, -⟩
      · rw [hsame]
        exact h
      · have hshallow := hspares entry hentry
        rw [← hd₁] at h hshallow
        intro armed harmed
        exact writeAtomic_cut_holds (fun hreplace => hshallow hreplace armed harmed)
          (h armed harmed) (cut_end _ hexec)
    | restore module backup =>
      obtain ⟨found, -, -, hrestore⟩ := answer_run hrun
      rcases restore_cases hrestore with ⟨hsame, -⟩ | ⟨row, d₁, r, hrow, hd₁, -, hexec, -⟩
      · rw [hsame]
        exact h
      · have hshallow := hspares row hrow
        rw [← hd₁] at h hshallow
        intro armed harmed
        exact restoreBackupWith_cut_holds (fun hreplace => hshallow hreplace armed harmed)
          (h armed harmed) (cut_end _ hexec)
    | confirmCommit commit =>
      rw [confirmCommit_other hpending hstill hrun]
      exact h
    | rollbackCommit commit =>
      rw [rollbackCommit_other hpending hstill hrun]
      exact h
    | _ => exact absurd trivial hplain
  · rw [dispatch_ungreeted m hgreeted] at hrun
    cases hrun
    exact h

/-- A request the monitor survives with the commit still pending. -/
theorem serveStep_held {request : Request} {answer : Option Response} {d d' : Disk}
    (h : HeldAll pending.entries original d.toFiles)
    (hspares : SparesArmed m pending.entries d.toFiles (.done (.request request) answer))
    (hpending : mem.pending = some pending) (hstill : mem'.pending = some pending)
    (hrun : (serveStep m mem request).run (sys host) d = ((answer, some mem'), d')) :
    HeldAll pending.entries original d'.toFiles := by
  obtain ⟨response, rfl, hdispatch⟩ := serveStep_stays m hrun
  exact dispatch_held h hspares hpending hstill hdispatch

/-- Every step of the window keeps every armed backup. -/
theorem windowStep_held {label : Label} (hstep : WindowStep m host pending w label w')
    (harmed : Armed pending w) (h : HeldAll pending.entries original w.disk.toFiles) :
    HeldAll pending.entries original w'.disk.toFiles := by
  obtain ⟨mem, hmem, hpending⟩ := harmed
  obtain ⟨hstep, ⟨mem', hmem', hstill⟩, hspares⟩ := hstep
  cases hstep with
  | edit path node => exact h
  | crash hprogram hcut => cases hmem'
  | done hprogram hrun =>
    obtain rfl : _ = some mem' := hmem'
    rcases program_cases m hprogram with ⟨request, running, rfl, hrunning, rfl⟩ |
      ⟨running, rfl, hrunning, rfl⟩ | ⟨running, rfl, -, rfl⟩ | ⟨-, hnone, -⟩
    · obtain rfl : running = mem := Option.some.inj (hrunning.symm.trans hmem)
      exact serveStep_held h hspares hpending hstill hrun
    · obtain rfl : running = mem := Option.some.inj (hrunning.symm.trans hmem)
      obtain ⟨⟨result, after⟩, d₁, hdeadline, hrun⟩ := run_bind_eq _ hrun
      cases result with
      | error err => cases leave_response m hrun
      | ok _ =>
        cases hrun
        rw [enforceDeadline_early hpending hstill hdeadline]
        exact h
    · cases leave_response m hrun
    · rw [hmem] at hnone
      cases hnone

/-- Every armed backup is there in every state of the window. -/
theorem window_held {labels : List Label} (hrun : Run (WindowStep m host pending) w labels w')
    (harmed : Armed pending w) (h : HeldAll pending.entries original w.disk.toFiles) :
    HeldAll pending.entries original w'.disk.toFiles := by
  have hinvariant := hrun.invariant
    (I := fun t => Armed pending t ∧ HeldAll pending.entries original t.disk.toFiles)
    (fun _ _ _ ⟨hs, hheld⟩ hstep => ⟨hstep.armed, windowStep_held hstep hs hheld⟩) ⟨harmed, h⟩
  exact hinvariant.2

end Window

section Rollback

variable [Sha256] {m : Setup} {host : Host} {d d' : Disk}

/-- How many of the entries have their backup in `dir`. -/
def inDir (dir : Path) (entries : List RollbackEntry) : Nat :=
  entries.countP (fun entry => entry.backup.dir = dir)

/-- The restores of `before` leave room for the backup. -/
def Room (backup : BackupPath) (before : List RollbackEntry) (f : Files) : Prop :=
  inDir backup.dir before = 0 ∨
    above backup.name (f.backups backup.dir).names + inDir backup.dir before + 1 ≤ defaultKeepBackups

theorem restoreEntry_room {entry : RollbackEntry} {before : List RollbackEntry} {contents : Bytes}
    (hroom : Room backup (entry :: before) d.toFiles) (h : Holds backup contents d.toFiles)
    (hrun : (restoreEntry entry).run (sys host) d = (r, d')) :
    Room backup before d'.toFiles ∧ Holds backup contents d'.toFiles := by
  have hexec : exec (sys host)
      (restoreBackupWith entry.backup entry.path entry.newDigest .marker) d = (r, d') := hrun
  by_cases hdir : entry.backup.dir = backup.dir
  · have hcount : inDir backup.dir (entry :: before) = inDir backup.dir before + 1 := by
      simp [inDir, hdir]
    have habove : above backup.name (d'.backups backup.dir).names ≤
        above backup.name (d.backups backup.dir).names + 1 :=
      above_grown (restoreBackupWith_grown hexec)
    unfold Room at hroom ⊢
    rw [hcount] at hroom
    refine ⟨by omega, restoreBackupWith_cut_holds (fun _ _ => ?_) h (cut_end _ hexec)⟩
    rw [hdir]
    omega
  · have hcount : inDir backup.dir (entry :: before) = inDir backup.dir before := by
      simp [inDir, hdir]
    have hsame : d'.backups backup.dir = d.backups backup.dir :=
      (exec_agree (restoreBackupWith_confined _ _ _ _) hexec).backups backup.dir
        (by simpa [restoreParts] using Ne.symm hdir)
    constructor
    · unfold Room at hroom ⊢
      rwa [hsame, ← hcount]
    · exact restoreBackupWith_cut_holds (fun _ heq => absurd heq.symm hdir) h (cut_end _ hexec)

theorem restoreEntries_held {before : List RollbackEntry} {contents : Bytes}
    {results : List (Except AtomicError WriteOutcome)} (hroom : Room backup before d.toFiles)
    (h : Holds backup contents d.toFiles)
    (hrun : (restoreEntries before).run (sys host) d = (results, d')) :
    Holds backup contents d'.toFiles := by
  induction before generalizing d results with
  | nil =>
    cases hrun
    exact h
  | cons entry before ih =>
    obtain ⟨r, d₁, hentry, hrun⟩ := run_bind_eq _ hrun
    obtain ⟨rest, d₂, hrest, hrun⟩ := run_bind_eq _ hrun
    obtain ⟨hroom₁, h₁⟩ := restoreEntry_room hroom h hentry
    cases hrun
    exact ih hroom₁ h₁ hrest

/-- What the rollback has done when it comes to an entry: `before` are the entries
it restores first. -/
def rollbackUpTo (m : Setup) (pending : Pending) (before : List RollbackEntry) :
    Prog SysOp (List (Except AtomicError WriteOutcome)) := do
  let _ ← stopStartedMounts m pending.entries
  restoreEntries before

/-- The accepted request leaves every file but the marker alone. -/
theorem armed_held {w w' : World} {pending : Pending} {original : RollbackEntry → Bytes}
    {commit : CommitId} {timeoutS secs count : Nat} {service : Option PendingService}
    (hstep : Step m host w (.done (.request (.startConfirmTimer commit timeoutS service))
      (some (.confirmTimerStarted commit secs count))) w') (hmem : w.mem = some mem)
    (hmem' : w'.mem = some mem') (hpending : mem'.pending = some pending)
    (hheld : HeldAll mem.journal original w.disk.toFiles) :
    HeldAll pending.entries original w'.disk.toFiles := by
  obtain ⟨running, hrunning, hrun⟩ := step_request m hstep
  obtain rfl : running = mem := Option.some.inj (hrunning.symm.trans hmem)
  have husual : Usual (.confirmTimerStarted commit secs count) := trivial
  obtain ⟨after, hafter, hdispatch⟩ := serveStep_answered m (by simp) husual hrun
  obtain rfl : after = mem' := Option.some.inj (hafter.symm.trans hmem')
  cases dispatch_turn m hdispatch with
  | same _ _ hother | resolved _ hother => cases hother
  | armed _ hmarker =>
    cases hpending
    intro entry hentry
    rw [hmarker]
    exact hheld entry hentry

/-- The backups of a commit outlive its window: when the rollback comes to an entry,
its backup has the contents it had when the commit was armed. -/
theorem armed_backups_found {w₀ w₁ w₂ : World} {mem₀ mem₁ : Mem} {pending : Pending}
    {original : RollbackEntry → Bytes} {commit : CommitId} {timeoutS secs count : Nat}
    {service : Option PendingService} {labels : List Label}
    (harm : Step m host w₀ (.done (.request (.startConfirmTimer commit timeoutS service))
      (some (.confirmTimerStarted commit secs count))) w₁)
    (hmem₀ : w₀.mem = some mem₀) (hmem₁ : w₁.mem = some mem₁)
    (hpending : mem₁.pending = some pending)
    (hheld : HeldAll mem₀.journal original w₀.disk.toFiles)
    (hrun : Run (WindowStep m host pending) w₁ labels w₂) (hd : d.toFiles = w₂.disk.toFiles)
    (hroom : ∀ before entry after, pending.entries.reverse = before ++ entry :: after →
      Room entry.backup before d.toFiles) :
    ∀ before entry after results d', pending.entries.reverse = before ++ entry :: after →
      (rollbackUpTo m pending before).run (sys host) d = (results, d') →
      Holds entry.backup (original entry) d'.toFiles := by
  intro before entry after results d' hsplit hrollback
  have hwindow : HeldAll pending.entries original w₂.disk.toFiles :=
    window_held hrun ⟨mem₁, hmem₁, hpending⟩ (armed_held harm hmem₀ hmem₁ hpending hheld)
  have hentry : entry ∈ pending.entries := by
    rw [← List.mem_reverse, hsplit]
    simp
  obtain ⟨_, d₁, hstop, hrestores⟩ := run_bind_eq _ hrollback
  have hd₁ := run_reads (stopStartedMounts_uses m _) hstop
  apply restoreEntries_held _ _ hrestores
  · rw [hd₁]
    exact hroom before entry after hsplit
  · rw [hd₁, hd]
    exact hwindow entry hentry

end Rollback

section Runs

attribute [local instance] Sample.sha256

/-- The entry of a journaled write of `b` over `a`. -/
def entry : RollbackEntry where
  target := 0
  path := Sample.path
  backup := { dir := Sample.backupDir, name := { stamp := 2, short := "ca978112" } }
  newDigest := some (Sha256.of [98])

def journaled : Mem := { greeted := true, journal := [entry], pending := none }

def commit : Pending where
  commit := ⟨1⟩
  deadline := 60000000011
  entries := [entry]
  service := none

def waiting : Mem := { greeted := true, journal := [], pending := some commit }

def written (keepBackups : Nat) : World :=
  Sample.serve keepBackups (Sample.world [97]) (.writeTarget ⟨0⟩ none [98] true)

def armed (keepBackups : Nat) : World :=
  (written keepBackups).after Sample.host
    (serveStep (Sample.setup keepBackups) journaled (.startConfirmTimer ⟨1⟩ 60 none))

/-- A write that no commit records. -/
def second : Request := .writeTarget ⟨0⟩ none [99] false

def overwritten (keepBackups : Nat) : World :=
  (armed keepBackups).after Sample.host
    (serveStep (Sample.setup keepBackups) waiting second)

def armLabel : Label :=
  .done (.request (.startConfirmTimer ⟨1⟩ 60 none)) (some (.confirmTimerStarted ⟨1⟩ 60 1))

def secondLabel : Label :=
  .done (.request second) (some (.written
    { target := ⟨0⟩, prevDigest := some (Sha256.of [98]), newDigest := Sha256.of [99]
      created := false, backedUp := true, ownerPreserved := true }))

/-- With twenty backups kept, the rollback after the second write finds the armed one. -/
theorem twenty_kept_found :
    (overwritten 20).mem = some waiting ∧
    Holds entry.backup [97] (((rollbackUpTo (Sample.setup 20) commit []).run (sys Sample.host)
      (overwritten 20).disk).2).toFiles := by
  have harm : Step (Sample.setup 20) Sample.host (written 20) armLabel (armed 20) :=
    step_of_serve (by decide) (by decide)
  have hsecond : Step (Sample.setup 20) Sample.host (armed 20) secondLabel (overwritten 20) :=
    step_of_serve (by decide) (by decide)
  have harmed : (armed 20).mem = some waiting := by decide
  have hmem : (overwritten 20).mem = some waiting := by decide
  have hshallow : above entry.backup.name ((armed 20).disk.backups Sample.backupDir).names + 2 ≤ 20 := by
    decide
  have hspares : SparesArmed (Sample.setup 20) commit.entries (armed 20).disk.toFiles secondLabel := by
    intro target htarget _ found hfound hdir
    cases htarget
    cases List.mem_singleton.mp hfound
    exact hshallow
  have hholds : Holds entry.backup [97] (written 20).disk.toFiles := by decide
  have hheld : HeldAll journaled.journal (fun _ => [97]) (written 20).disk.toFiles := by
    intro found hfound
    cases List.mem_singleton.mp hfound
    exact hholds
  refine ⟨hmem, armed_backups_found harm (by decide) harmed rfl hheld
    (.cons ⟨hsecond, ⟨waiting, hmem, rfl⟩, hspares⟩ (.nil _)) rfl ?_ [] entry [] _ _ rfl rfl⟩
  intro before found after hsplit
  have hnone : before = [] := by
    cases before with
    | nil => rfl
    | cons first rest => simp [commit] at hsplit
  exact .inl (by rw [hnone]; rfl)

/-- With one backup kept, the second write of the window deletes the armed backup. -/
theorem one_kept_lost :
    Step (Sample.setup 1) Sample.host (Sample.world [97])
      (.done (.request (.writeTarget ⟨0⟩ none [98] true)) (some (.written
        { target := ⟨0⟩, prevDigest := some (Sha256.of [97]), newDigest := Sha256.of [98]
          created := false, backedUp := true, ownerPreserved := true }))) (written 1) ∧
    Holds entry.backup [97] (written 1).disk.toFiles ∧
    Step (Sample.setup 1) Sample.host (written 1) armLabel (armed 1) ∧
    (armed 1).mem = some waiting ∧
    Step (Sample.setup 1) Sample.host (armed 1) secondLabel (overwritten 1) ∧
    (overwritten 1).mem = some waiting ∧
    ¬ Holds entry.backup [97] (((rollbackUpTo (Sample.setup 1) commit []).run (sys Sample.host)
      (overwritten 1).disk).2).toFiles := by
  refine ⟨Sample.serve_step rfl (by decide), by decide,
    step_of_serve (by decide) (by decide), by decide,
    step_of_serve (by decide) (by decide), by decide, by decide⟩

end Runs

end Detent.Guarantees.ArmedBackups
