import Detent.Guarantees.AtomicWrite
import Detent.Source.Monitor

/-!
# The backup listing

A listing that succeeds is a function of the backup directories: `entriesOf` for
one target, `rowsOf` for the targets of a module, before the monitor sorts them.
-/
namespace Detent.Guarantees
open Lib Source Source.Atomic
open Fallible (exec exec_bind_eq_ok uses_bind)

variable [Sha256] {host : Host} {d d' : Disk}

/-- The listing entry of one file. -/
def entryOf (dir : Path) (file : BackupFile) : BackupEntry where
  path := { dir, name := file.name }
  createdUtc := file.modified
  digest := Sha256.of file.contents
  originalLen := file.contents.length

/-- The entries of the named files. -/
def entriesFor (dir : Path) (files : BackupDir) (names : List BackupName) : List BackupEntry :=
  names.filterMap (fun name => (files.find name).map (entryOf dir))

/-- The listing of a backup directory, newest name first. -/
def entriesOf (dir : Path) (files : BackupDir) : List BackupEntry :=
  entriesFor dir files (files.names.insertionSort BackupName.After)

variable {entries : List BackupEntry} {rows : List Monitor.Row} {m : Monitor.Setup}
  {module : ModuleId} {backups : Path → BackupDir}

theorem readEntries_ok {dir : Path} {names : List BackupName}
    (h : exec (sys host) (readEntries dir names) d = (.ok entries, d')) :
    entries = entriesFor dir (d.backups dir) names := by
  induction names generalizing d entries with
  | nil =>
    cases h
    rfl
  | cons name names ih =>
    obtain ⟨file, d₁, hread, h⟩ := exec_bind_eq_ok _ h
    obtain ⟨rest, d₂, hrest, h⟩ := exec_bind_eq_ok _ h
    cases h
    obtain ⟨heffect, -⟩ := call_ok hread
    simp only [FileOp.effect] at heffect
    split at heffect
    · rename_i found hfound
      injection heffect with heffect
      injection heffect with hfile hfiles
      subst hfile
      have hname := (BackupDir.find_eq_some.mp hfound).2
      have hfind : (d.backups dir).find name = some found := hfound
      have htail := ih hrest
      rw [← hfiles] at htail
      simp only [entriesFor, List.filterMap_cons, hfind, Option.map_some, entryOf]
      rw [htail]
      simp only [entriesFor]
      subst hname
      rfl
    · cases heffect

theorem listBackups_ok {dir : Path}
    (h : exec (sys host) (Atomic.listBackups dir) d = (.ok entries, d')) :
    entries = entriesOf dir (d.backups dir) := by
  obtain ⟨names, d₁, hnames, h⟩ := exec_bind_eq_ok _ h
  obtain ⟨heffect, -⟩ := call_ok hnames
  injection heffect with heffect
  injection heffect with hnames hfiles
  have hentries := readEntries_ok h
  rw [← hfiles] at hentries
  rw [hentries, ← hnames]
  rfl

/-- The rows of the targets, target by target. -/
def rowsOf (targets : List TargetEntry) (backups : Path → BackupDir) : List Monitor.Row :=
  targets.flatMap (fun target => (entriesOf target.backupDir (backups target.backupDir)).map
    (fun entry => { target := target.id, path := target.path, entry }))

theorem targetRows_ok {targets : List TargetEntry}
    (h : exec (sys host) (Monitor.targetRows targets) d = (.ok rows, d')) :
    rows = rowsOf targets d.backups := by
  induction targets generalizing d rows with
  | nil =>
    cases h
    rfl
  | cons target targets ih =>
    obtain ⟨entries, d₁, hlist, h⟩ := exec_bind_eq_ok _ h
    obtain ⟨rest, d₂, hrest, h⟩ := exec_bind_eq_ok _ h
    cases h
    have htail := ih hrest
    rw [exec_reads (listBackups_confined _) hlist] at htail
    rw [listBackups_ok hlist, htail]
    rfl

/-- The listing of a module: its rows as `collect_backups` sorts them. -/
def listingOf (m : Monitor.Setup) (module : ModuleId) (backups : Path → BackupDir) :
    List Monitor.Row :=
  (rowsOf (m.allow.targetsOf module) backups).insertionSort Monitor.Row.Before

/-- The listing depends on the directories of the module's targets only. -/
theorem listingOf_congr {m : Monitor.Setup} {module : ModuleId} {backups backups' : Path → BackupDir}
    (h : ∀ target ∈ m.allow.targetsOf module, backups' target.backupDir = backups target.backupDir) :
    listingOf m module backups' = listingOf m module backups := by
  unfold listingOf rowsOf
  rw [List.flatMap_congr (fun target htarget => by rw [h target htarget])]

/-- A row of a listing is a backup file in the directory of one of the module's
targets. -/
theorem mem_listingOf {row : Monitor.Row} (h : row ∈ listingOf m module backups) :
    ∃ target ∈ m.allow.targetsOf module, ∃ file, row.target = target.id ∧ row.path = target.path ∧
      row.entry = entryOf target.backupDir file ∧
      (backups target.backupDir).find file.name = some file := by
  rw [listingOf, List.mem_insertionSort, rowsOf, List.mem_flatMap] at h
  obtain ⟨target, htarget, hrow⟩ := h
  obtain ⟨entry, hentry, rfl⟩ := List.mem_map.mp hrow
  rw [entriesOf, entriesFor, List.mem_filterMap] at hentry
  obtain ⟨name, -, hentry⟩ := hentry
  obtain ⟨file, hfile, rfl⟩ := Option.map_eq_some_iff.mp hentry
  refine ⟨target, htarget, file, rfl, rfl, rfl, ?_⟩
  rw [(BackupDir.find_eq_some.mp hfile).2]
  exact hfile

theorem targetRows_confined {parts : Part → Prop} (targets : List TargetEntry) :
    Confined parts (Monitor.targetRows targets) := by
  induction targets with
  | nil => trivial
  | cons target targets ih =>
    refine uses_bind (listBackups_confined _) (fun _ => ?_)
    exact uses_bind ih (fun _ => trivial)

theorem collectBackups_uses {parts : Part → Prop} (m : Monitor.Setup) (module : ModuleId) :
    (Monitor.collectBackups m module).Uses (Inside parts) := by
  unfold Monitor.collectBackups
  split
  · trivial
  · refine Prog.Uses.bind (targetRows_confined _) (fun r => ?_)
    cases r <;> trivial

theorem collectBackups_ok
    (h : (Monitor.collectBackups m module).run (sys host) d = (.ok rows, d')) :
    rows = listingOf m module d.backups ∧ d'.toFiles = d.toFiles := by
  refine ⟨?_, run_reads (collectBackups_uses m module) h⟩
  unfold Monitor.collectBackups at h
  split at h
  · cases h
  · rw [Prog.run_bind] at h
    rcases hrows : (Monitor.targetRows (m.allow.targetsOf module)).run.run (sys host) d
      with ⟨err | found, d₁⟩
    · rw [hrows] at h
      cases h
    · rw [hrows] at h
      cases h
      rw [targetRows_ok hrows]
      rfl

end Detent.Guarantees
