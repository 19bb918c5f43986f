import Detent.Guarantees.AtomicWrite

/-!
# Where the programs of `Atomic` can crash

A backup that is there stays there as long as nothing fills it again or deletes
it: a new backup has a free name, and the rotation deletes only the surplus. The
replacement of a target is atomic through a temp file, and in place it leaves a
file with some contents. A marker is torn while it is written and whole after.
-/
namespace Detent.Guarantees
open Lib Source Source.Atomic
open Fallible (Cut Uses cut_bind cut_end cut_pure exec uses_bind uses_perform)

/-- The backup is there and holds `contents`. -/
def Holds (backup : BackupPath) (contents : Bytes) (f : Files) : Prop :=
  ∃ file, f.backup backup = some file ∧ file.contents = contents

instance (backup : BackupPath) (contents : Bytes) (f : Files) : Decidable (Holds backup contents f) :=
  decidable_of_iff ((f.backup backup).map (·.contents) = some contents) Option.map_eq_some_iff

variable {f f' : Files} {bytes : Bytes} {β : Type} {req : WriteRequest} {existing : Option Existing}
  {path : Path}

theorem Holds.mem_names {backup : BackupPath} {contents : Bytes} (h : Holds backup contents f) :
    backup.name ∈ (f.backups backup.dir).names := by
  obtain ⟨file, hfile, -⟩ := h
  exact BackupDir.find_isSome.mp (Option.isSome_iff_exists.mpr ⟨file, hfile⟩)

variable {dir : Path} {taken : List BackupPath} {tick : Nat} {names : List BackupName}

theorem holds_setBackups {backup : BackupPath} {contents : Bytes} {files : BackupDir}
    (h : Holds backup contents f)
    (hkept : ∀ file ∈ (f.backups dir).files, backup = { dir := dir, name := file.name } →
      file ∈ files.files) : Holds backup contents { f.setBackups dir files with taken } := by
  obtain ⟨file, hfile, hcontents⟩ := h
  refine ⟨file, ?_, hcontents⟩
  by_cases hdir : backup.dir = dir
  · obtain ⟨hmem, hname⟩ := BackupDir.find_eq_some.mp hfile
    simp only [Files.backup, Files.setBackups, hdir, Function.update_self]
    refine BackupDir.find_eq_some.mpr ⟨hkept file (hdir ▸ hmem) ?_, hname⟩
    rw [hname, ← hdir]
  · simp only [Files.backup, Files.setBackups, Function.update_of_ne hdir]
    exact hfile

/-- The calls that neither fill nor delete `backup`. Creating it is refused while
it is there. -/
def Spares (backup : BackupPath) : (β : Type) → SysOp β → Prop
  | _, .file (.fillBackup other _) | _, .file (.unlinkBackup other) => other ≠ backup
  | _, _ => True

variable {host : Host} {d d' : Disk} {backup : BackupPath} {contents : Bytes}

theorem fill_spares {dir : BackupDir} {name : BackupName} {modified : Nat} {file : BackupFile}
    (hfile : file ∈ dir.files) (hne : file.name ≠ name) :
    file ∈ (dir.fill name bytes modified).files := by
  refine List.mem_map.mpr ⟨file, hfile, ?_⟩
  rw [if_neg hne]

theorem holds_fill {other : BackupPath} {modified : Nat} (h : Holds backup contents f)
    (hne : other ≠ backup) :
    Holds backup contents { f.setBackups other.dir
      ((f.backups other.dir).fill other.name bytes modified) with taken } := by
  refine holds_setBackups h (fun file hfile heq => fill_spares hfile ?_)
  rintro hname
  rw [hname] at heq
  exact hne heq.symm

theorem effect_holds {op : FileOp β} {value : β} (hop : Spares backup _ (.file op))
    (h : Holds backup contents f) (heffect : op.effect host tick f = .ok (value, f')) :
    Holds backup contents f' := by
  cases op with
  | createBackup other =>
    simp only [FileOp.effect] at heffect
    split at heffect <;> cases heffect
    rename_i created hcreate
    refine holds_setBackups h (fun file hfile _ => ?_)
    unfold BackupDir.create at hcreate
    split at hcreate <;> cases hcreate
    exact List.mem_append_left _ hfile
  | fillBackup other bytes =>
    cases heffect
    exact holds_fill h hop
  | unlinkBackup other =>
    simp only [FileOp.effect] at heffect
    split at heffect <;> cases heffect
    refine holds_setBackups h (fun file hfile heq => List.mem_filter.mpr ⟨hfile, ?_⟩)
    rw [decide_eq_true_iff]
    rintro hname
    rw [hname] at heq
    exact hop heq.symm
  | _ =>
    simp only [FileOp.effect] at heffect
    (try split at heffect) <;> cases heffect
    all_goals exact h

theorem cutShort_holds {op : FileOp β} {written : Nat} (hop : Spares backup _ (.file op))
    (h : Holds backup contents f) (hcut : op.cutShort host tick written f = some f') :
    Holds backup contents f' := by
  cases op <;> simp only [FileOp.cutShort] at hcut <;> cases hcut
  all_goals try exact h
  exact holds_fill h hop

theorem apply_holds {e : SysOp β} (he : Spares backup β e) (h : Holds backup contents d.toFiles) :
    Holds backup contents ((sys host).apply e d).2.toFiles := by
  cases e with
  | file op =>
    rcases hperform : op.perform host d with ⟨kind | value, t⟩
    · change Holds backup contents (op.perform host d).2.toFiles
      rw [hperform]
      obtain ⟨hsame | ⟨written, hcut⟩, -⟩ := perform_error hperform
      · rw [hsame]
        exact h
      · exact cutShort_holds he h hcut
    · change Holds backup contents (op.perform host d).2.toFiles
      rw [hperform]
      exact effect_holds he h (perform_ok hperform).1
  | hook | runCheck | systemTime | instant => exact h

/-- A program that spares a backup leaves it there, wherever it crashes. -/
theorem cut_holds {α : Type} {p : Prog SysOp α} (hp : p.Uses (Spares backup))
    (h : Holds backup contents d.toFiles) (hcut : p.Cut (sys host) d d') :
    Holds backup contents d'.toFiles :=
  hp.cut_invariant (I := fun t => Holds backup contents t.toFiles)
    (fun _ _ _ he ht => apply_holds he ht)
    (fun _ e _ _ he ht htorn => by
      cases e with
      | file op =>
        obtain ⟨-, written, hcut⟩ := htorn
        exact cutShort_holds he ht hcut
      | hook | runCheck | systemTime => cases htorn
      | instant => cases htorn) h hcut

theorem call_spares {label : String} {op : FileOp β} (h : Spares backup _ (.file op)) :
    Uses (Spares backup) (call label op) :=
  uses_bind (uses_perform h) (fun r => by cases r <;> trivial)

theorem fsync_spares (label : String) : Uses (Spares backup) (call label .fsync) :=
  call_spares trivial

theorem backupNames_spares (label : String) (dir : Path) :
    Uses (Spares backup) (call label (.backupNames dir)) :=
  call_spares trivial

theorem createBackupFile_spares (dir : Path) (short : String) (now attempt left : Nat) :
    Uses (Spares backup) (createBackupFile dir short now attempt left) := by
  induction left generalizing attempt with
  | zero => trivial
  | succ left ih =>
    refine uses_bind (uses_perform trivial) (fun r => ?_)
    match r with
    | .ok () => trivial
    | .error .alreadyExists => exact ih (attempt + 1)
    | .error .notFound | .error .readOnlyFilesystem | .error .permissionDenied | .error .other =>
      trivial

theorem writeBackup_cut {digest : Sha256Digest} {now : Nat} (h : Holds backup contents d.toFiles)
    (hcut : Cut (sys host) (writeBackup dir bytes digest now) d d') :
    Holds backup contents d'.toFiles := by
  rcases (cut_bind _ _ _ _ _).mp hcut with hcreate | ⟨name, d₁, hcreate, hrest⟩
  · exact cut_holds (createBackupFile_spares _ _ _ _ _) h hcreate
  · obtain ⟨-, -, created, opened, hcreated, hd₁⟩ := createBackupFile_ok hcreate
    -- the name was free, so it is not the one of the backup
    have hne : ({ dir := dir, name } : BackupPath) ≠ backup := by
      rintro rfl
      unfold BackupDir.create at hcreated
      split at hcreated
      · cases hcreated
      · rename_i hfree
        exact hfree h.mem_names
    have h₁ : Holds backup contents d₁.toFiles :=
      cut_holds (createBackupFile_spares _ _ _ _ _) h (cut_end _ hcreate)
    refine cut_holds ?_ h₁ hrest
    refine uses_bind (uses_perform hne) (fun r => ?_)
    cases r with
    | ok value => exact uses_bind (fsync_spares _) (fun _ => trivial)
    | error kind => exact uses_bind (uses_perform hne) (fun _ => trivial)

instance : Std.Total BackupName.After where
  total left right := by
    unfold BackupName.After
    rcases Nat.lt_trichotomy left.stamp right.stamp with hlt | heq | hlt
    · exact .inr (.inl hlt)
    · rcases String.le_total left.short right.short with hle | hle
      · exact .inr (.inr ⟨heq.symm, hle⟩)
      · exact .inl (.inr ⟨heq, hle⟩)
    · exact .inl (.inl hlt)

instance : IsTrans BackupName BackupName.After where
  trans left middle right hleft hright := by
    unfold BackupName.After at *
    rcases hleft with hleft | ⟨hleft, hshort⟩
    · rcases hright with hright | ⟨hright, -⟩ <;> exact .inl (by omega)
    · rcases hright with hright | ⟨hright, hshort'⟩
      · exact .inl (by omega)
      · exact .inr ⟨by omega, String.le_trans hshort' hshort⟩

/-- How many other backups sort above `name`. -/
def above (name : BackupName) (names : List BackupName) : Nat :=
  (names.filter (fun other => other ≠ name ∧ other.After name)).length

/-- A rotation spares a name with few others above it. -/
theorem not_mem_surplus {name newest : BackupName} {keep : Nat} (hnodup : names.Nodup)
    (hfresh : newest ∉ names) (habove : above name names + 2 ≤ keep) :
    name ∉ surplus keep newest (names ++ [newest]) := by
  have hothers : (names ++ [newest]).filter (· ≠ newest) = names := by
    rw [List.filter_append, List.filter_eq_self.mpr]
    · simp
    · intro other hother
      have hne : other ≠ newest := by
        rintro rfl
        exact hfresh hother
      simpa using hne
  unfold surplus
  split
  · exact List.not_mem_nil
  · rw [hothers]
    intro hmem
    have hperm := List.perm_insertionSort BackupName.After names
    have hsorted := List.pairwise_insertionSort BackupName.After names
    have hsortedNodup := hperm.nodup_iff.mpr hnodup
    rw [← List.take_append_drop (keep - 1) (names.insertionSort BackupName.After)] at hsorted
    rw [← List.take_append_drop (keep - 1) (names.insertionSort BackupName.After)] at hsortedNodup
    -- what is kept sorts above the name, so there are too many of them
    have hkept : (names.insertionSort BackupName.After).take (keep - 1) ⊆
        names.filter (fun other => other ≠ name ∧ other.After name) := by
      intro other hother
      rw [List.mem_filter, decide_eq_true_iff]
      refine ⟨hperm.mem_iff.mp (List.mem_of_mem_take hother), ?_, ?_⟩
      · rintro rfl
        exact (List.nodup_append'.mp hsortedNodup).2.2 hother hmem
      · exact (List.pairwise_append.mp hsorted).2.2 other hother name hmem
    have hlen := (List.subperm_of_subset (List.nodup_append'.mp hsortedNodup).1 hkept).length_le
    have hlong := List.length_pos_of_mem hmem
    rw [List.length_drop] at hlong
    rw [List.length_take] at hlen
    unfold above at habove
    omega

theorem unlinkBackups_spares (h : backup.dir = dir → backup.name ∉ names) :
    Uses (Spares backup) (unlinkBackups dir names) := by
  induction names with
  | nil => trivial
  | cons name names ih =>
    refine uses_bind (call_spares ?_) (fun _ => ih (fun hdir hmem => ?_))
    · rintro rfl
      exact h rfl List.mem_cons_self
    · exact h hdir (List.mem_cons_of_mem _ hmem)

theorem rotateBackups_cut {keep : Nat} {newest : BackupName}
    (hspared : backup.dir = dir → backup.name ∉ surplus keep newest (d.backups dir).names)
    (h : Holds backup contents d.toFiles)
    (hcut : Cut (sys host) (rotateBackups dir keep newest) d d') :
    Holds backup contents d'.toFiles := by
  rcases (cut_bind _ _ _ _ _).mp hcut with hlist | ⟨names, d₁, hlist, hrest⟩
  · exact cut_holds (backupNames_spares _ _) h hlist
  · have h₁ := cut_holds (backupNames_spares _ _) h (cut_end _ hlist)
    obtain ⟨heffect, -⟩ := call_ok hlist
    injection heffect with heffect
    injection heffect with hnames _
    subst hnames
    split at hrest
    · rw [(cut_pure _ _ _ _).mp hrest]
      exact h₁
    · rename_i hmany
      simp only [surplus, if_neg hmany] at hspared
      exact cut_holds (uses_bind (unlinkBackups_spares hspared)
        (fun _ => fsync_spares _)) h₁ hrest

/-- Taking a backup into its directory spares a backup that is not too deep. -/
theorem backUp_cut
    (hdeep : existing ≠ none → backup.dir = req.backupDir →
      above backup.name (d.backups req.backupDir).names + 2 ≤ req.keepBackups)
    (h : Holds backup contents d.toFiles)
    (hcut : Cut (sys host) (backUp req existing) d d') :
    Holds backup contents d'.toFiles := by
  unfold backUp at hcut
  cases existing with
  | none =>
    rw [(cut_pure _ _ _ _).mp hcut]
    exact h
  | some found =>
    dsimp only at hcut
    split at hcut
    · have hclock : Uses (Spares backup)
          (Fallible.perform .systemTime : FileM Nat) := uses_perform trivial
      rcases (cut_bind _ _ _ _ _).mp hcut with hread | ⟨now, d₁, hread, hcut⟩
      · exact cut_holds hclock h hread
      have h₁ := cut_holds hclock h (cut_end _ hread)
      have hd₁ : d₁.toFiles = d.toFiles := by
        rw [Fallible.exec_perform] at hread
        cases hread
        rfl
      rcases (cut_bind _ _ _ _ _).mp hcut with hwrite | ⟨path, d₂, hwrite, hcut⟩
      · exact writeBackup_cut h₁ hwrite
      have h₂ := writeBackup_cut h₁ (cut_end _ hwrite)
      obtain ⟨hdir, -, -, hfresh, ⟨modified, hfiles⟩, -⟩ := writeBackup_ok hwrite
      have hspared : backup.dir = req.backupDir →
          backup.name ∉ surplus req.keepBackups path.name (d₂.backups req.backupDir).names := by
        intro hsame
        have hnames : (d₂.backups req.backupDir).names =
            (d.backups req.backupDir).names ++ [path.name] := by
          simp [BackupDir.names, hfiles, hd₁]
        rw [hnames]
        rw [hd₁] at hfresh
        exact not_mem_surplus (d.backups req.backupDir).unique hfresh (hdeep (by simp) hsame)
      rcases (cut_bind _ _ _ _ _).mp hcut with hrotate | ⟨_, d₃, hrotate, hcut⟩
      · exact rotateBackups_cut hspared h₂ hrotate
      · rw [(cut_pure _ _ _ _).mp hcut]
        exact rotateBackups_cut hspared h₂ (cut_end _ hrotate)
    · rw [(cut_pure _ _ _ _).mp hcut]
      exact h

/-- A backup is not touched by a program that leaves its directory alone. -/
theorem Holds.of_agree {parts : Part → Prop} (h : Holds backup contents f)
    (hagree : Agree parts f f') (hparts : ¬ parts (.backups backup.dir)) :
    Holds backup contents f' := by
  obtain ⟨file, hfile, hcontents⟩ := h
  refine ⟨file, ?_, hcontents⟩
  rw [Files.backup, hagree.backups _ hparts]
  exact hfile

section Spared

variable [Sha256]

/-- The target is a file that a write with this expectation replaces. -/
def WillReplace (path : Path) (expectedPrev : Option Sha256Digest) (f : Files) : Prop :=
  ∃ previous, f.node path = some (.file previous) ∧
    ∀ digest, expectedPrev = some digest → Sha256.of previous = digest

variable {expectedPrev : Option Sha256Digest}

/-- A write that goes as far as its backup step replaces a file, if there is one. -/
theorem willReplace_of_checked {d₁ d₂ : Disk}
    (hread : exec (sys host) (readExisting path) d = (.ok existing, d₁))
    (hcheck : exec (sys host) (checkExpected expectedPrev existing) d₁ = (.ok (), d₂))
    (hsome : existing ≠ none) : WillReplace path expectedPrev d.toFiles := by
  obtain ⟨hnode, hdigest, -⟩ := readExisting_ok hread
  cases existing with
  | none => exact absurd rfl hsome
  | some found =>
    refine ⟨found.contents, hnode, fun digest hexpected => ?_⟩
    have hfound := checkExpected_ok hcheck digest hexpected
    rw [← hdigest found rfl]
    exact Option.some.inj hfound

/-- A write spares a backup that is not too deep in the directory it backs up to. -/
theorem writeAtomic_cut_holds
    (hdeep : WillReplace req.path req.expectedPrev d.toFiles → backup.dir = req.backupDir →
      above backup.name (d.backups req.backupDir).names + 2 ≤ req.keepBackups)
    (h : Holds backup contents d.toFiles) (hcut : Cut (sys host) (writeAtomic req) d d') :
    Holds backup contents d'.toFiles := by
  rcases (cut_bind _ _ _ _ _).mp hcut with hcut | ⟨existing, d₁, hexisting, hcut⟩
  · rw [cut_reads (readExisting_confined _) hcut]
    exact h
  have hd₁ := exec_reads (readExisting_confined _) hexisting
  rcases (cut_bind _ _ _ _ _).mp hcut with hcut | ⟨_, d₂, hcheck, hcut⟩
  · rw [cut_reads (checkExpected_confined _ _) hcut, hd₁]
    exact h
  have hd₂ := (exec_reads (checkExpected_confined _ _) hcheck).trans hd₁
  have hspared : existing ≠ none → backup.dir = req.backupDir →
      above backup.name (d₂.backups req.backupDir).names + 2 ≤ req.keepBackups := by
    intro hsome
    rw [hd₂]
    exact hdeep (willReplace_of_checked hexisting hcheck hsome)
  rw [← hd₂] at h
  rcases (cut_bind _ _ _ _ _).mp hcut with hcut | ⟨taken, d₃, hbackup, hcut⟩
  · exact backUp_cut hspared h hcut
  have h₃ := backUp_cut hspared h (cut_end _ hbackup)
  have hconfined : Confined (fun part => part = .node req.path ∨ part = .inPlace)
      (installReporting req existing taken) :=
    installReporting_confined (.inl rfl) (.inr rfl) _ _
  exact h₃.of_agree (cut_agree hconfined hcut) (by simp)

/-- A restore spares a backup that is not too deep in the directory of its source. -/
theorem restoreBackupWith_cut_holds {source : BackupPath} {target : Path} {inPlace : InPlace}
    (hdeep : WillReplace target expectedPrev d.toFiles → backup.dir = source.dir →
      above backup.name (d.backups source.dir).names + 2 ≤ defaultKeepBackups)
    (h : Holds backup contents d.toFiles)
    (hcut : Cut (sys host) (restoreBackupWith source target expectedPrev inPlace) d d') :
    Holds backup contents d'.toFiles := by
  rcases (cut_bind _ _ _ _ _).mp hcut with hcut | ⟨file, d₁, hread, hcut⟩
  · rw [cut_reads (call_confined (.inl rfl)) hcut]
    exact h
  have hd₁ := exec_reads (call_confined (.inl rfl)) hread
  rw [← hd₁] at h hdeep
  exact writeAtomic_cut_holds hdeep h hcut

end Spared

/-- A regular file stands at `path`. -/
def IsFile (path : Path) (f : Files) : Prop := ∃ contents, f.node path = some (.file contents)

theorem isFile_setNode {other : Path} (h : IsFile path f) :
    IsFile path (f.setNode other (.file bytes)) := by
  by_cases heq : path = other
  · exact ⟨bytes, by rw [heq]; exact Function.update_self _ _ _⟩
  · obtain ⟨contents, hnode⟩ := h
    exact ⟨contents, by rw [← hnode]; exact Function.update_of_ne heq _ _⟩

theorem effect_isFile {op : FileOp β} {value : β} (h : IsFile path f)
    (heffect : op.effect host tick f = .ok (value, f')) : IsFile path f' := by
  cases op with
  | renameTemp other bytes =>
    cases heffect
    exact isFile_setNode h
  | openTruncate other =>
    simp only [FileOp.effect] at heffect
    split at heffect <;> cases heffect
    exact isFile_setNode h
  | writeTruncated other bytes =>
    cases heffect
    exact isFile_setNode h
  | _ =>
    simp only [FileOp.effect] at heffect
    (try split at heffect) <;> cases heffect
    all_goals exact h

theorem cutShort_isFile {op : FileOp β} {written : Nat} (h : IsFile path f)
    (hcut : op.cutShort host tick written f = some f') : IsFile path f' := by
  cases op <;> simp only [FileOp.cutShort] at hcut <;> cases hcut
  · exact isFile_setNode h
  all_goals exact h

/-- No program of the monitor removes a file from a target. -/
theorem cut_isFile {α : Type} {p : Prog SysOp α} (h : IsFile path d.toFiles)
    (hcut : p.Cut (sys host) d d') : IsFile path d'.toFiles := by
  refine (uses_any p).cut_invariant (I := fun t => IsFile path t.toFiles) ?_ ?_ h hcut
  · intro β e t _ ht
    cases e with
    | file op =>
      change IsFile path (op.perform host t).2.toFiles
      rcases hperform : op.perform host t with ⟨kind | value, t'⟩
      · obtain ⟨hsame | ⟨written, hcut⟩, -⟩ := perform_error hperform
        · rw [hsame]
          exact ht
        · exact cutShort_isFile ht hcut
      · exact effect_isFile ht (perform_ok hperform).1
    | hook | runCheck | systemTime | instant => exact ht
  · intro β e t t' _ ht htorn
    cases e with
    | file op =>
      obtain ⟨-, written, hcut⟩ := htorn
      exact cutShort_isFile ht hcut
    | hook | runCheck | systemTime | instant => cases htorn

theorem call_cut {label : String} {op : FileOp β}
    (hcut : Cut (sys host) (call label op) d d') :
    d'.toFiles = d.toFiles ∨
      (∃ written, op.cutShort host d.tick written d.toFiles = some d'.toFiles) ∨
      ∃ value, op.effect host d.tick d.toFiles = .ok (value, d'.toFiles) := by
  have hperformed : ∀ t, t = (op.perform host d).2 → t.toFiles = d.toFiles ∨
      (∃ written, op.cutShort host d.tick written d.toFiles = some t.toFiles) ∨
      ∃ value, op.effect host d.tick d.toFiles = .ok (value, t.toFiles) := by
    rintro t rfl
    rcases hperform : op.perform host d with ⟨kind | value, t'⟩
    · obtain ⟨hsame | hcut, -⟩ := perform_error hperform
      · exact .inl hsame
      · exact .inr (.inl hcut)
    · exact .inr (.inr ⟨value, (perform_ok hperform).1⟩)
  rcases (cut_bind _ _ _ _ _).mp hcut with hcut | ⟨r, t, hperform, hcut⟩
  · rcases (Fallible.cut_perform _ _ _ _).mp hcut with rfl | htorn | hend
    · exact .inl rfl
    · exact .inr (.inl htorn.2)
    · exact hperformed d' hend
  · have ht : t = (op.perform host d).2 := (Prod.mk.inj hperform).2.symm
    have hd' : d' = t := by cases r <;> exact hcut
    exact hperformed d' (hd'.trans ht)

theorem replaceContents_cut
    (hcut : Cut (sys host) (replaceContents path bytes existing) d d') :
    d'.toFiles = d.toFiles ∨ d'.toFiles = d.toFiles.setNode path (.file bytes) := by
  rcases (cut_bind _ _ _ _ _).mp hcut with hcut | ⟨_, d₁, hcreate, hcut⟩
  · exact .inl (cut_reads (call_confined (.inl rfl)) hcut)
  have hd₁ := exec_reads (call_confined (.inl rfl)) hcreate
  rcases (cut_bind _ _ _ _ _).mp hcut with hcut | ⟨_, d₂, hfill, hcut⟩
  · exact .inl ((cut_reads (call_confined (.inl rfl)) hcut).trans hd₁)
  have hd₂ := (exec_reads (call_confined (.inl rfl)) hfill).trans hd₁
  rcases (cut_bind _ _ _ _ _).mp hcut with hcut | ⟨_, d₃, hrename, hcut⟩
  · rcases call_cut hcut with hsame | ⟨written, hshort⟩ | ⟨value, heffect⟩
    · exact .inl (hsame.trans hd₂)
    · cases hshort
    · injection heffect with heffect
      injection heffect with _ hd'
      exact .inr (by rw [← hd', hd₂])
  obtain ⟨heffect, -⟩ := call_ok hrename
  injection heffect with heffect
  injection heffect with _ hd₃
  rcases (cut_bind _ _ _ _ _).mp hcut with hcut | ⟨_, d₄, hsync, hcut⟩
  · exact .inr (by rw [cut_reads (call_confined (.inl rfl)) hcut, ← hd₃, hd₂])
  · rw [(cut_pure _ _ _ _).mp hcut]
    exact .inr (by rw [exec_reads (call_confined (.inl rfl)) hsync, ← hd₃, hd₂])

/-- An in-place write whose open fails has truncated nothing. -/
theorem writeInPlace_openat {kind : ErrorKind}
    (h : exec (sys host) (writeInPlace path bytes) d = (.error (.io "openat" kind), d')) :
    d'.toFiles = d.toFiles := by
  rcases Fallible.exec_bind_eq_error _ h with hopen | ⟨_, d₁, -, h⟩
  · obtain ⟨kind, -, hperform⟩ := call_error hopen
    obtain ⟨hsame | ⟨written, hcut⟩, -⟩ := perform_error hperform
    · exact hsame
    · cases hcut
  · rcases Fallible.exec_bind_eq_error _ h with hwrite | ⟨_, d₂, -, hsync⟩
    · obtain ⟨_, herr, -⟩ := call_error hwrite
      simp at herr
    · obtain ⟨_, herr, -⟩ := call_error hsync
      simp at herr

theorem writeMarker_cut {record : InPlaceMarker}
    (hcut : Cut (sys host) (writeMarker record) d d') :
    d'.toFiles = d.toFiles ∨ (∃ written, d'.inPlace = some (.torn written)) ∨
      d'.toFiles = { d.toFiles with inPlace := some (.whole record) } := by
  rcases (cut_bind _ _ _ _ _).mp hcut with hcut | ⟨_, d₁, hcreate, hcut⟩
  · rcases call_cut hcut with hsame | ⟨written, hshort⟩ | ⟨value, heffect⟩
    · exact .inl hsame
    · cases hshort
    · simp only [FileOp.effect] at heffect
      split at heffect
      · cases heffect
      · injection heffect with heffect
        injection heffect with _ hd'
        exact .inr (.inl ⟨0, by rw [← hd']⟩)
  obtain ⟨heffect, -⟩ := call_ok hcreate
  simp only [FileOp.effect] at heffect
  split at heffect
  · cases heffect
  injection heffect with heffect
  injection heffect with _ hd₁
  rcases (cut_bind _ _ _ _ _).mp hcut with hcut | ⟨_, d₂, hfill, hcut⟩
  · rcases call_cut hcut with hsame | ⟨written, hshort⟩ | ⟨value, heffect⟩
    · exact .inr (.inl ⟨0, by rw [hsame, ← hd₁]⟩)
    · injection hshort with hd'
      exact .inr (.inl ⟨written, by rw [← hd']⟩)
    · injection heffect with heffect
      injection heffect with _ hd'
      exact .inr (.inr (by rw [← hd', ← hd₁]))
  · obtain ⟨heffect, -⟩ := call_ok hfill
    injection heffect with heffect
    injection heffect with _ hd₂
    exact .inr (.inr (by rw [cut_reads (call_confined (.inl rfl)) hcut, ← hd₂, ← hd₁]))

theorem removeMarker_cut (hcut : Cut (sys host) removeMarker d d') :
    d'.toFiles = d.toFiles ∨ d'.toFiles = { d.toFiles with inPlace := none } := by
  rcases (cut_bind _ _ _ _ _).mp hcut with hcut | ⟨_, d₁, hunlink, hcut⟩
  · rcases call_cut hcut with hsame | ⟨written, hshort⟩ | ⟨value, heffect⟩
    · exact .inl hsame
    · cases hshort
    · simp only [FileOp.effect] at heffect
      split at heffect
      · injection heffect with heffect
        injection heffect with _ hd'
        exact .inr hd'.symm
      · cases heffect
  · obtain ⟨heffect, -⟩ := call_ok hunlink
    simp only [FileOp.effect] at heffect
    split at heffect
    · injection heffect with heffect
      injection heffect with _ hd₁
      exact .inr ((cut_reads (call_confined (.inl rfl)) hcut).trans hd₁.symm)
    · cases heffect

/-- A backup that was just taken holds the contents it was taken of. -/
theorem Backed.holds {previous : Bytes} (h : Backed req (some previous) (some backup) f f') :
    backup.dir = req.backupDir ∧ Holds backup previous f' := by
  rcases h with ⟨hnone, -⟩ | ⟨contents, name, hprevious, -, hbackup, htook⟩
  · cases hnone
  · cases hprevious
    cases hbackup
    obtain ⟨modified, hfiles⟩ := htook.files
    refine ⟨rfl, { name := name, contents := previous, modified }, ?_, rfl⟩
    refine BackupDir.find_eq_some.mpr ⟨?_, rfl⟩
    rw [hfiles, without, List.mem_filter]
    refine ⟨List.mem_append_right _ (List.mem_singleton_self _), ?_⟩
    simpa using newest_not_surplus _ _ _

end Detent.Guarantees
