import Detent.Guarantees.Frames

/-!
# What a successful write leaves

A call that succeeds did what `FileOp.effect` says. From that, in the order of the
code: a backup is a new file with the contents the target had; the rotation
deletes the surplus names and nothing else; and a `write_atomic` that succeeds,
through a temp file or in place, leaves the new contents at the target and the
in-place marker as it found it. Nothing here assumes that calls do not fail.
-/
namespace Detent.Guarantees
open Lib Source Source.Atomic
open Fallible (exec exec_bind_eq_error exec_bind_eq_ok exec_perform)

variable {host : Host} {d d' : Disk} {β : Type} {err : AtomicError} {name : BackupName}
  {dir path : Path} {contents : Bytes} {req : WriteRequest} {backup : Option BackupPath}
  {existing : Option Existing} {expectedPrev : Option Sha256Digest}

theorem perform_ok {op : FileOp β} {value : β} (h : op.perform host d = (.ok value, d')) :
    op.effect host d.tick d.toFiles = .ok (value, d'.toFiles) ∧ d'.tick = d.tick + 1 := by
  unfold FileOp.perform at h
  split at h
  · cases h
  · split at h
    · rename_i heff
      cases h
      exact ⟨heff, rfl⟩
    · cases h

/-- A call that fails changes nothing, or was cut short. -/
theorem perform_error {op : FileOp β} {kind : ErrorKind}
    (h : op.perform host d = (.error kind, d')) :
    (d'.toFiles = d.toFiles ∨ ∃ written, op.cutShort host d.tick written d.toFiles = some d'.toFiles) ∧
      d'.tick = d.tick + 1 := by
  unfold FileOp.perform at h
  split at h
  · rename_i written hfault
    cases h
    cases hcut : op.cutShort host d.tick written d.toFiles with
    | none => exact ⟨.inl rfl, rfl⟩
    | some f => exact ⟨.inr ⟨written, hcut⟩, rfl⟩
  · split at h
    · cases h
    · cases h
      exact ⟨.inl rfl, rfl⟩

/-- A call that does not fail does what its effect says. -/
theorem perform_effect {op : FileOp β} {value : β} {f : Files}
    (hfault : host.fault d.tick op = none)
    (heffect : op.effect host d.tick d.toFiles = .ok (value, f)) :
    op.perform host d = (.ok value, { f with tick := d.tick + 1 }) := by
  unfold FileOp.perform
  rw [hfault]
  dsimp only
  rw [heffect]

/-- The result of a call, as a value. -/
theorem exec_file {ε : Type} {op : FileOp β} {r : Except ErrorKind β}
    (h : op.perform host d = (r, d')) :
    exec (sys host) (Fallible.perform (.file op) : ExceptT ε (Prog SysOp) _) d =
      (.ok r, d') := by
  rw [exec_perform]
  change (Except.ok (op.perform host d).1, (op.perform host d).2) = _
  rw [h]

theorem exec_call (label : String) (op : FileOp β) (d : Disk) :
    exec (sys host) (call label op) d =
      match op.perform host d with
      | (.ok value, d') => (.ok value, d')
      | (.error kind, d') => (.error (.io label kind), d') := by
  unfold call
  rcases hperform : op.perform host d with ⟨kind | value, t⟩ <;>
    rw [Fallible.exec_bind, exec_file hperform] <;> rfl

theorem call_ok {label : String} {op : FileOp β} {value : β}
    (h : exec (sys host) (call label op) d = (.ok value, d')) :
    op.effect host d.tick d.toFiles = .ok (value, d'.toFiles) ∧ d'.tick = d.tick + 1 := by
  rw [exec_call] at h
  split at h
  · rename_i hperform
    cases h
    exact perform_ok hperform
  · cases h

theorem call_error {label : String} {op : FileOp β}
    (h : exec (sys host) (call label op) d = (.error err, d')) :
    ∃ kind, err = .io label kind ∧ op.perform host d = (.error kind, d') := by
  rw [exec_call] at h
  split at h
  · cases h
  · rename_i kind t hperform
    cases h
    exact ⟨kind, rfl, hperform⟩

namespace BackupDir

@[simp] theorem names_empty : BackupDir.empty.names = [] := rfl

theorem find_eq_some {dir : BackupDir} {file : BackupFile} :
    dir.find name = some file ↔ file ∈ dir.files ∧ file.name = name := by
  unfold BackupDir.find
  constructor
  · intro h
    exact ⟨List.mem_of_find?_eq_some h, by simpa using List.find?_some h⟩
  · intro ⟨hmem, hname⟩
    rw [List.find?_eq_some_iff_append]
    obtain ⟨before, after, hsplit⟩ := List.append_of_mem hmem
    refine ⟨by simpa using hname, before, after, hsplit, ?_⟩
    intro other hother
    have hnodup := dir.unique
    rw [hsplit, List.map_append, List.map_cons] at hnodup
    have hne : other.name ≠ file.name := by
      intro heq
      exact (List.nodup_append'.mp hnodup).2.2 (List.mem_map_of_mem hother)
        (heq ▸ List.mem_cons_self)
    simpa [hname] using hne

theorem find_isSome {dir : BackupDir} : (dir.find name).isSome ↔ name ∈ dir.names := by
  rw [Option.isSome_iff_exists]
  constructor
  · intro ⟨file, hfile⟩
    obtain ⟨hmem, rfl⟩ := find_eq_some.mp hfile
    exact List.mem_map_of_mem hmem
  · intro h
    obtain ⟨file, hmem, hname⟩ := List.mem_map.mp h
    exact ⟨file, find_eq_some.mpr ⟨hmem, hname⟩⟩

/-- A new file, once filled, is the last of the directory. -/
theorem files_fill_create {dir created : BackupDir} {opened : Nat} (contents : Bytes)
    (modified : Nat) (h : dir.create name opened = some created) :
    name ∉ dir.names ∧ (created.fill name contents modified).files =
      dir.files ++ [{ name := name, contents, modified }] := by
  unfold BackupDir.create at h
  split at h
  · cases h
  · rename_i hfree
    cases h
    refine ⟨hfree, ?_⟩
    have hothers : dir.files.map (fun file =>
        if file.name = name then { file with contents, modified } else file) = dir.files := by
      rw [List.map_congr_left (g := id), List.map_id]
      intro file hfile
      have hne : file.name ≠ name := by
        intro heq
        exact hfree (heq ▸ List.mem_map_of_mem hfile)
      exact if_neg hne
    simp only [BackupDir.fill, List.map_append, List.map_cons, List.map_nil, if_true, hothers]

end BackupDir

/-- The names `rotate_backups` deletes. -/
def surplus (keep : Nat) (newest : BackupName) (names : List BackupName) : List BackupName :=
  if names.length ≤ keep then []
  else ((names.filter (· ≠ newest)).insertionSort BackupName.After).drop (keep - 1)

/-- The files left when the names in `gone` are deleted. -/
def without (gone : List BackupName) (files : List BackupFile) : List BackupFile :=
  files.filter (fun file => file.name ∉ gone)

theorem without_nil (files : List BackupFile) : without [] files = files := by
  simp [without]

theorem without_cons (name : BackupName) (gone : List BackupName) (files : List BackupFile) :
    without gone (files.filter (fun file => file.name ≠ name)) = without (name :: gone) files := by
  simp only [without, List.filter_filter]
  congr 1
  funext file
  simp [Bool.and_comm]

theorem names_without (gone : List BackupName) (files : List BackupFile) :
    (without gone files).map (·.name) = (files.map (·.name)).filter (fun name => name ∉ gone) := by
  rw [List.filter_map]
  rfl

theorem newest_not_surplus (keep : Nat) (newest : BackupName) (names : List BackupName) :
    newest ∉ surplus keep newest names := by
  unfold surplus
  split
  · exact List.not_mem_nil
  · intro h
    have hmem := (List.mem_insertionSort _).mp (List.mem_of_mem_drop h)
    simp at hmem

/-- `f'` is `f` with one more backup, of `contents`, and without the surplus. -/
structure Took (dir : Path) (keep : Nat) (contents : Bytes) (name : BackupName) (f f' : Files) :
    Prop where
  fresh : name ∉ (f.backups dir).names
  files : ∃ modified, (f'.backups dir).files =
    without (surplus keep name ((f.backups dir).names ++ [name]))
      ((f.backups dir).files ++ [{ name := name, contents, modified }])
  taken : f'.taken = f.taken ++ [{ dir := dir, name }]

theorem createBackupFile_ok {dir : Path} {short : String} {now attempt left : Nat}
    {name : BackupName}
    (h : exec (sys host) (createBackupFile dir short now attempt left) d = (.ok name, d')) :
    name.short = short ∧ now + attempt ≤ name.stamp ∧
      ∃ created opened, (d.backups dir).create name opened = some created ∧
        d'.toFiles = d.toFiles.setBackups dir created := by
  induction left generalizing attempt d with
  | zero => cases h
  | succ left ih =>
    obtain ⟨r, t, hr, hrest⟩ := exec_bind_eq_ok _ h
    rw [exec_perform] at hr
    injection hr with hvalue hstate
    have hperform : (FileOp.createBackup { dir, name := { stamp := now + attempt, short } }).perform
        host d = (r, t) := Prod.ext (Except.ok.inj hvalue) hstate
    match r with
    | .ok () =>
      cases hrest
      obtain ⟨heffect, -⟩ := perform_ok hperform
      simp only [FileOp.effect] at heffect
      split at heffect
      · rename_i created hcreate
        injection heffect with heffect
        injection heffect with _ hfiles
        exact ⟨rfl, Nat.le_refl _, created, _, hcreate, hfiles.symm⟩
      · cases heffect
    | .error .alreadyExists =>
      -- the name was taken: the next attempt starts from the same files
      obtain ⟨hsame | ⟨written, hcut⟩, -⟩ := perform_error hperform
      · obtain ⟨hshort, hstamp, hcreated⟩ := ih hrest
        rw [hsame] at hcreated
        exact ⟨hshort, by omega, hcreated⟩
      · cases hcut
    | .error .notFound | .error .readOnlyFilesystem | .error .permissionDenied | .error .other =>
      cases hrest

/-- A backup that was written is a new file, the last of its directory. -/
theorem writeBackup_ok {digest : Sha256Digest} {now : Nat} {backup : BackupPath}
    (h : exec (sys host) (writeBackup dir contents digest now) d = (.ok backup, d')) :
    backup.dir = dir ∧ backup.name.short = digest.shortHex ∧ now ≤ backup.name.stamp ∧
      backup.name ∉ (d.backups dir).names ∧
      (∃ modified, (d'.backups dir).files =
        (d.backups dir).files ++ [{ name := backup.name, contents, modified }]) ∧
      d'.taken = d.taken ++ [backup] := by
  obtain ⟨name, d₁, hcreate, h⟩ := exec_bind_eq_ok _ h
  obtain ⟨r, d₂, hfill, h⟩ := exec_bind_eq_ok _ h
  obtain ⟨hshort, hstamp, created, opened, hcreated, hfiles₁⟩ := createBackupFile_ok hcreate
  rw [exec_perform] at hfill
  injection hfill with hvalue hstate
  have hperform : (FileOp.fillBackup { dir, name } contents).perform host d₁ = (r, d₂) :=
    Prod.ext (Except.ok.inj hvalue) hstate
  match r with
  | .error kind =>
    obtain ⟨_, _, _, hthrow⟩ := exec_bind_eq_ok _ h
    cases hthrow
  | .ok () =>
    obtain ⟨_, d₃, hsync, h⟩ := exec_bind_eq_ok _ h
    cases h
    obtain ⟨heffect, -⟩ := perform_ok hperform
    injection heffect with heffect
    injection heffect with _ hfiles₂
    have hfiles₃ := exec_reads (call_confined (.inl rfl)) hsync
    obtain ⟨hfree, hfilled⟩ :=
      BackupDir.files_fill_create contents (host.modified d₁.tick) hcreated
    refine ⟨rfl, hshort, by omega, hfree, ⟨host.modified d₁.tick, ?_⟩, ?_⟩
    · rw [hfiles₃, ← hfiles₂, hfiles₁]
      simpa [Files.setBackups] using hfilled
    · rw [hfiles₃, ← hfiles₂, hfiles₁]
      rfl

theorem unlinkBackups_ok {names : List BackupName}
    (h : exec (sys host) (unlinkBackups dir names) d = (.ok (), d')) :
    (d'.backups dir).files = without names (d.backups dir).files ∧ d'.taken = d.taken := by
  induction names generalizing d with
  | nil =>
    cases h
    exact ⟨(without_nil _).symm, rfl⟩
  | cons name names ih =>
    obtain ⟨_, d₁, hcall, h⟩ := exec_bind_eq_ok _ h
    obtain ⟨hfiles, htaken⟩ := ih h
    obtain ⟨heffect, -⟩ := call_ok hcall
    simp only [FileOp.effect] at heffect
    split at heffect
    · injection heffect with heffect
      injection heffect with _ hd₁
      constructor
      · rw [hfiles, ← hd₁, ← without_cons]
        simp [Files.setBackups, BackupDir.unlink]
      · rw [htaken, ← hd₁]
        rfl
    · cases heffect

/-- A rotation that succeeds deletes the surplus and nothing else. -/
theorem rotateBackups_ok {keep : Nat} {newest : BackupName}
    (h : exec (sys host) (rotateBackups dir keep newest) d = (.ok (), d')) :
    (d'.backups dir).files = without (surplus keep newest (d.backups dir).names)
      (d.backups dir).files ∧ d'.taken = d.taken := by
  obtain ⟨names, d₁, hnames, h⟩ := exec_bind_eq_ok _ h
  obtain ⟨heffect, -⟩ := call_ok hnames
  injection heffect with heffect
  injection heffect with hnames hd₁
  subst hnames
  unfold surplus
  split at h
  · rename_i hfew
    cases h
    rw [if_pos hfew, without_nil, ← hd₁]
    exact ⟨rfl, rfl⟩
  · rename_i hmany
    rw [if_neg hmany]
    obtain ⟨_, d₂, hunlink, h⟩ := exec_bind_eq_ok _ h
    obtain ⟨hfiles, htaken⟩ := unlinkBackups_ok hunlink
    rw [exec_reads (call_confined (.inl rfl)) h, hfiles, htaken, ← hd₁]
    exact ⟨rfl, rfl⟩

/-- The backup step: a backup of the contents, or none when there is nothing to
back up or backups are disabled. -/
def Backed (req : WriteRequest) (previous : Option Bytes) (backup : Option BackupPath)
    (f f' : Files) : Prop :=
  (backup = none ∧ (previous = none ∨ req.keepBackups = 0) ∧ f'.backups req.backupDir =
    f.backups req.backupDir ∧ f'.taken = f.taken) ∨
  ∃ contents name, previous = some contents ∧ 0 < req.keepBackups ∧
    backup = some { dir := req.backupDir, name } ∧
    Took req.backupDir req.keepBackups contents name f f'

theorem Took.of_same {keep : Nat} {f g g' : Files} (h : Took dir keep contents name f g)
    (hbackups : g'.backups = g.backups) (htaken : g'.taken = g.taken) :
    Took dir keep contents name f g' where
  fresh := h.fresh
  files := by
    rw [hbackups]
    exact h.files
  taken := by
    rw [htaken]
    exact h.taken

/-- The backup step, seen from a later state with the same backups. -/
theorem Backed.of_same {previous : Option Bytes} {f g g' : Files}
    (h : Backed req previous backup f g) (hbackups : g'.backups = g.backups)
    (htaken : g'.taken = g.taken) : Backed req previous backup f g' := by
  rcases h with ⟨hnone, hwhy, hsame, htaken'⟩ | ⟨contents, name, hprev, hkeep, hbackup, htook⟩
  · exact .inl ⟨hnone, hwhy, by rw [hbackups, hsame], by rw [htaken, htaken']⟩
  · exact .inr ⟨contents, name, hprev, hkeep, hbackup, htook.of_same hbackups htaken⟩

theorem backUp_ok (h : exec (sys host) (backUp req existing) d = (.ok backup, d')) :
    Backed req (existing.map (·.contents)) backup d.toFiles d'.toFiles := by
  unfold backUp at h
  cases existing with
  | none =>
    cases h
    exact .inl ⟨rfl, .inl rfl, rfl, rfl⟩
  | some found =>
    dsimp only at h
    split at h
    · rename_i hkeep
      obtain ⟨now, d₁, hnow, h⟩ := exec_bind_eq_ok _ h
      obtain ⟨path, d₂, hwrite, h⟩ := exec_bind_eq_ok _ h
      obtain ⟨_, d₃, hrotate, h⟩ := exec_bind_eq_ok _ h
      cases h
      have hd₁ : d₁.toFiles = d.toFiles := by
        rw [exec_perform] at hnow
        cases hnow
        rfl
      obtain ⟨hdir, -, -, hfree, ⟨modified, hfiles⟩, htaken⟩ := writeBackup_ok hwrite
      obtain ⟨hrotated, htaken'⟩ := rotateBackups_ok hrotate
      obtain ⟨dir, name⟩ := path
      cases hdir
      rw [hd₁] at hfree hfiles htaken
      refine .inr ⟨found.contents, name, rfl, hkeep, rfl, hfree, ⟨modified, ?_⟩, ?_⟩
      · have hnames : (d₂.backups req.backupDir).names =
            (d.backups req.backupDir).names ++ [name] := by
          simp [BackupDir.names, hfiles]
        rw [hrotated, hnames, hfiles]
      · rw [htaken', htaken]
    · rename_i hkeep
      cases h
      exact .inl ⟨rfl, .inr (Nat.eq_zero_of_not_pos hkeep), rfl, rfl⟩

variable {preserved : Bool} {outcome : WriteOutcome}

theorem replaceContents_ok {path : Path} {contents : Bytes} {existing : Option Existing}
    (h : exec (sys host) (replaceContents path contents existing) d = (.ok preserved, d')) :
    d'.toFiles = d.toFiles.setNode path (.file contents) := by
  obtain ⟨_, d₁, hcreate, h⟩ := exec_bind_eq_ok _ h
  obtain ⟨_, d₂, hfill, h⟩ := exec_bind_eq_ok _ h
  obtain ⟨_, d₃, hrename, h⟩ := exec_bind_eq_ok _ h
  obtain ⟨_, d₄, hsync, h⟩ := exec_bind_eq_ok _ h
  cases h
  obtain ⟨heffect, -⟩ := call_ok hrename
  injection heffect with heffect
  injection heffect with _ hd₃
  rw [exec_reads (call_confined (.inl rfl)) hsync, ← hd₃,
    exec_reads (call_confined (.inl rfl)) hfill,
    exec_reads (call_confined (.inl rfl)) hcreate]

/-- A replacement that fails left the target alone, or failed after the rename. -/
theorem replaceContents_error
    (h : exec (sys host) (replaceContents path contents existing) d = (.error err, d')) :
    d'.toFiles = d.toFiles ∨
      (d'.toFiles = d.toFiles.setNode path (.file contents) ∧ ∃ kind, err = .io "fsync" kind) := by
  rcases exec_bind_eq_error _ h with hcreate | ⟨_, d₁, hcreate, h⟩
  · exact .inl (exec_reads (call_confined (.inl rfl)) hcreate)
  have hd₁ := exec_reads (call_confined (.inl rfl)) hcreate
  rcases exec_bind_eq_error _ h with hfill | ⟨_, d₂, hfill, h⟩
  · exact .inl ((exec_reads (call_confined (.inl rfl)) hfill).trans hd₁)
  have hd₂ := (exec_reads (call_confined (.inl rfl)) hfill).trans hd₁
  rcases exec_bind_eq_error _ h with hrename | ⟨_, d₃, hrename, h⟩
  · obtain ⟨kind, -, hperform⟩ := call_error hrename
    obtain ⟨hsame | ⟨written, hcut⟩, -⟩ := perform_error hperform
    · exact .inl (hsame.trans hd₂)
    · cases hcut
  obtain ⟨heffect, -⟩ := call_ok hrename
  injection heffect with heffect
  injection heffect with _ hd₃
  rcases exec_bind_eq_error _ h with hsync | ⟨_, d₄, hsync, h⟩
  · obtain ⟨kind, hkind, -⟩ := call_error hsync
    refine .inr ⟨?_, kind, hkind⟩
    rw [exec_reads (call_confined (.inl rfl)) hsync, ← hd₃, hd₂]
  · cases h

theorem writeInPlace_ok
    (h : exec (sys host) (writeInPlace path contents) d = (.ok (), d')) :
    d'.toFiles = d.toFiles.setNode path (.file contents) := by
  obtain ⟨_, d₁, hopen, h⟩ := exec_bind_eq_ok _ h
  obtain ⟨_, d₂, hwrite, hsync⟩ := exec_bind_eq_ok _ h
  obtain ⟨hopened, -⟩ := call_ok hopen
  obtain ⟨hwritten, -⟩ := call_ok hwrite
  simp only [FileOp.effect] at hopened
  split at hopened
  · injection hopened with hopened
    injection hopened with _ hd₁
    injection hwritten with hwritten
    injection hwritten with _ hd₂
    rw [exec_reads (call_confined (.inl rfl)) hsync, ← hd₂, ← hd₁]
    simp [Files.setNode]
  all_goals cases hopened

theorem writeMarker_ok {record : InPlaceMarker}
    (h : exec (sys host) (writeMarker record) d = (.ok (), d')) :
    d.inPlace = none ∧ d'.toFiles = { d.toFiles with inPlace := some (.whole record) } := by
  obtain ⟨_, d₁, hcreate, h⟩ := exec_bind_eq_ok _ h
  obtain ⟨_, d₂, hfill, hsync⟩ := exec_bind_eq_ok _ h
  obtain ⟨hcreated, -⟩ := call_ok hcreate
  obtain ⟨hfilled, -⟩ := call_ok hfill
  simp only [FileOp.effect] at hcreated
  split at hcreated
  · cases hcreated
  · rename_i hnone
    injection hcreated with hcreated
    injection hcreated with _ hd₁
    injection hfilled with hfilled
    injection hfilled with _ hd₂
    refine ⟨hnone, ?_⟩
    rw [exec_reads (call_confined (.inl rfl)) hsync, ← hd₂, ← hd₁]

theorem removeMarker_ok (h : exec (sys host) removeMarker d = (.ok (), d')) :
    d'.toFiles = { d.toFiles with inPlace := none } := by
  obtain ⟨_, d₁, hunlink, hsync⟩ := exec_bind_eq_ok _ h
  obtain ⟨hunlinked, -⟩ := call_ok hunlink
  simp only [FileOp.effect] at hunlinked
  split at hunlinked
  · injection hunlinked with hunlinked
    injection hunlinked with _ hd₁
    rw [exec_reads (call_confined (.inl rfl)) hsync, ← hd₁]
  · cases hunlinked

variable [Sha256]

/-- An in-place write that succeeds leaves no marker of its own. -/
theorem installInPlace_ok {found : Existing}
    (h : exec (sys host) (installInPlace req found backup err) d = (.ok preserved, d')) :
    d'.toFiles = d.toFiles.setNode req.path (.file req.contents) := by
  unfold installInPlace at h
  split at h
  · cases h
  · split at h
    · cases h
    · obtain ⟨_, d₁, hmarker, h⟩ := exec_bind_eq_ok _ h
      obtain ⟨result, d₂, hwrite, h⟩ := exec_bind_eq_ok _ h
      obtain ⟨hnone, hd₁⟩ := writeMarker_ok hmarker
      rw [Fallible.exec_attempt] at hwrite
      injection hwrite with hresult hd₂
      injection hresult with hresult
      split at h
      · obtain ⟨_, d₃, hremove, h⟩ := exec_bind_eq_ok _ h
        cases h
        have hwritten := writeInPlace_ok (Prod.ext hresult hd₂)
        rw [removeMarker_ok hremove, hwritten, hd₁]
        simp only [Files.setNode, hnone]
      · obtain ⟨_, d₃, hremove, h⟩ := exec_bind_eq_ok _ h
        cases h
      · cases h
  · obtain ⟨_, d₁, hwrite, h⟩ := exec_bind_eq_ok _ h
    cases h
    exact writeInPlace_ok hwrite

/-- A replacement that succeeds, through a temp file or in place, changes the
target and nothing else. -/
theorem install_ok (h : exec (sys host) (install req existing backup) d = (.ok preserved, d')) :
    d'.toFiles = d.toFiles.setNode req.path (.file req.contents) := by
  obtain ⟨result, d₁, hreplace, h⟩ := exec_bind_eq_ok _ h
  rw [Fallible.exec_attempt] at hreplace
  injection hreplace with hresult hd₁
  injection hresult with hresult
  have hreplaced : exec (sys host) (replaceContents req.path req.contents existing) d =
      (result, d₁) := Prod.ext hresult hd₁
  match result, existing with
  | .ok _, _ =>
    cases h
    exact replaceContents_ok hreplaced
  | .error err, none => cases h
  | .error err, some found =>
    dsimp only at h
    split at h
    · rename_i hrefused
      -- a refused temp file is an error of `openat`, before the rename
      rcases replaceContents_error hreplaced with hsame | ⟨-, kind, rfl⟩
      · rw [installInPlace_ok h, hsame]
      · simp [tempRefused] at hrefused
    · cases h

theorem readExisting_ok (h : exec (sys host) (readExisting path) d = (.ok existing, d')) :
    d.node path = existing.map (fun found => .file found.contents) ∧
      (∀ found, existing = some found → found.digest = Sha256.of found.contents) ∧
      d'.toFiles = d.toFiles := by
  have hd' := exec_reads (readExisting_confined path) h
  obtain ⟨node, d₁, hread, h⟩ := exec_bind_eq_ok _ h
  obtain ⟨heffect, -⟩ := call_ok hread
  injection heffect with heffect
  injection heffect with hnode _
  rw [hnode]
  match node with
  | none =>
    cases h
    exact ⟨rfl, by simp, hd'⟩
  | some (.file contents) =>
    cases h
    exact ⟨rfl, by simp, hd'⟩
  | some .symlink => cases h
  | some .special => cases h

theorem readWithDigest_ok {digest : Sha256Digest}
    (h : exec (sys host) (readWithDigest path) d = (.ok (contents, digest), d')) :
    d.node path = some (.file contents) ∧ digest = Sha256.of contents := by
  obtain ⟨existing, d₁, hread, h⟩ := exec_bind_eq_ok _ h
  obtain ⟨hnode, hdigest, -⟩ := readExisting_ok hread
  cases existing with
  | none => cases h
  | some found =>
    cases h
    exact ⟨hnode, hdigest found rfl⟩

omit [Sha256] in
theorem checkExpected_ok
    (h : exec (sys host) (checkExpected expectedPrev existing) d = (.ok (), d')) :
    ∀ digest, expectedPrev = some digest → existing.map (·.digest) = some digest := by
  rintro digest rfl
  unfold checkExpected at h
  dsimp only at h
  split at h
  · assumption
  · cases h

/-- What a successful `write_atomic` did: `previous` is what the target held. -/
structure Wrote (req : WriteRequest) (previous : Option Bytes) (outcome : WriteOutcome)
    (f f' : Files) : Prop where
  found : f.node req.path = previous.map .file
  expected : ∀ digest, req.expectedPrev = some digest → previous.map Sha256.of = some digest
  prevDigest : outcome.prevDigest = previous.map Sha256.of
  newDigest : outcome.newDigest = Sha256.of req.contents
  created : outcome.created = previous.isNone
  backed : Backed req previous outcome.backup f f'
  written : f'.node = Function.update f.node req.path (some (.file req.contents))
  inPlace : f'.inPlace = f.inPlace
  frame : Agree (writeParts req) f f'

theorem writeAtomic_ok (h : exec (sys host) (writeAtomic req) d = (.ok outcome, d')) :
    ∃ previous, Wrote req previous outcome d.toFiles d'.toFiles := by
  have hframe := exec_agree (writeAtomic_confined req) h
  obtain ⟨existing, d₁, hread, h⟩ := exec_bind_eq_ok _ h
  obtain ⟨_, d₂, hcheck, h⟩ := exec_bind_eq_ok _ h
  obtain ⟨backup, d₃, hbackup, h⟩ := exec_bind_eq_ok _ h
  obtain ⟨preserved, d₄, hinstall, h⟩ := exec_bind_eq_ok _ h
  cases h
  obtain ⟨hnode, hdigest, hd₁⟩ := readExisting_ok hread
  have hd₂ : d₂.toFiles = d.toFiles :=
    (exec_reads (checkExpected_confined _ _) hcheck).trans hd₁
  have hconfined : Confined (· = .backups req.backupDir) (backUp req existing) := by
    apply backUp_confined
    rfl
  have hkept := exec_agree hconfined hbackup
  have hinstalled := install_ok hinstall
  have hdigests : existing.map (·.digest) = (existing.map (·.contents)).map Sha256.of := by
    cases existing with
    | none => rfl
    | some found => exact congrArg some (hdigest found rfl)
  refine ⟨existing.map (·.contents), ?_, ?_, hdigests, rfl, ?_, ?_, ?_, ?_, hframe⟩
  · rw [hnode, Option.map_map]
    rfl
  · intro digest hexpected
    rw [← hdigests]
    exact checkExpected_ok hcheck digest hexpected
  · cases existing <;> rfl
  · have hbacked := backUp_ok hbackup
    rw [hd₂] at hbacked
    exact hbacked.of_same (by rw [hinstalled]; rfl) (by rw [hinstalled]; rfl)
  · rw [hinstalled, ← hd₂]
    change Function.update d₃.node _ _ = _
    rw [funext (fun path => hkept.node path (by simp))]
  · rw [hinstalled]
    change d₃.inPlace = d.inPlace
    rw [hkept.inPlace (by simp), hd₂]

theorem restoreBackupWith_ok {backup : BackupPath} {target : Path} {inPlace : InPlace}
    (h : exec (sys host) (restoreBackupWith backup target expectedPrev inPlace) d =
      (.ok outcome, d')) :
    ∃ file previous, d.backup backup = some file ∧
      Wrote (restoreRequest backup target file.contents expectedPrev inPlace) previous outcome
        d.toFiles d'.toFiles := by
  obtain ⟨file, d₁, hread, h⟩ := exec_bind_eq_ok _ h
  have hd₁ := exec_reads (call_confined (.inl rfl)) hread
  obtain ⟨heffect, -⟩ := call_ok hread
  obtain ⟨previous, hwrote⟩ := writeAtomic_ok h
  simp only [FileOp.effect] at heffect
  split at heffect
  · rename_i found hfound
    injection heffect with heffect
    injection heffect with hfile _
    rw [hd₁] at hwrote
    exact ⟨file, previous, hfile ▸ hfound, hwrote⟩
  · cases heffect

end Detent.Guarantees
