import Detent.Guarantees.AtomicWrite

/-!
# Writes on a host whose calls work

A call that the host does not fail can still be refused by the files: a backup
name that is taken, a temp file beside a target on a read-only directory. Here the
programs of `Atomic` are followed to their successful end: a backup is taken when
one of the names it tries is free, the rotation deletes only names it has listed,
and a write whose expected digest matches goes through a temp file or in place.
-/
namespace Detent.Guarantees
open Lib Source Source.Atomic
open Fallible (exec exec_bind_ok)

/-- The calls that write or list a backup directory. -/
def onBackups : {β : Type} → FileOp β → Bool
  | _, .createBackup _ | _, .fillBackup .. | _, .unlinkBackup _ | _, .backupNames _ | _, .fsync =>
    true
  | _, _ => false

/-- No call on a backup directory fails. -/
def BackupsWork (host : Host) : Prop :=
  ∀ (tick : Nat) {β : Type} (op : FileOp β), onBackups op = true → host.fault tick op = none

/-- No call fails. -/
def Works (host : Host) : Prop :=
  ∀ (tick : Nat) {β : Type} (op : FileOp β), host.fault tick op = none

theorem Works.backups {host : Host} (h : Works host) : BackupsWork host :=
  fun tick _ op _ => h tick op

variable {host : Host} {d d' : Disk}

theorem perform_refused {β : Type} {op : FileOp β} {kind : ErrorKind}
    (hfault : host.fault d.tick op = none)
    (heffect : op.effect host d.tick d.toFiles = .error kind) :
    op.perform host d = (.error kind, { d with tick := d.tick + 1 }) := by
  unfold FileOp.perform
  rw [hfault]
  dsimp only
  rw [heffect]

theorem exec_call_refused {β : Type} {label : String} {op : FileOp β} {kind : ErrorKind}
    (hfault : host.fault d.tick op = none)
    (heffect : op.effect host d.tick d.toFiles = .error kind) :
    exec (sys host) (call label op) d =
      (.error (.io label kind), { d with tick := d.tick + 1 }) := by
  rw [exec_call, perform_refused hfault heffect]

theorem exec_call_effect {β : Type} {label : String} {op : FileOp β} {value : β} {f : Files}
    (hfault : host.fault d.tick op = none)
    (heffect : op.effect host d.tick d.toFiles = .ok (value, f)) :
    exec (sys host) (call label op) d = (.ok value, { f with tick := d.tick + 1 }) := by
  rw [exec_call, perform_effect hfault heffect]

/-- One of the names `create_backup_file` tries at the time `now` is free. -/
def FreeName (dir : BackupDir) (short : String) (now : Nat) : Prop :=
  ∃ attempt, attempt < nameAttempts ∧
    ({ stamp := now + attempt, short } : BackupName) ∉ dir.names

theorem createBackupFile_works (hhost : BackupsWork host) {dir : Path} {short : String}
    {now first left : Nat}
    (hfree : ∃ attempt, first ≤ attempt ∧ attempt < first + left ∧
      ({ stamp := now + attempt, short } : BackupName) ∉ (d.backups dir).names) :
    ∃ name t, exec (sys host) (createBackupFile dir short now first left) d =
      (.ok name, t) := by
  induction left generalizing first d with
  | zero =>
    obtain ⟨attempt, hle, hlt, -⟩ := hfree
    omega
  | succ left ih =>
    unfold createBackupFile
    by_cases htaken : ({ stamp := now + first, short } : BackupName) ∈ (d.backups dir).names
    · -- the name is taken, so the call is refused and the loop goes on
      have heffect : (FileOp.createBackup { dir, name := { stamp := now + first, short } }).effect
          host d.tick d.toFiles = .error .alreadyExists := by
        simp only [FileOp.effect, BackupDir.create]
        rw [dif_pos htaken]
      rw [exec_bind_ok _ (exec_file (perform_refused (hhost d.tick _ rfl) heffect))]
      obtain ⟨attempt, hle, hlt, hname⟩ := hfree
      have hne : attempt ≠ first := by
        rintro rfl
        exact hname htaken
      exact ih (d := { d with tick := d.tick + 1 }) ⟨attempt, by omega, by omega, hname⟩
    · have heffect : ∃ f, (FileOp.createBackup { dir, name := { stamp := now + first, short } }).effect
          host d.tick d.toFiles = .ok ((), f) := by
        simp only [FileOp.effect, BackupDir.create]
        rw [dif_neg htaken]
        exact ⟨_, rfl⟩
      obtain ⟨f, heffect⟩ := heffect
      rw [exec_bind_ok _ (exec_file (perform_effect (hhost d.tick _ rfl) heffect))]
      exact ⟨_, _, rfl⟩

theorem writeBackup_works (hhost : BackupsWork host) {dir : Path} (contents : Bytes)
    {digest : Sha256Digest} {now : Nat} (hfree : FreeName (d.backups dir) digest.shortHex now) :
    ∃ backup t, exec (sys host) (writeBackup dir contents digest now) d =
      (.ok backup, t) := by
  obtain ⟨attempt, hlt, hname⟩ := hfree
  have hcreate : ∃ name t, exec (sys host)
      (createBackupFile dir digest.shortHex now 0 nameAttempts) d = (.ok name, t) :=
    createBackupFile_works hhost ⟨attempt, by omega, by omega, hname⟩
  obtain ⟨name, d₁, hcreate⟩ := hcreate
  unfold writeBackup
  rw [exec_bind_ok _ hcreate,
    exec_bind_ok _ (exec_file (perform_effect (hhost _ _ rfl) rfl)),
    exec_bind_ok _ (exec_call_effect (hhost _ _ rfl) rfl)]
  exact ⟨_, _, rfl⟩

theorem unlinkBackups_present (hhost : BackupsWork host) {dir : Path} {names : List BackupName}
    (hnodup : names.Nodup) (hpresent : ∀ name ∈ names, name ∈ (d.backups dir).names) :
    ∃ t, exec (sys host) (unlinkBackups dir names) d = (.ok (), t) := by
  induction names generalizing d with
  | nil => exact ⟨d, rfl⟩
  | cons name names ih =>
    obtain ⟨hnotin, hnodup⟩ := List.nodup_cons.mp hnodup
    have hfound := BackupDir.find_isSome.mpr (hpresent name List.mem_cons_self)
    obtain ⟨file, hfile⟩ := Option.isSome_iff_exists.mp hfound
    have heffect : (FileOp.unlinkBackup { dir, name }).effect host d.tick d.toFiles =
        .ok ((), d.toFiles.setBackups dir ((d.backups dir).unlink name)) := by
      simp only [FileOp.effect, Files.backup, hfile]
    unfold unlinkBackups
    rw [exec_bind_ok _ (exec_call_effect (hhost _ _ rfl) heffect)]
    refine ih hnodup (fun other hother => ?_)
    have hne : other ≠ name := by
      rintro rfl
      exact hnotin hother
    have hold := hpresent other (List.mem_cons_of_mem _ hother)
    simp only [Files.setBackups, Function.update_self, BackupDir.names, BackupDir.unlink] at hold ⊢
    obtain ⟨found, hmem, hname⟩ := List.mem_map.mp hold
    exact List.mem_map.mpr ⟨found, List.mem_filter.mpr ⟨hmem, by simpa [hname] using hne⟩, hname⟩

theorem rotateBackups_works (hhost : BackupsWork host) (dir : Path) (keep : Nat) (newest : BackupName)
    (d : Disk) : ∃ t, exec (sys host) (rotateBackups dir keep newest) d = (.ok (), t) := by
  unfold rotateBackups
  rw [exec_bind_ok _ (exec_call_effect (hhost _ _ rfl) rfl)]
  split
  · exact ⟨_, rfl⟩
  · have hsub : ∀ name ∈ (((d.backups dir).names.filter (· ≠ newest)).insertionSort
        BackupName.After).drop (keep - 1), name ∈ (d.backups dir).names := by
      intro name hname
      have hmem := (List.mem_insertionSort _).mp (List.mem_of_mem_drop hname)
      exact List.mem_of_mem_filter hmem
    have hnodup : (((d.backups dir).names.filter (· ≠ newest)).insertionSort
        BackupName.After).Nodup :=
      (List.perm_insertionSort _ _).nodup_iff.mpr ((d.backups dir).unique.filter _)
    obtain ⟨t, hunlink⟩ := unlinkBackups_present (d := { d with tick := d.tick + 1 }) hhost
      (hnodup.sublist (List.drop_sublist _ _)) hsub
    rw [exec_bind_ok _ hunlink, exec_call_effect (hhost _ _ rfl) rfl]
    exact ⟨_, rfl⟩

/-- The backup step of a write, when a name is free at the time it reads. -/
theorem backUp_works (hhost : BackupsWork host) (req : WriteRequest) (existing : Option Existing)
    (hfree : ∀ found, existing = some found → 0 < req.keepBackups →
      FreeName (d.backups req.backupDir) found.digest.shortHex (host.systemTime d.tick)) :
    ∃ backup t, exec (sys host) (backUp req existing) d = (.ok backup, t) := by
  cases existing with
  | none => exact ⟨none, d, rfl⟩
  | some found =>
    by_cases hkeep : 0 < req.keepBackups
    · have hname : FreeName (((sys host).apply .systemTime d).2.backups req.backupDir)
          found.digest.shortHex (host.systemTime d.tick) := hfree found rfl hkeep
      obtain ⟨backup, d₁, hwrite⟩ := writeBackup_works hhost found.contents hname
      obtain ⟨d₂, hrotate⟩ := rotateBackups_works hhost req.backupDir req.keepBackups backup.name d₁
      simp only [backUp, hkeep, if_true]
      rw [exec_bind_ok _ (Fallible.exec_perform _ _ _)]
      have hnow : ((sys host).apply .systemTime d).1 = host.systemTime d.tick := rfl
      rw [hnow, exec_bind_ok _ hwrite, exec_bind_ok _ hrotate]
      exact ⟨_, _, rfl⟩
    · simp only [backUp, hkeep, if_false]
      exact ⟨_, _, rfl⟩

variable {path : Path} {previous : Bytes} {req : WriteRequest}

theorem replaceContents_works (hhost : Works host) (contents : Bytes) (existing : Option Existing)
    (htemp : host.tempRefused path = false) :
    ∃ preserved t, exec (sys host) (replaceContents path contents existing) d =
      (.ok preserved, t) := by
  have heffect : (FileOp.createTemp path).effect host d.tick d.toFiles = .ok ((), d.toFiles) := by
    simp [FileOp.effect, htemp]
  unfold replaceContents
  rw [exec_bind_ok _ (exec_call_effect (hhost _ _) heffect),
    exec_bind_ok _ (exec_call_effect (hhost _ _) rfl),
    exec_bind_ok _ (exec_call_effect (hhost _ _) rfl),
    exec_bind_ok _ (exec_call_effect (hhost _ _) rfl)]
  exact ⟨_, _, rfl⟩

theorem replaceContents_refused (hhost : Works host) (contents : Bytes) (existing : Option Existing)
    (htemp : host.tempRefused path = true) :
    exec (sys host) (replaceContents path contents existing) d =
      (.error (.io "openat" .readOnlyFilesystem), { d with tick := d.tick + 1 }) := by
  have heffect : (FileOp.createTemp path).effect host d.tick d.toFiles =
      .error .readOnlyFilesystem := by
    simp [FileOp.effect, htemp]
  unfold replaceContents
  rw [Fallible.exec_bind_error _ (exec_call_refused (hhost _ _) heffect)]

theorem writeInPlace_works (hhost : Works host) (contents : Bytes)
    (hnode : d.node path = some (.file previous)) :
    ∃ t, exec (sys host) (writeInPlace path contents) d = (.ok (), t) := by
  have heffect : (FileOp.openTruncate path).effect host d.tick d.toFiles =
      .ok ((), d.toFiles.setNode path (.file [])) := by
    simp [FileOp.effect, hnode]
  unfold writeInPlace
  rw [exec_bind_ok _ (exec_call_effect (hhost _ _) heffect),
    exec_bind_ok _ (exec_call_effect (hhost _ _) rfl),
    exec_call_effect (hhost _ _) rfl]
  exact ⟨_, rfl⟩

theorem writeMarker_works (hhost : Works host) (record : InPlaceMarker) (hnone : d.inPlace = none) :
    ∃ t, exec (sys host) (writeMarker record) d = (.ok (), t) := by
  have heffect : FileOp.createInPlace.effect host d.tick d.toFiles =
      .ok ((), { d.toFiles with inPlace := some (.torn 0) }) := by
    simp [FileOp.effect, hnone]
  unfold writeMarker
  rw [exec_bind_ok _ (exec_call_effect (hhost _ _) heffect),
    exec_bind_ok _ (exec_call_effect (hhost _ _) rfl),
    exec_call_effect (hhost _ _) rfl]
  exact ⟨_, rfl⟩

theorem removeMarker_works (hhost : Works host) {marker : MarkerFile InPlaceMarker}
    (hmarker : d.inPlace = some marker) :
    ∃ t, exec (sys host) removeMarker d = (.ok (), t) := by
  have heffect : FileOp.unlinkInPlace.effect host d.tick d.toFiles =
      .ok ((), { d.toFiles with inPlace := none }) := by
    simp [FileOp.effect, hmarker]
  unfold removeMarker
  rw [exec_bind_ok _ (exec_call_effect (hhost _ _) heffect),
    exec_call_effect (hhost _ _) rfl]
  exact ⟨_, rfl⟩

variable [Sha256]

/-- The record of an in-place write. -/
def markerOf (req : WriteRequest) (found : Existing) (backup : BackupPath) : InPlaceMarker where
  path := req.path
  backup := some backup
  prev := found.digest
  new := Sha256.of req.contents

/-- An in-place write may go ahead: it is guarded by a marker already, or it can
write one of its own. -/
def MayWriteInPlace (req : WriteRequest) (backup : Option BackupPath) (f : Files) : Prop :=
  req.inPlace = .guarded ∨ req.inPlace = .marker ∧ backup.isSome ∧ f.inPlace = none

theorem installInPlace_works (hhost : Works host) {found : Existing} {backup : Option BackupPath}
    (err : AtomicError) (hnode : d.node req.path = some (.file previous))
    (hmay : MayWriteInPlace req backup d.toFiles) :
    ∃ preserved t, exec (sys host) (installInPlace req found backup err) d =
      (.ok preserved, t) := by
  unfold installInPlace
  rcases hmay with hguarded | ⟨hmarker, hbackup, hnone⟩
  · rw [hguarded]
    obtain ⟨d₁, hwrite⟩ := writeInPlace_works hhost req.contents hnode
    dsimp only
    rw [exec_bind_ok _ hwrite]
    exact ⟨_, _, rfl⟩
  · obtain ⟨backup, rfl⟩ := Option.isSome_iff_exists.mp hbackup
    rw [hmarker]
    dsimp only
    obtain ⟨d₁, hmark⟩ := writeMarker_works hhost (markerOf req found backup) hnone
    obtain ⟨-, hd₁⟩ := writeMarker_ok hmark
    have hnode₁ : d₁.node req.path = some (.file previous) := by
      rw [hd₁]
      exact hnode
    obtain ⟨d₂, hwrite⟩ := writeInPlace_works hhost req.contents hnode₁
    have hmarked : d₂.inPlace = some (.whole (markerOf req found backup)) := by
      rw [writeInPlace_ok hwrite, hd₁]
      rfl
    obtain ⟨d₃, hremove⟩ := removeMarker_works hhost hmarked
    have hattempt := Fallible.exec_attempt (sys host) (writeInPlace req.path req.contents) d₁
    rw [hwrite] at hattempt
    change ∃ preserved t, exec (sys host)
      (writeMarker (markerOf req found backup) >>= fun _ => _) d = (.ok preserved, t)
    rw [exec_bind_ok _ hmark, exec_bind_ok _ hattempt]
    dsimp only
    rw [exec_bind_ok _ hremove]
    exact ⟨_, _, rfl⟩

/-- The replacement of an existing file succeeds, through a temp file or in place. -/
theorem install_works (hhost : Works host) (found : Existing) {backup : Option BackupPath}
    (hnode : d.node req.path = some (.file previous))
    (hmay : host.tempRefused req.path = true → MayWriteInPlace req backup d.toFiles) :
    ∃ preserved t, exec (sys host) (install req (some found) backup) d =
      (.ok preserved, t) := by
  have hattempt := Fallible.exec_attempt (sys host)
    (replaceContents req.path req.contents (some found)) d
  unfold install
  cases htemp : host.tempRefused req.path with
  | false =>
    obtain ⟨preserved, d₁, hreplace⟩ :=
      replaceContents_works (d := d) hhost req.contents (some found) htemp
    rw [hreplace] at hattempt
    rw [exec_bind_ok _ hattempt]
    exact ⟨_, _, rfl⟩
  | true =>
    rw [replaceContents_refused hhost req.contents (some found) htemp] at hattempt
    rw [exec_bind_ok _ hattempt]
    exact installInPlace_works (d := { d with tick := d.tick + 1 }) hhost _ hnode (hmay htemp)

theorem readExisting_works (hhost : Works host) {contents : Bytes}
    (hnode : d.node path = some (.file contents)) :
    exec (sys host) (readExisting path) d =
      (.ok (some { contents, digest := Sha256.of contents }), { d with tick := d.tick + 1 }) := by
  have heffect : (FileOp.readNode path).effect host d.tick d.toFiles =
      .ok (some (.file contents), d.toFiles) := by
    simp [FileOp.effect, hnode]
  unfold readExisting
  rw [exec_bind_ok _ (exec_call_effect (hhost _ _) heffect)]
  rfl

/-- A write over an existing file succeeds when its expected digest is the one of
the file, a backup name is free and it may go in place where it has to. -/
theorem writeAtomic_works (hhost : Works host) (hnode : d.node req.path = some (.file previous))
    (hexpected : ∀ digest, req.expectedPrev = some digest → Sha256.of previous = digest)
    (hfree : 0 < req.keepBackups → FreeName (d.backups req.backupDir)
      (Sha256.of previous).shortHex (host.systemTime (d.tick + 1)))
    (hmay : host.tempRefused req.path = true → req.inPlace = .guarded ∨
      req.inPlace = .marker ∧ 0 < req.keepBackups ∧ d.inPlace = none) :
    ∃ outcome t, exec (sys host) (writeAtomic req) d = (.ok outcome, t) := by
  unfold writeAtomic
  rw [exec_bind_ok _ (readExisting_works hhost hnode)]
  have hcheck : exec (sys host) (checkExpected req.expectedPrev
      (some { contents := previous, digest := Sha256.of previous })) { d with tick := d.tick + 1 } =
        (.ok (), { d with tick := d.tick + 1 }) := by
    unfold checkExpected
    cases hprev : req.expectedPrev with
    | none => rfl
    | some digest => simp [hexpected digest hprev]
  rw [exec_bind_ok _ hcheck]
  obtain ⟨backup, d₁, hbackup⟩ := backUp_works (d := { d with tick := d.tick + 1 }) hhost.backups
    req (some { contents := previous, digest := Sha256.of previous }) (fun found hfound hkeep => by
      cases hfound
      exact hfree hkeep)
  rw [exec_bind_ok _ hbackup]
  have hconfined : Confined (· = .backups req.backupDir)
      (backUp req (some { contents := previous, digest := Sha256.of previous })) := by
    apply backUp_confined
    rfl
  have hkept := exec_agree hconfined hbackup
  have hnode₁ : d₁.node req.path = some (.file previous) := by
    rw [hkept.node _ (by simp)]
    exact hnode
  have hmay₁ : host.tempRefused req.path = true → MayWriteInPlace req backup d₁.toFiles := by
    intro htemp
    refine (hmay htemp).imp_right (fun ⟨hmarker, hkeep, hnone⟩ => ⟨hmarker, ?_, ?_⟩)
    · rcases backUp_ok hbackup with ⟨-, hwhy, -⟩ | ⟨contents, name, -, -, hsome, -⟩
      · rcases hwhy with hwhy | hwhy
        · cases hwhy
        · omega
      · rw [hsome]
        rfl
    · rw [hkept.inPlace (by simp)]
      exact hnone
  obtain ⟨preserved, d₂, hinstall⟩ := install_works hhost
    { contents := previous, digest := Sha256.of previous } hnode₁ hmay₁
  unfold installReporting
  rw [exec_bind_ok _ hinstall]
  exact ⟨_, _, rfl⟩

end Detent.Guarantees
