import Detent.Guarantees.Crashes
import Detent.Guarantees.Handlers
import Detent.Guarantees.Progress

/-!
# Crashes of an in-place write

An in-place write truncates the target, so a crash can leave it torn; the marker
names the backup that holds the previous contents. `recover_in_place` puts it back,
and takes a backup of the torn contents and rotates the directory before it does.
As long as the marker was written whole and the rotation of a recovery that
crashes again spares the marked backup, the target can be made whole at the next
start.
-/
namespace Detent.Guarantees.InPlaceRecovery
open Lib Source Source.Atomic Source.Monitor
open Fallible (Cut cut_bind cut_end cut_lift cut_pure cut_throw exec exec_bind_ok exec_lift
  uses_bind)

variable {host : Host} {d d' : Disk} {backup : BackupPath} {previous : Bytes}

section Writes

variable [Sha256] {req : WriteRequest} {before : Option Node}

/-- The target holds what stood there before the write, or the new contents. -/
def Whole (req : WriteRequest) (before : Option Node) (f : Files) : Prop :=
  f.node req.path = before ∨ f.node req.path = some (.file req.contents)

/-- The record of a write over `previous`. -/
def recordOf (req : WriteRequest) (previous : Bytes) (backup : BackupPath) : InPlaceMarker :=
  markerOf req { contents := previous, digest := Sha256.of previous } backup

/-- A write in progress that can still be settled: its marker is whole, and either
the target is or the backup holds what was there. -/
structure Recoverable (req : WriteRequest) (previous : Bytes) (backup : BackupPath) (f : Files) :
    Prop where
  marker : f.inPlace = some (.whole (recordOf req previous backup))
  dir : backup.dir = req.backupDir
  isFile : IsFile req.path f
  good : Whole req (some (.file previous)) f ∨ Holds backup previous f

/-- The target is whole and no write is in progress, or one that can be settled. -/
def Safe (req : WriteRequest) (before : Option Node) (f : Files) : Prop :=
  f.inPlace = none ∧ Whole req before f ∨
    ∃ previous backup, before = some (.file previous) ∧ Recoverable req previous backup f

/-- The marker file is there and its text is not whole. -/
def TornMarker (f : Files) : Prop := ∃ written, f.inPlace = some (.torn written)

omit [Sha256] in
theorem whole_setNode (f : Files) (before : Option Node) :
    Whole req before (f.setNode req.path (.file req.contents)) :=
  .inr (Function.update_self _ _ _)

/-- While the marker is being removed the target is whole. -/
theorem removeMarker_safe (hrecoverable : Recoverable req previous backup d.toFiles)
    (hwhole : Whole req (some (.file previous)) d.toFiles)
    (hcut : Cut (sys host) removeMarker d d') :
    Safe req (some (.file previous)) d'.toFiles := by
  rcases removeMarker_cut hcut with hsame | hgone
  · rw [hsame]
    exact .inr ⟨previous, backup, rfl, hrecoverable⟩
  · rw [hgone]
    exact .inl ⟨rfl, hwhole⟩

theorem installInPlace_cut {marked : Option BackupPath} {err : AtomicError}
    (hmode : req.inPlace ≠ .guarded) (hnone : d.inPlace = none)
    (hnode : d.node req.path = some (.file previous))
    (hbackup : ∀ backup, marked = some backup →
      backup.dir = req.backupDir ∧ Holds backup previous d.toFiles)
    (hcut : Cut (sys host) (installInPlace req
      { contents := previous, digest := Sha256.of previous } marked err) d d') :
    TornMarker d'.toFiles ∨ Safe req (some (.file previous)) d'.toFiles := by
  have hstart : Safe req (some (.file previous)) d.toFiles := .inl ⟨hnone, .inl hnode⟩
  unfold installInPlace at hcut
  split at hcut
  · rw [(cut_throw _ _ _ _).mp hcut]
    exact .inr hstart
  · split at hcut
    · rw [(cut_throw _ _ _ _).mp hcut]
      exact .inr hstart
    · rename_i backup
      obtain ⟨hdir, hholds⟩ := hbackup backup rfl
      have hmarked : Recoverable req previous backup
          { d.toFiles with inPlace := some (.whole (recordOf req previous backup)) } :=
        ⟨rfl, hdir, ⟨previous, hnode⟩, .inr hholds⟩
      rcases (cut_bind _ _ _ _ _).mp hcut with hcut | ⟨_, d₁, hmark, hcut⟩
      · rcases writeMarker_cut hcut with hsame | htorn | hwhole
        · rw [hsame]
          exact .inr hstart
        · exact .inl htorn
        · rw [hwhole]
          exact .inr (.inr ⟨previous, backup, rfl, hmarked⟩)
      obtain ⟨-, hd₁⟩ := writeMarker_ok hmark
      have h₁ : Recoverable req previous backup d₁.toFiles := by
        rw [hd₁]
        exact hmarked
      have hholds₁ : Holds backup previous d₁.toFiles := by
        rw [hd₁]
        exact hholds
      have hconfined : Confined (· = .node req.path) (writeInPlace req.path req.contents) := by
        apply writeInPlace_confined
        rfl
      -- wherever the write stops, the marker and the backup are as they were
      have hduring : ∀ t, Cut (sys host) (writeInPlace req.path req.contents) d₁ t →
          Recoverable req previous backup t.toFiles := by
        intro t ht
        have hagree := cut_agree hconfined ht
        exact ⟨(hagree.inPlace (by simp)).trans h₁.marker, hdir, cut_isFile h₁.isFile ht,
          .inr (hholds₁.of_agree hagree (by simp))⟩
      rcases (cut_bind _ _ _ _ _).mp hcut with hcut | ⟨result, d₂, hattempt, hcut⟩
      · exact .inr (.inr ⟨previous, backup, rfl, hduring d' ((Fallible.cut_attempt _ _ _ _).mp hcut)⟩)
      rw [Fallible.exec_attempt] at hattempt
      injection hattempt with hresult hd₂
      injection hresult with hresult
      have hwrite : exec (sys host) (writeInPlace req.path req.contents) d₁ =
          (result, d₂) := Prod.ext hresult hd₂
      have h₂ := hduring d₂ (cut_end _ hwrite)
      split at hcut
      · have hwhole : Whole req (some (.file previous)) d₂.toFiles := by
          rw [writeInPlace_ok hwrite]
          exact whole_setNode _ _
        rcases (cut_bind _ _ _ _ _).mp hcut with hcut | ⟨_, d₃, hremove, hcut⟩
        · exact .inr (removeMarker_safe h₂ hwhole hcut)
        · rw [(cut_pure _ _ _ _).mp hcut]
          exact .inr (removeMarker_safe h₂ hwhole (cut_end _ hremove))
      · have hwhole : Whole req (some (.file previous)) d₂.toFiles := by
          rw [writeInPlace_openat hwrite, hd₁]
          exact .inl hnode
        rcases (cut_bind _ _ _ _ _).mp hcut with hcut | ⟨_, d₃, hremove, hcut⟩
        · exact .inr (removeMarker_safe h₂ hwhole hcut)
        · rw [(cut_throw _ _ _ _).mp hcut]
          exact .inr (removeMarker_safe h₂ hwhole (cut_end _ hremove))
      · rw [(cut_throw _ _ _ _).mp hcut]
        exact .inr (.inr ⟨previous, backup, rfl, h₂⟩)
  · rename_i hguarded
    exact absurd hguarded hmode

theorem install_cut {existing : Option Existing} {marked : Option BackupPath}
    (hmode : req.inPlace ≠ .guarded) (hnone : d.inPlace = none)
    (hnode : d.node req.path = existing.map (fun found => .file found.contents))
    (hdigest : ∀ found, existing = some found → found.digest = Sha256.of found.contents)
    (hbackup : ∀ found backup, existing = some found → marked = some backup →
      backup.dir = req.backupDir ∧ Holds backup found.contents d.toFiles)
    (hcut : Cut (sys host) (install req existing marked) d d') :
    TornMarker d'.toFiles ∨ Safe req (d.node req.path) d'.toFiles := by
  have hreplaced : ∀ t, Cut (sys host) (replaceContents req.path req.contents existing) d t →
      Safe req (d.node req.path) t.toFiles := by
    intro t ht
    rcases replaceContents_cut ht with hsame | hset
    · rw [hsame]
      exact .inl ⟨hnone, .inl rfl⟩
    · rw [hset]
      exact .inl ⟨hnone, whole_setNode _ _⟩
  rcases (cut_bind _ _ _ _ _).mp hcut with hcut | ⟨result, d₁, hattempt, hcut⟩
  · exact .inr (hreplaced d' ((Fallible.cut_attempt _ _ _ _).mp hcut))
  rw [Fallible.exec_attempt] at hattempt
  injection hattempt with hresult hd₁
  injection hresult with hresult
  have hreplace : exec (sys host) (replaceContents req.path req.contents existing) d =
      (result, d₁) := Prod.ext hresult hd₁
  have h₁ := hreplaced d₁ (cut_end _ hreplace)
  match result, existing with
  | .ok _, _ =>
    rw [(cut_pure _ _ _ _).mp hcut]
    exact .inr h₁
  | .error err, none =>
    rw [(cut_throw _ _ _ _).mp hcut]
    exact .inr h₁
  | .error err, some found =>
    dsimp only at hcut
    split at hcut
    · rename_i hrefused
      -- a refused temp file is an error of `openat`, before the rename
      rcases replaceContents_error hreplace with hsame | ⟨-, kind, rfl⟩
      · obtain ⟨previous, digest⟩ := found
        have hof : digest = Sha256.of previous := hdigest _ rfl
        subst hof
        rw [hnode]
        refine installInPlace_cut hmode ?_ ?_ ?_ hcut
        · rw [hsame]
          exact hnone
        · rw [hsame]
          exact hnode
        · rw [hsame]
          intro backup hmarked
          exact hbackup _ backup rfl hmarked
      · simp [tempRefused] at hrefused
    · rw [(cut_throw _ _ _ _).mp hcut]
      exact .inr h₁

/-- A crash of a write leaves a torn marker, or the target can be made whole. -/
theorem writeAtomic_cut (hmode : req.inPlace ≠ .guarded) (hnone : d.inPlace = none)
    (hcut : Cut (sys host) (writeAtomic req) d d') :
    TornMarker d'.toFiles ∨ Safe req (d.node req.path) d'.toFiles := by
  have hsafe : ∀ t : Disk, t.inPlace = d.inPlace → t.node req.path = d.node req.path →
      Safe req (d.node req.path) t.toFiles :=
    fun t hinPlace hnode => .inl ⟨hinPlace.trans hnone, .inl hnode⟩
  rcases (cut_bind _ _ _ _ _).mp hcut with hcut | ⟨existing, d₁, hread, hcut⟩
  · have hsame := cut_reads (readExisting_confined _) hcut
    exact .inr (hsafe d' (by rw [hsame]) (by rw [hsame]))
  obtain ⟨hnode, hdigest, hd₁⟩ := readExisting_ok hread
  rcases (cut_bind _ _ _ _ _).mp hcut with hcut | ⟨_, d₂, hcheck, hcut⟩
  · have hsame := (cut_reads (checkExpected_confined _ _) hcut).trans hd₁
    exact .inr (hsafe d' (by rw [hsame]) (by rw [hsame]))
  have hd₂ := (exec_reads (checkExpected_confined _ _) hcheck).trans hd₁
  have hconfined : Confined (· = .backups req.backupDir) (backUp req existing) := by
    apply backUp_confined
    rfl
  rcases (cut_bind _ _ _ _ _).mp hcut with hcut | ⟨marked, d₃, hbackup, hcut⟩
  · have hagree := cut_agree hconfined hcut
    refine .inr (hsafe d' ?_ ?_)
    · rw [hagree.inPlace (by simp), hd₂]
    · rw [hagree.node _ (by simp), hd₂]
  have hagree := exec_agree hconfined hbackup
  have hinPlace₃ : d₃.inPlace = none := by
    rw [hagree.inPlace (by simp), hd₂]
    exact hnone
  have hnode₃ : d₃.node req.path = d.node req.path := by
    rw [hagree.node _ (by simp), hd₂]
  have hinstall : ∀ t, Cut (sys host) (install req existing marked) d₃ t →
      TornMarker t.toFiles ∨ Safe req (d.node req.path) t.toFiles := by
    intro t ht
    rw [← hnode₃]
    refine install_cut hmode hinPlace₃ (hnode₃.trans hnode) hdigest ?_ ht
    rintro found backup rfl rfl
    exact (backUp_ok hbackup).holds
  rcases (cut_bind _ _ _ _ _).mp hcut with hcut | ⟨_, d₄, hdone, hcut⟩
  · exact hinstall d' hcut
  · rw [(cut_pure _ _ _ _).mp hcut]
    exact hinstall d₄ (cut_end _ hdone)

end Writes

section Recovery

variable [Sha256] {m : Setup} {req : WriteRequest} {before : Option Node}

/-- The write is one of an allow-listed file, with the backup directory of that
file, and not itself part of a recovery. -/
structure OfTarget (m : Setup) (req : WriteRequest) : Prop where
  mode : req.inPlace ≠ .guarded
  listed : ∃ entry ∈ m.allow.targets.entries, entry.path = req.path ∧ entry.kind = .file ∧
    entry.backupDir = req.backupDir

/-- The marked backup has at most 18 others above it. -/
def Shallow (f : Files) : Prop :=
  ∀ record backup, f.inPlace = some (.whole record) → record.backup = some backup →
    above backup.name (f.backups backup.dir).names + 2 ≤ defaultKeepBackups

/-- A restore with a marker in place writes only the target and the backups. -/
theorem restore_guarded_confined (backup : BackupPath) (target : Path) :
    Confined (fun part => part = .node target ∨ part = .backups backup.dir)
      (restoreBackupWith backup target none .guarded) := by
  refine uses_bind (call_confined (.inl rfl)) (fun file => ?_)
  refine uses_bind (readExisting_confined _) (fun existing => ?_)
  refine uses_bind (checkExpected_confined _ _) (fun _ => ?_)
  refine uses_bind (backUp_confined (.inr rfl) _) (fun taken => ?_)
  refine uses_bind ?_ (fun _ => trivial)
  refine uses_bind
    (Fallible.uses_attempt (replaceContents_confined (.inl rfl) _ _)) (fun result => ?_)
  match result, existing with
  | .ok preserved, _ => trivial
  | .error err, none => trivial
  | .error err, some found =>
    dsimp only
    split
    · exact uses_bind (writeInPlace_confined (.inl rfl) _) (fun _ => trivial)
    · trivial

theorem readWithDigest_works (hhost : Works host) {path : Path} {bytes : Bytes}
    (hnode : d.node path = some (.file bytes)) :
    exec (sys host) (readWithDigest path) d =
      (.ok (bytes, Sha256.of bytes), { d with tick := d.tick + 1 }) := by
  unfold readWithDigest
  rw [exec_bind_ok _ (readExisting_works hhost hnode)]
  rfl

theorem markedTarget_recordOf (hreq : OfTarget m req) (hdir : backup.dir = req.backupDir) :
    ∃ entry, markedTarget m (recordOf req previous backup) = some entry := by
  obtain ⟨entry, hmem, hpath, hkind, hbackup⟩ := hreq.listed
  rw [← Option.isSome_iff_exists]
  unfold markedTarget
  rw [List.find?_isSome]
  refine ⟨entry, hmem, ?_⟩
  simp [recordOf, markerOf, hpath, hkind, hbackup, hdir]

/-- What a recovery finds at the marked target: it is whole, or it holds something
else and the backup is good. -/
theorem Recoverable.found (hinj : Function.Injective (Sha256.of)) {bytes : Bytes} {f : Files}
    (h : Recoverable req previous backup f) (hnode : f.node req.path = some (.file bytes)) :
    (some (Sha256.of bytes) = some (recordOf req previous backup).new ∨
      some (Sha256.of bytes) = some (recordOf req previous backup).prev) ∧
        Whole req (some (.file previous)) f ∨
    ¬ (some (Sha256.of bytes) = some (recordOf req previous backup).new ∨
      some (Sha256.of bytes) = some (recordOf req previous backup).prev) ∧
        Holds backup previous f := by
  have hsame : ∀ other, some (Sha256.of bytes) = some (Sha256.of other) ↔ bytes = other := by
    intro other
    rw [Option.some.injEq]
    exact hinj.eq_iff
  unfold recordOf markerOf
  rw [hsame, hsame]
  by_cases hwhole : bytes = req.contents ∨ bytes = previous
  · refine .inl ⟨hwhole, ?_⟩
    rcases hwhole with rfl | rfl
    · exact .inr hnode
    · exact .inl hnode
  · refine .inr ⟨hwhole, ?_⟩
    rcases h.good with hgood | hgood
    · refine absurd ?_ hwhole
      rcases hgood with hgood | hgood <;> rw [hnode] at hgood <;> cases hgood
      · exact .inr rfl
      · exact .inl rfl
    · exact hgood

omit [Sha256] in
theorem removeInPlace_cut (hcut : Cut (sys host) removeInPlace d d') :
    Cut (sys host) removeMarker d d' := by
  rcases (cut_bind _ _ _ _ _).mp hcut with hcut | ⟨r, t, hremove, hcut⟩
  · exact (cut_lift _ _ _ _).mp hcut
  · rw [exec_lift] at hremove
    injection hremove with _ ht
    have hd' : d' = t := by cases r <;> exact hcut
    rw [hd', ← ht]
    exact Prog.cut_end _ _ _

omit [Sha256] in
theorem removeInPlace_works (hhost : Works host) {marker : MarkerFile InPlaceMarker}
    (hmarker : d.inPlace = some marker) :
    ∃ t, exec (sys host) removeInPlace d = (.ok (), t) ∧
      t.toFiles = { d.toFiles with inPlace := none } := by
  obtain ⟨t, hremove⟩ := removeMarker_works hhost hmarker
  refine ⟨t, ?_, removeMarker_ok hremove⟩
  have hlift : exec (sys host) (ExceptT.lift removeMarker.run : RecoverM _) d =
      (.ok (.ok ()), t) := by
    rw [exec_lift, show removeMarker.run.run (sys host) d = (.ok (), t) from hremove]
  unfold removeInPlace
  rw [exec_bind_ok _ hlift]
  rfl

/-- What stays as it is while the marked backup is restored. -/
theorem restore_recoverable
    (hdeep : above backup.name (d.backups backup.dir).names + 2 ≤ defaultKeepBackups)
    (h : Recoverable req previous backup d.toFiles) (hholds : Holds backup previous d.toFiles)
    (hcut : Cut (sys host) (restoreBackupWith backup req.path none .guarded) d d') :
    Recoverable req previous backup d'.toFiles where
  marker := by
    have hagree := cut_agree (restore_guarded_confined backup req.path) hcut
    exact (hagree.inPlace (by simp)).trans h.marker
  dir := h.dir
  isFile := cut_isFile h.isFile hcut
  good := .inr (restoreBackupWith_cut_holds (fun _ _ => hdeep) hholds hcut)

/-- A restore of the marked backup that ends leaves the target whole. -/
theorem restore_whole (req : WriteRequest) {outcome : WriteOutcome}
    (hholds : Holds backup previous d.toFiles)
    (h : exec (sys host) (restoreBackupWith backup req.path none .guarded) d =
      (.ok outcome, d')) :
    Whole req (some (.file previous)) d'.toFiles ∧ d'.inPlace = d.inPlace := by
  obtain ⟨file, found, hfile, hwrote⟩ := restoreBackupWith_ok h
  obtain ⟨held, hheld, hcontents⟩ := hholds
  have hsame : file = held := Option.some.inj (hfile.symm.trans hheld)
  subst hsame
  refine ⟨.inl ?_, hwrote.inPlace⟩
  rw [hwrote.written, ← hcontents]
  exact Function.update_self _ _ _

theorem settleInPlace_cut (hhost : Works host) (hinj : Function.Injective Sha256.of)
    (hdeep : above backup.name (d.backups backup.dir).names + 2 ≤ defaultKeepBackups)
    (h : Recoverable req previous backup d.toFiles)
    (hcut : Cut (sys host) (settleInPlace (recordOf req previous backup) backup) d d') :
    Safe req (some (.file previous)) d'.toFiles := by
  obtain ⟨bytes, hnode⟩ := h.isFile
  have hread : (readWithDigest req.path).run.run (sys host) d =
      (.ok (bytes, Sha256.of bytes), { d with tick := d.tick + 1 }) :=
    readWithDigest_works hhost hnode
  rcases (cut_bind _ _ _ _ _).mp hcut with hcut | ⟨found, d₁, hfound, hcut⟩
  · rw [cut_reads (lift_confined (readWithDigest_confined _)) hcut]
    exact .inr ⟨previous, backup, rfl, h⟩
  rw [exec_lift, show (readWithDigest (recordOf req previous backup).path).run.run
    (sys host) d = _ from hread] at hfound
  cases hfound
  have h₁ : Recoverable req previous backup ({ d with tick := d.tick + 1 } : Disk).toFiles := h
  dsimp only at hcut
  split at hcut
  · rename_i hmatch
    have hwhole : Whole req (some (.file previous)) d.toFiles := by
      rcases h.found hinj hnode with ⟨-, hwhole⟩ | ⟨hdiffers, -⟩
      · exact hwhole
      · exact absurd (by simpa [Except.toOption] using hmatch) hdiffers
    rcases (cut_bind _ _ _ _ _).mp hcut with hcut | ⟨_, d₂, hremove, hcut⟩
    · exact removeMarker_safe h₁ hwhole (removeInPlace_cut hcut)
    · rw [(cut_pure _ _ _ _).mp hcut]
      exact removeMarker_safe h₁ hwhole (removeInPlace_cut (cut_end _ hremove))
  · rename_i hdiffers
    have hholds : Holds backup previous d.toFiles := by
      rcases h.found hinj hnode with ⟨hmatch, -⟩ | ⟨-, hholds⟩
      · exact absurd (by simpa [Except.toOption] using hmatch) hdiffers
      · exact hholds
    have hduring : ∀ t, Cut (sys host) (restoreBackupWith backup req.path none .guarded)
        { d with tick := d.tick + 1 } t → Recoverable req previous backup t.toFiles :=
      fun t ht => restore_recoverable (d := { d with tick := d.tick + 1 }) hdeep h₁ hholds ht
    rcases (cut_bind _ _ _ _ _).mp hcut with hcut | ⟨r, d₂, hrestore, hcut⟩
    · exact .inr ⟨previous, backup, rfl, hduring d' ((cut_lift _ _ _ _).mp hcut)⟩
    rw [exec_lift] at hrestore
    injection hrestore with hresult hd₂
    injection hresult with hresult
    have hrun : exec (sys host) (restoreBackupWith backup req.path none .guarded)
        { d with tick := d.tick + 1 } = (r, d₂) := Prod.ext hresult hd₂
    have h₂ := hduring d₂ (cut_end _ hrun)
    cases r with
    | error err =>
      rw [(cut_pure _ _ _ _).mp hcut]
      exact .inr ⟨previous, backup, rfl, h₂⟩
    | ok outcome =>
      obtain ⟨hwhole, -⟩ := restore_whole req (d := { d with tick := d.tick + 1 })
        hholds hrun
      rcases (cut_bind _ _ _ _ _).mp hcut with hcut | ⟨_, d₃, hremove, hcut⟩
      · exact removeMarker_safe h₂ hwhole (removeInPlace_cut hcut)
      · rw [(cut_pure _ _ _ _).mp hcut]
        exact removeMarker_safe h₂ hwhole (removeInPlace_cut (cut_end _ hremove))

/-- A recovery that crashes leaves a state the next recovery can settle. -/
theorem recoverInPlace_cut (hhost : Works host) (hinj : Function.Injective Sha256.of)
    (hreq : OfTarget m req) (hshallow : Shallow d.toFiles) (h : Safe req before d.toFiles)
    (hcut : Cut (sys host) (recoverInPlace m) d d') : Safe req before d'.toFiles := by
  rcases (cut_bind _ _ _ _ _).mp hcut with hcut | ⟨found, d₁, hread, hcut⟩
  · rw [cut_reads (stateCall_confined (.inl rfl)) hcut]
    exact h
  have hd₁ := exec_reads (stateCall_confined (.inl rfl)) hread
  obtain ⟨heffect, -⟩ := stateCall_ok hread
  injection heffect with heffect
  injection heffect with hfound _
  subst hfound
  rcases h with ⟨hnone, hwhole⟩ | ⟨previous, backup, rfl, hrecoverable⟩
  · rw [hnone] at hcut
    rw [(cut_pure _ _ _ _).mp hcut, hd₁]
    exact .inl ⟨hnone, hwhole⟩
  · obtain ⟨entry, hentry⟩ := markedTarget_recordOf hreq hrecoverable.dir
    have hbackup : (recordOf req previous backup).backup = some backup := rfl
    have hdeep := hshallow _ backup hrecoverable.marker hbackup
    rw [hrecoverable.marker] at hcut
    dsimp only at hcut
    rw [hentry, hbackup] at hcut
    dsimp only at hcut
    have h₁ : Recoverable req previous backup d₁.toFiles := by
      rw [hd₁]
      exact hrecoverable
    have hdeep₁ : above backup.name (d₁.backups backup.dir).names + 2 ≤ defaultKeepBackups := by
      rw [hd₁]
      exact hdeep
    rcases (cut_bind _ _ _ _ _).mp hcut with hcut | ⟨_, d₂, hsettle, hcut⟩
    · exact settleInPlace_cut hhost hinj hdeep₁ h₁ hcut
    · rw [(cut_pure _ _ _ _).mp hcut]
      exact settleInPlace_cut hhost hinj hdeep₁ h₁ (cut_end _ hsettle)

/-- Whatever the time, a backup of what stands at `path` finds a free name. -/
def NameFree (host : Host) (path dir : Path) (d : Disk) : Prop :=
  ∀ bytes tick, d.node path = some (.file bytes) → d.tick ≤ tick →
    FreeName (d.backups dir) (Sha256.of bytes).shortHex (host.systemTime tick)

theorem restore_guarded_works (hhost : Works host) {target : Path} (hfile : IsFile target d.toFiles)
    (hholds : Holds backup previous d.toFiles) (hfree : NameFree host target backup.dir d) :
    ∃ outcome t, exec (sys host) (restoreBackupWith backup target none .guarded) d =
      (.ok outcome, t) := by
  obtain ⟨bytes, hnode⟩ := hfile
  obtain ⟨held, hheld, -⟩ := hholds
  have heffect : (FileOp.readBackup backup).effect host d.tick d.toFiles = .ok (held, d.toFiles) := by
    simp only [FileOp.effect, hheld]
  unfold restoreBackupWith
  rw [exec_bind_ok _ (exec_call_effect (hhost _ _) heffect)]
  refine writeAtomic_works (d := { d with tick := d.tick + 1 }) hhost hnode
    ?_ ?_ ?_
  · intro digest hdigest
    cases hdigest
  · intro _
    exact hfree bytes _ hnode (by simp only; omega)
  · intro _
    exact .inl rfl

theorem settleInPlace_settles (hhost : Works host) (hinj : Function.Injective Sha256.of)
    (hfree : NameFree host req.path backup.dir d) (h : Recoverable req previous backup d.toFiles) :
    ∃ outcome t, exec (sys host) (settleInPlace (recordOf req previous backup) backup) d =
      (.ok outcome, t) ∧ t.inPlace = none ∧ Whole req (some (.file previous)) t.toFiles := by
  obtain ⟨bytes, hnode⟩ := h.isFile
  have hread : exec (sys host) (ExceptT.lift
      (readWithDigest (recordOf req previous backup).path).run : RecoverM _) d =
        (.ok (.ok (bytes, Sha256.of bytes)), { d with tick := d.tick + 1 }) := by
    rw [exec_lift, show (readWithDigest (recordOf req previous backup).path).run.run
      (sys host) d = _ from readWithDigest_works hhost hnode]
  unfold settleInPlace
  rw [exec_bind_ok _ hread]
  dsimp only
  split
  · rename_i hmatch
    have hwhole : Whole req (some (.file previous)) d.toFiles := by
      rcases h.found hinj hnode with ⟨-, hwhole⟩ | ⟨hdiffers, -⟩
      · exact hwhole
      · exact absurd (by simpa [Except.toOption] using hmatch) hdiffers
    obtain ⟨t, hremove, ht⟩ :=
      removeInPlace_works (d := { d with tick := d.tick + 1 }) hhost h.marker
    rw [exec_bind_ok _ hremove]
    refine ⟨_, t, rfl, ?_, ?_⟩
    · rw [ht]
    · rw [ht]
      exact hwhole
  · rename_i hdiffers
    have hholds : Holds backup previous d.toFiles := by
      rcases h.found hinj hnode with ⟨hmatch, -⟩ | ⟨-, hholds⟩
      · exact absurd (by simpa [Except.toOption] using hmatch) hdiffers
      · exact hholds
    have hfree₁ : NameFree host req.path backup.dir { d with tick := d.tick + 1 } :=
      fun bytes tick hbytes htick => hfree bytes tick hbytes (by simp only at htick; omega)
    obtain ⟨outcome, d₁, hrestore⟩ := restore_guarded_works (d := { d with tick := d.tick + 1 })
      hhost h.isFile hholds hfree₁
    obtain ⟨hwhole, hmarker⟩ := restore_whole req (d := { d with tick := d.tick + 1 })
      hholds hrestore
    obtain ⟨t, hremove, ht⟩ := removeInPlace_works hhost (hmarker.trans h.marker)
    have hlift : exec (sys host) (ExceptT.lift (restoreBackupWith backup
        (recordOf req previous backup).path none .guarded).run : RecoverM _)
          { d with tick := d.tick + 1 } = (.ok (.ok outcome), d₁) := by
      rw [exec_lift, show (restoreBackupWith backup
        (recordOf req previous backup).path none .guarded).run.run (sys host)
          { d with tick := d.tick + 1 } = _ from hrestore]
    rw [exec_bind_ok _ hlift]
    dsimp only
    rw [exec_bind_ok _ hremove]
    refine ⟨_, t, rfl, ?_, ?_⟩
    · rw [ht]
    · rw [ht]
      exact hwhole

/-- A recovery that runs to its end settles the write. -/
theorem recoverInPlace_settles (hhost : Works host) (hinj : Function.Injective Sha256.of)
    (hreq : OfTarget m req) (hfree : NameFree host req.path req.backupDir d)
    (h : Safe req before d.toFiles) :
    ∃ outcome t, exec (sys host) (recoverInPlace m) d = (.ok outcome, t) ∧
      t.inPlace = none ∧ Whole req before t.toFiles := by
  have hread : exec (sys host) (stateCall "read" .readInPlace) d =
      (.ok d.inPlace, { d with tick := d.tick + 1 }) := by
    have hperform : FileOp.readInPlace.perform host d =
        (.ok d.inPlace, { d with tick := d.tick + 1 }) := perform_effect (hhost _ _) rfl
    rw [exec_stateCall, hperform]
  unfold recoverInPlace
  rw [exec_bind_ok _ hread]
  rcases h with ⟨hnone, hwhole⟩ | ⟨previous, backup, rfl, hrecoverable⟩
  · rw [hnone]
    exact ⟨_, _, rfl, hnone, hwhole⟩
  · obtain ⟨entry, hentry⟩ := markedTarget_recordOf hreq hrecoverable.dir
    have hbackup : (recordOf req previous backup).backup = some backup := rfl
    have hfree₁ : NameFree host req.path backup.dir { d with tick := d.tick + 1 } := by
      rw [hrecoverable.dir]
      exact fun bytes tick hbytes htick => hfree bytes tick hbytes (by simp only at htick; omega)
    obtain ⟨outcome, t, hsettle, hsettled⟩ :=
      settleInPlace_settles (d := { d with tick := d.tick + 1 }) hhost hinj hfree₁ hrecoverable
    rw [hrecoverable.marker]
    dsimp only
    rw [hentry, hbackup]
    dsimp only
    rw [exec_bind_ok _ hsettle]
    exact ⟨_, t, rfl, hsettled⟩

variable (host m) in
/-- A start of the monitor that crashes while it recovers an in-place write. -/
def CrashedRecovery (d : Disk) (_ : Unit) (d' : Disk) : Prop :=
  Cut (sys host) (recoverInPlace m) d d'

/-- A write of a file that crashes anywhere but inside its marker, and then any
number of recoveries that crash while the marked backup is not too deep: the next
recovery that runs to its end leaves the target whole and no marker. -/
theorem in_place_write_recovered {d d₁ d₂ : Disk} {starts : List Unit} (hhost : Works host)
    (hinj : Function.Injective Sha256.of) (hreq : OfTarget m req) (hnone : d.inPlace = none)
    (hcrash : Fallible.Cut (sys host) (writeAtomic req) d d₁) (hmarker : ¬ TornMarker d₁.toFiles)
    (hstarts : Run (Guarded (fun d _ => Shallow d.toFiles) (CrashedRecovery host m)) d₁ starts d₂)
    (hfree : NameFree host req.path req.backupDir d₂) :
    ∃ outcome d₃, Fallible.exec (sys host) (recoverInPlace m) d₂ = (.ok outcome, d₃) ∧
      d₃.inPlace = none ∧ (d₃.node req.path = d.node req.path ∨
        d₃.node req.path = some (.file req.contents)) := by
  have h₁ : Safe req (d.node req.path) d₁.toFiles :=
    (writeAtomic_cut hreq.mode hnone hcrash).resolve_left hmarker
  have h₂ : Safe req (d.node req.path) d₂.toFiles :=
    hstarts.invariant (I := fun t => Safe req (d.node req.path) t.toFiles)
      (fun _ _ _ hsafe hstep => recoverInPlace_cut hhost hinj hreq hstep.1 hsafe hstep.2) h₁
  exact recoverInPlace_settles hhost hinj hreq hfree h₂

end Recovery

section Runs

attribute [local instance] Sample.sha256

/-- Directories that refuse a temp file, so that every write goes in place. -/
def readOnlyHost : Host := { Sample.host with tempRefused := fun _ => true }

/-- Write `b` to the file. -/
def request : WriteRequest where
  path := Sample.path
  contents := [98]
  expectedPrev := none
  backupDir := Sample.backupDir
  keepBackups := 20
  inPlace := .marker

/-- A write from `d` that crashed after `count` effects. -/
def writeAfter (d : Disk) (count : Nat) : Disk :=
  (writeAtomic request).run.after (sys readOnlyHost) count d

/-- A recovery from `d` that crashed after `count` effects. -/
def recoveryAfter (d : Disk) (count : Nat) : Disk :=
  (recoverInPlace (Sample.setup 20)).run.after (sys readOnlyHost) count d

/-- What the next recovery from `d` returns, and the disk after it. -/
def recovered (d : Disk) : Except MonitorError (Option InPlaceRecovered) × Disk :=
  exec (sys readOnlyHost) (recoverInPlace (Sample.setup 20)) d

/-- The write over `a` crashed after the target was truncated. -/
def truncated : Disk := writeAfter (Sample.disk [97]) 11

/-- The recovery crashed after it had truncated the target again. -/
def again : Disk := recoveryAfter truncated 11

theorem request_ofTarget : OfTarget (Sample.setup 20) request where
  mode := by decide
  listed := ⟨{ id := ⟨0⟩, module := ⟨0⟩, path := Sample.path, kind := .file
               backupDir := Sample.backupDir }, List.mem_singleton_self _, rfl, rfl, rfl⟩

/-- The marker of the write over `a`. -/
def record : InPlaceMarker where
  path := Sample.path
  backup := some { dir := Sample.backupDir, name := { stamp := 1, short := "ca978112" } }
  prev := Sha256.of [97]
  new := Sha256.of [98]

theorem truncated_marker : truncated.inPlace = some (.whole record) := by decide

theorem truncated_shallow : Shallow truncated.toFiles := by
  intro found backup hfound hbackup
  rw [truncated_marker] at hfound
  cases hfound
  cases hbackup
  decide

theorem again_nameFree : NameFree readOnlyHost request.path request.backupDir again := by
  intro bytes tick _ htick
  have hnames : (again.backups request.backupDir).names =
      [{ stamp := 1, short := "ca978112" }, { stamp := 15, short := "e3b0c442" }] := by
    decide
  have hnow : again.tick = 22 := by decide
  refine ⟨0, by decide, ?_⟩
  rw [hnames]
  have hstamp : readOnlyHost.systemTime tick = tick := rfl
  simp only [List.mem_cons, List.not_mem_nil, BackupName.mk.injEq, hstamp]
  rintro (⟨hold, -⟩ | ⟨hold, -⟩ | hold)
  · omega
  · omega
  · exact hold

/-- A write and a recovery that both crashed with the target truncated. -/
theorem truncated_recovered :
    again.node Sample.path = some (.file []) ∧
    ∃ outcome d, recovered again = (.ok outcome, d) ∧ d.inPlace = none ∧
      (d.node Sample.path = some (.file [97]) ∨ d.node Sample.path = some (.file [98])) := by
  have hmarker : ¬ TornMarker truncated.toFiles := by
    rintro ⟨written, htorn⟩
    rw [truncated_marker] at htorn
    cases htorn
  have hstarts : Run (Guarded (fun d _ => Shallow d.toFiles)
      (CrashedRecovery readOnlyHost (Sample.setup 20))) truncated [()] again :=
    Run.cons ⟨truncated_shallow, Prog.cut_after _ _ _ _⟩ (Run.nil _)
  exact ⟨by decide, in_place_write_recovered (fun _ _ _ => rfl) Sample.of_injective
    request_ofTarget rfl (Prog.cut_after _ _ _ _) hmarker hstarts again_nameFree⟩

/-- Nineteen backups with later names. -/
def crowded : Disk :=
  { Sample.disk [97] with
    backups := fun _ =>
      { files := (List.range 19).map (fun i =>
          { name := { stamp := 1000 + i, short := "ca978112" }, contents := [99], modified := 0 })
        unique := by decide } }

/-- A crash after the marker is created and before it is written stops every
later recovery; one more crash, of a recovery that has rotated a crowded directory,
loses the only copy of the previous contents. -/
theorem torn_marker_and_lost_backup :
    (Fallible.Cut (sys readOnlyHost) (writeAtomic request) (Sample.disk [97])
        (writeAfter (Sample.disk [97]) 8) ∧
      (recovered (writeAfter (Sample.disk [97]) 8)).1 = .error .corruptMarker) ∧
    Fallible.Cut (sys readOnlyHost) (writeAtomic request) crowded (writeAfter crowded 11) ∧
      CrashedRecovery readOnlyHost (Sample.setup 20) (writeAfter crowded 11) ()
        (recoveryAfter (writeAfter crowded 11) 10) ∧
      (recovered (recoveryAfter (writeAfter crowded 11) 10)).2.node Sample.path = some (.file []) ∧
      (recovered (recoveryAfter (writeAfter crowded 11) 10)).2.inPlace.isSome := by
  refine ⟨⟨Prog.cut_after _ _ _ _, by decide⟩, Prog.cut_after _ _ _ _,
    Prog.cut_after _ _ _ _, by decide, by decide⟩

end Runs

end Detent.Guarantees.InPlaceRecovery
