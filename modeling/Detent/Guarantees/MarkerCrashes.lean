import Detent.Guarantees.InPlaceRecovery

/-!
# Crashes inside the write of the pending-commit marker

`write_marker` truncates the marker and writes the record over it. A crash before
the open leaves the old marker, one after the last byte the new one, and any other
crash a prefix that `recover_pending` refuses: the monitor then does not start.
The next start may be of another build, on another host.
-/
namespace Detent.Guarantees.MarkerCrashes
open Lib Source Source.Monitor
open Fallible (Ends.bind ends_pure exec exec_bind)

/-- Where a crash inside `write_marker` falls. -/
inductive CrashPoint where
  | beforeOpen
  | inside (written : Nat)
  | complete
  deriving DecidableEq, Repr

/-- The files a crash leaves. -/
def CrashPoint.leaves (record : PendingCommitMarker) (f : Files) : CrashPoint → Files
  | .beforeOpen => f
  | .inside written => { f with pending := some (.torn written) }
  | .complete => { f with pending := some (.whole record) }

section Crash

variable {host : Host} {record : PendingCommitMarker}

/-- The files are those of some crash. -/
def Left (record : PendingCommitMarker) (f f' : Files) : Prop :=
  ∃ point : CrashPoint, f' = point.leaves record f

/-- The calls of `write_marker`. -/
inductive MarkerCall (record : PendingCommitMarker) : (β : Type) → SysOp β → Prop
  | opens : MarkerCall record _ (.file .openPending)
  | fills : MarkerCall record _ (.file (.fillPending record))
  | syncs : MarkerCall record _ (.file .fsync)

theorem Left.torn {f f' : Files} (h : Left record f f') (written : Nat) :
    Left record f { f' with pending := some (.torn written) } := by
  obtain ⟨point, rfl⟩ := h
  refine ⟨.inside written, ?_⟩
  cases point <;> rfl

theorem Left.whole {f f' : Files} (h : Left record f f') :
    Left record f { f' with pending := some (.whole record) } := by
  obtain ⟨point, rfl⟩ := h
  refine ⟨.complete, ?_⟩
  cases point <;> rfl

theorem apply_left {f : Files} {β : Type} {e : SysOp β} {d : Disk} (he : MarkerCall record β e)
    (h : Left record f d.toFiles) : Left record f ((sys host).apply e d).2.toFiles := by
  cases he with
  | opens =>
    change Left record f (FileOp.openPending.perform host d).2.toFiles
    unfold FileOp.perform
    split
    · exact h
    · exact h.torn 0
  | fills =>
    change Left record f ((FileOp.fillPending record).perform host d).2.toFiles
    unfold FileOp.perform
    split
    · exact h.torn _
    · exact h.whole
  | syncs =>
    change Left record f (FileOp.fsync.perform host d).2.toFiles
    unfold FileOp.perform
    split <;> exact h

theorem torn_left {f : Files} {β : Type} {e : SysOp β} {d d' : Disk} (he : MarkerCall record β e)
    (h : Left record f d.toFiles) (htorn : (sys host).torn e d d') : Left record f d'.toFiles := by
  cases he with
  | opens =>
    obtain ⟨-, written, hshort⟩ := htorn
    cases hshort
  | fills =>
    obtain ⟨-, written, hshort⟩ := htorn
    rw [← Option.some.inj hshort]
    exact h.torn written
  | syncs =>
    obtain ⟨-, written, hshort⟩ := htorn
    cases hshort

theorem writeMarker_calls : (writeMarker record).Uses (MarkerCall record) := by
  apply Prog.Uses.bind (Prog.uses_perform .opens)
  intro opened
  cases opened with
  | error kind => trivial
  | ok _ =>
    apply Prog.Uses.bind (Prog.uses_perform .fills)
    intro filled
    cases filled with
    | error kind => trivial
    | ok _ =>
      apply Prog.Uses.bind (Prog.uses_perform .syncs)
      intro synced
      cases synced <;> trivial

/-- Every crash of `write_marker` falls at one of the points. -/
theorem writeMarker_left {d d' : Disk} (hcut : (writeMarker record).Cut (sys host) d d') :
    Left record d.toFiles d'.toFiles :=
  writeMarker_calls.cut_invariant (I := fun t => Left record d.toFiles t.toFiles)
    (fun _ _ _ he ht => apply_left he ht) (fun _ _ _ _ he ht htorn => torn_left he ht htorn)
    ⟨.beforeOpen, rfl⟩ hcut

end Crash

section Start

variable [Sha256]

/-- What `recover_pending` does with a marker it could read. -/
def rollBackRecorded (m : Setup) : Option PendingCommitMarker → RecoverM (Option Recovered)
  | none => pure none
  | some record => do
    let stopped ← ExceptT.lift (stopStartedMounts m record.entries)
    let results ← ExceptT.lift (restoreEntries record.entries.reverse)
    let reloaded ← ExceptT.lift (replayReload m record.entries)
    let replayed ← ExceptT.lift (replayService m record.service)
    stateCall "remove_file" .unlinkPending
    pure (some { commit := ⟨record.commit⟩, restored := restoredCount results
                 failures := hookFailure stopped ++ restoreFailures results ++
                   hookFailure reloaded ++ hookFailure replayed })

/-- `recover_pending` when the marker it reads holds `record`. -/
def recoverWith (m : Setup) (record : Option PendingCommitMarker) : RecoverM (Option Recovered) := do
  let _ ← recoverInPlace m
  let _ ← stateCall "read" .readPending
  rollBackRecorded m record

/-- On every host, the next start finds no corrupt marker and rolls back what was
recorded before the write or what was recorded by it. -/
def CrashSafe (old : Option PendingCommitMarker) (new : PendingCommitMarker) (d : Disk) : Prop :=
  ∀ (m : Setup) (host : Host),
    (exec (sys host) (recoverPending m) d).1 ≠ .error .corruptMarker ∧
      ∃ record, (record = old ∨ record = some new) ∧
        exec (sys host) (recoverPending m) d = exec (sys host) (recoverWith m record) d

variable {m : Setup} {host : Host} {d d' : Disk}

/-- A marker that is there whole, or not at all, is what the recovery goes by. -/
theorem recoverPending_eq {record : Option PendingCommitMarker}
    (h : d.pending = record.map .whole) :
    exec (sys host) (recoverPending m) d = exec (sys host) (recoverWith m record) d := by
  unfold recoverPending recoverWith
  rw [exec_bind, exec_bind]
  rcases hinPlace : exec (sys host) (recoverInPlace m) d with ⟨err | recovered, d₁⟩
  · rfl
  have hpending : d₁.pending = record.map .whole := by
    rw [← h]
    exact (exec_agree (recoverInPlace_confined m) hinPlace).pending (by simp [notPending])
  dsimp only
  rw [exec_bind, exec_bind]
  rcases hread : exec (sys host) (stateCall "read" .readPending) d₁ with ⟨err | found, d₂⟩
  · rfl
  have heffect := (stateCall_ok hread).1
  obtain rfl : d₁.pending = found := by
    injection heffect with heffect
    exact (Prod.mk.inj heffect).1
  dsimp only
  rw [hpending]
  cases record <;> rfl

/-- An error other than a corrupt marker. -/
def Legible (err : MonitorError) : Prop := err ≠ .corruptMarker

omit [Sha256] in
theorem stateCall_legible {β : Type} (label : String) (op : FileOp β) :
    Fallible.Ends (fun _ => True) Legible (stateCall label op) := by
  apply Ends.bind (Fallible.ends_perform _)
  intro result _
  cases result with
  | ok value => exact ends_pure trivial
  | error kind => exact Fallible.ends_throw (by simp [Legible])

omit [Sha256] in
theorem lift_legible {α : Type} (p : Prog SysOp α) :
    Fallible.Ends (fun _ => True) Legible (ExceptT.lift p : RecoverM α) :=
  Prog.returns_bind (fun _ => trivial)

omit [Sha256] in
theorem removeInPlace_legible : Fallible.Ends (fun _ => True) Legible removeInPlace := by
  apply Ends.bind (lift_legible _)
  intro result _
  cases result with
  | ok _ => exact ends_pure trivial
  | error err => exact Fallible.ends_throw (by simp [Legible])

theorem settleInPlace_legible (record : InPlaceMarker) (backup : BackupPath) :
    Fallible.Ends (fun _ => True) Legible (settleInPlace record backup) := by
  apply Ends.bind (lift_legible _)
  intro found _
  dsimp only
  split
  · apply Ends.bind removeInPlace_legible
    intro _ _
    exact ends_pure trivial
  · apply Ends.bind (lift_legible _)
    intro restored _
    cases restored with
    | ok outcome =>
      apply Ends.bind removeInPlace_legible
      intro _ _
      exact ends_pure trivial
    | error err => exact ends_pure trivial

theorem recoverInPlace_legible {r : Except MonitorError (Option InPlaceRecovered)}
    (hwhole : ∀ written, d.inPlace ≠ some (.torn written))
    (h : exec (sys host) (recoverInPlace m) d = (r, d')) : r ≠ .error .corruptMarker := by
  rcases recoverInPlace_cases m h with ⟨-, ⟨kind, rfl⟩ | ⟨-, rfl⟩ | ⟨written, htorn, -⟩⟩ |
    ⟨record, d₁, -, -, -, ⟨backup, -, -, settled, hsettled, rfl⟩ | ⟨-, removed, hremoved, rfl⟩⟩
  · simp
  · simp
  · exact absurd htorn (hwhole written)
  · have hends := (settleInPlace_legible record backup).exec _ hsettled
    cases settled with
    | ok outcome => simp [Except.map]
    | error err =>
      have hlegible : err ≠ .corruptMarker := hends
      simpa [Except.map] using hlegible
  · have hends := removeInPlace_legible.exec _ hremoved
    cases removed with
    | ok _ => simp [Except.map]
    | error err =>
      have hlegible : err ≠ .corruptMarker := hends
      simpa [Except.map] using hlegible

theorem rollBackRecorded_legible (record : Option PendingCommitMarker) :
    Fallible.Ends (fun _ => True) Legible (rollBackRecorded m record) := by
  cases record with
  | none => exact ends_pure trivial
  | some record =>
    apply Ends.bind (lift_legible _)
    intro _ _
    apply Ends.bind (lift_legible _)
    intro _ _
    apply Ends.bind (lift_legible _)
    intro _ _
    apply Ends.bind (lift_legible _)
    intro _ _
    apply Ends.bind (stateCall_legible _ _)
    intro _ _
    exact ends_pure trivial

/-- A start that can read its markers does not report a corrupt one. -/
theorem recoverWith_legible (record : Option PendingCommitMarker)
    (hwhole : ∀ written, d.inPlace ≠ some (.torn written)) :
    (exec (sys host) (recoverWith m record) d).1 ≠ .error .corruptMarker := by
  have hrest : Fallible.Ends (fun _ => True) Legible
      (stateCall "read" .readPending >>= fun _ => rollBackRecorded m record) := by
    apply Ends.bind (stateCall_legible _ _)
    intro _ _
    exact rollBackRecorded_legible record
  rcases hexec : exec (sys host) (recoverWith m record) d with ⟨r, d'⟩
  rcases Fallible.exec_bind_cases _ hexec with ⟨err, rfl, hinPlace⟩ | ⟨_, d₁, -, hexec⟩
  · have hlegible := recoverInPlace_legible hwhole hinPlace
    intro hcorrupt
    cases hcorrupt
    exact hlegible rfl
  · have hends := hrest.exec _ hexec
    intro hcorrupt
    obtain rfl : r = .error .corruptMarker := hcorrupt
    exact hends rfl

/-- A build without modules. -/
def bare : Setup where
  allow :=
    { modules := [], targets := TargetTable.empty, checks := [], bindings := []
      config := { keepBackups := 20, init := .systemd, activateMounts := false } }
  modules := []
  checksConfigured := false
  updateTagRefusal _ := none
  updater := false

omit [Sha256] in
theorem sample_works : Works Sample.host := fun _ _ _ => rfl

theorem torn_inPlace_refused (hhost : Works host) {written : Nat}
    (htorn : d.inPlace = some (.torn written)) :
    (exec (sys host) (recoverPending m) d).1 = .error .corruptMarker := by
  have hread : FileOp.readInPlace.perform host d = (.ok d.inPlace, { d with tick := d.tick + 1 }) :=
    perform_effect (hhost _ _) rfl
  have hinPlace : exec (sys host) (recoverInPlace m) d =
      (.error .corruptMarker, { d with tick := d.tick + 1 }) := by
    unfold recoverInPlace
    rw [exec_bind, exec_stateCall, hread, htorn]
    rfl
  unfold recoverPending
  rw [Fallible.exec_bind_error _ hinPlace]

/-- A build without modules gives up the in-place write and goes on. -/
theorem bare_recoverInPlace (hhost : Works host)
    (hwhole : ∀ written, d.inPlace ≠ some (.torn written)) :
    ∃ recovered t, exec (sys host) (recoverInPlace bare) d = (.ok recovered, t) := by
  have hread : FileOp.readInPlace.perform host d = (.ok d.inPlace, { d with tick := d.tick + 1 }) :=
    perform_effect (hhost _ _) rfl
  unfold recoverInPlace
  rw [exec_bind, exec_stateCall, hread]
  match hmarker : d.inPlace with
  | none => exact ⟨_, _, rfl⟩
  | some (.torn written) => exact absurd hmarker (hwhole written)
  | some (.whole record) =>
    have hpresent : ({ d with tick := d.tick + 1 } : Disk).inPlace = some (.whole record) := hmarker
    obtain ⟨t, hremove, -⟩ := InPlaceRecovery.removeInPlace_works hhost hpresent
    exact ⟨_, t, Fallible.exec_bind_ok _ hremove⟩

theorem torn_pending_refused (hhost : Works host) {written : Nat}
    (hwhole : ∀ written, d.inPlace ≠ some (.torn written))
    (htorn : d.pending = some (.torn written)) :
    (exec (sys host) (recoverPending bare) d).1 = .error .corruptMarker := by
  obtain ⟨recovered, d₁, hinPlace⟩ := bare_recoverInPlace hhost hwhole
  have hpending : d₁.pending = some (.torn written) := by
    rw [← htorn]
    exact (exec_agree (recoverInPlace_confined bare) hinPlace).pending (by simp [notPending])
  have hread : FileOp.readPending.perform host d₁ = (.ok d₁.pending, { d₁ with tick := d₁.tick + 1 }) :=
    perform_effect (hhost _ _) rfl
  unfold recoverPending
  rw [Fallible.exec_bind_ok _ hinPlace, exec_bind, exec_stateCall, hread, hpending]
  rfl

/-- A crash inside `write_marker` is safe exactly when it falls before the open or
after the last byte, and the in-place marker is not torn itself. -/
theorem marker_write_crash_safe_iff {old : Option PendingCommitMarker} {new : PendingCommitMarker}
    (hold : d.pending = old.map .whole) (hcut : (writeMarker new).Cut (sys host) d d') :
    (∃ point : CrashPoint, d'.toFiles = point.leaves new d.toFiles) ∧
      ∀ point : CrashPoint, d'.toFiles = point.leaves new d.toFiles →
        (CrashSafe old new d' ↔ (∀ written, point ≠ .inside written) ∧
          ∀ written, d.inPlace ≠ some (.torn written)) := by
  refine ⟨writeMarker_left hcut, ?_⟩
  intro point hpoint
  have hinPlace : d'.inPlace = d.inPlace := by
    rw [hpoint]
    cases point <;> rfl
  constructor
  · intro hsafe
    constructor
    · rintro written rfl
      by_cases htorn : ∃ written, d'.inPlace = some (.torn written)
      · obtain ⟨written, htorn⟩ := htorn
        exact (hsafe bare Sample.host).1 (torn_inPlace_refused sample_works htorn)
      · have hpending : d'.pending = some (.torn written) := by rw [hpoint]; rfl
        exact (hsafe bare Sample.host).1
          (torn_pending_refused sample_works (not_exists.mp htorn) hpending)
    · intro written htorn
      rw [← hinPlace] at htorn
      exact (hsafe bare Sample.host).1 (torn_inPlace_refused sample_works htorn)
  · rintro ⟨hout, hwhole⟩ m host
    rw [← hinPlace] at hwhole
    have hrecord : ∃ record, (record = old ∨ record = some new) ∧ d'.pending = record.map .whole := by
      cases point with
      | beforeOpen => exact ⟨old, .inl rfl, by rw [hpoint]; exact hold⟩
      | inside written => exact absurd rfl (hout written)
      | complete => exact ⟨some new, .inr rfl, by rw [hpoint]; rfl⟩
    obtain ⟨record, heither, hpending⟩ := hrecord
    have heq : exec (sys host) (recoverPending m) d' =
        exec (sys host) (recoverWith m record) d' := recoverPending_eq hpending
    refine ⟨?_, record, heither, heq⟩
    rw [heq]
    exact recoverWith_legible record hwhole

end Start

section Runs

attribute [local instance] Sample.sha256

def marker : PendingCommitMarker where
  commit := 1
  deadlineUnixMs := 90000
  entries :=
    [{ target := 0, path := Sample.path
       backup := { dir := Sample.backupDir, name := { stamp := 2, short := "ca978112" } }
       newDigest := some (Sha256.of [98]) }]
  service := none

/-- The disk after so many calls of the write. -/
def writtenFor (count : Nat) : Disk := (writeMarker marker).after (sys Sample.host) count (Sample.disk [98])

theorem written_whole : CrashSafe none marker (writtenFor 2) := by
  have hcut : (writeMarker marker).Cut (sys Sample.host) (Sample.disk [98]) (writtenFor 2) :=
    Prog.cut_after _ _ _ _
  have hold : (Sample.disk [98]).pending = (none : Option PendingCommitMarker).map .whole := rfl
  have hsafe := (marker_write_crash_safe_iff hold hcut).2 .complete rfl
  exact hsafe.mpr ⟨by simp, by simp [Sample.disk]⟩

/-- The truncating open alone is enough to keep the monitor from starting. -/
theorem opened_marker_refused :
    (writeMarker marker).Cut (sys Sample.host) (Sample.disk [98]) (writtenFor 1) ∧
      (writtenFor 1).pending = some (.torn 0) ∧ ¬ CrashSafe none marker (writtenFor 1) ∧
      (Fallible.exec (sys Sample.host) (recoverPending (Sample.setup 20)) (writtenFor 1)).1 =
        .error .corruptMarker := by
  have hrefused : (exec (sys Sample.host) (recoverPending (Sample.setup 20))
      (writtenFor 1)).1 = .error .corruptMarker := by rfl
  refine ⟨Prog.cut_after _ _ _ _, rfl, ?_, hrefused⟩
  intro hsafe
  exact (hsafe (Sample.setup 20) Sample.host).1 hrefused

end Runs

end Detent.Guarantees.MarkerCrashes
