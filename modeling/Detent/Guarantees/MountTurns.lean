import Detent.Guarantees.MarkerCrashes
import Detent.Guarantees.MountCalls
import Detent.Lib.Except

/-!
# What a step does to the record of started mounts

The calls of the runner one by one, then every way a program of the monitor can
change the record, the journal and the pending commit: a quiet step, an accepted
write, a start, an armed commit, a confirmation, a rollback, a restart.
-/
namespace Detent.Guarantees.MountTurns
open Lib Source Source.Atomic Source.Monitor Source.Mounts
open MountCalls
open MarkerCrashes (rollBackRecorded)
open Fallible (Uses exec exec_bind_cases exec_lift_bind uses_bind)
open Prog (run_bind_eq)

/-! ## The calls of the runner -/

/-- The units on record for a file with this digest. -/
def onRecord (r : Runner) (digest : Option Sha256Digest) : List MountUnit :=
  match r.record with
  | some record => if some record.digest = digest then record.units else []
  | none => []

theorem onRecord_none {r : Runner} (h : r.record = none) (digest : Option Sha256Digest) :
    onRecord r digest = [] := by
  unfold onRecord
  rw [h]

/-- What the proofs need of the surroundings: the runner never fails to read or to remove
the record or to read the file, and the marker never fails to be removed. -/
structure Sound (rs : RunnerSetup) (host : Host) : Prop where
  unlinkPending : ∀ tick, host.fault tick .unlinkPending = none
  readRecord : ∀ tick, rs.fault tick .readRecord = none
  removeRecord : ∀ tick, rs.fault tick .removeRecord = none
  readTarget : ∀ tick, rs.fault tick .readTarget = none

/-- The file is the only one of the modules that declare mounts. -/
structure OnlyFstab (allow : Allowlist) (fstab : Path) : Prop where
  starts : allow.startsMountsAfter fstab = true
  declared : declared allow fstab = true
  only : ∀ target entry, allow.target target = some entry → entry.kind = .file →
    (allow.module entry.module).any (·.addedMounts) = true → entry.path = fstab

/-- A record `start_added` can have written. -/
structure WellFormed (fstab : Path) (record : Record) : Prop where
  path : record.path = fstab
  names : ∀ unit ∈ record.units, validMountUnitName unit.unit = true

section Calls

variable [Sha256] {rs : RunnerSetup} {allow : Allowlist} {host : Host} {fstab : Path} {r : Runner}
  {f : Files} {tick : Nat} {target : TargetId}

/-- The digest of the file at a path. -/
def digestAt (f : Files) (path : Path) : Option Sha256Digest := (f.contents path).map Sha256.of

theorem readTarget_ok {path : Path} {contents : Bytes} {digest : Sha256Digest}
    (h : Mounts.readTarget rs tick f path = .ok (contents, digest)) :
    digestAt f path = some digest := by
  unfold Mounts.readTarget at h
  split at h
  · cases h
  · split at h
    · next found hnode =>
      cases h
      simp only [digestAt, Files.contents, hnode, Option.map_some]
    all_goals cases h

theorem readTarget_digestAt {path : Path} {digest : Sha256Digest} (hsound : Sound rs host)
    (h : digestAt f path = some digest) :
    ∃ contents, Mounts.readTarget rs tick f path = .ok (contents, digest) := by
  unfold digestAt Files.contents at h
  split at h
  · next contents hnode =>
    refine ⟨contents, ?_⟩
    simp only [Mounts.readTarget, hsound.readTarget, hnode]
    rw [Option.map_some] at h
    rw [Option.some.inj h]
  · cases h

omit [Sha256] in
theorem mountTarget_ok {entry : TargetEntry} (honly : OnlyFstab allow fstab)
    (h : mountTarget allow target = .ok entry) : entry.path = fstab := by
  unfold mountTarget at h
  split at h
  · split at h
    · cases h
    · next found hfound =>
      obtain ⟨hfound, hkind⟩ := Option.filter_eq_some_iff.mp hfound
      split at h
      · next hmounts =>
        cases h
        exact honly.only target entry hfound (by simpa using hkind) hmounts
      · cases h
  · cases h

omit [Sha256] in
/-- The names the init system was asked about are valid. -/
theorem statesBefore_ok {active : List String} {allowed : List MountUnit}
    {before : List (String × UnitState)} (h : statesBefore rs active allowed = .ok before) :
    ∀ unit ∈ allowed, validMountUnitName unit.unit = true := by
  intro unit hunit
  unfold statesBefore at h
  split at h
  · next hempty =>
    rw [List.isEmpty_iff.mp hempty] at hunit
    cases hunit
  · unfold mountUnitStates at h
    split at h
    · cases h
    · next hvalid =>
      have hname := List.find?_eq_none.mp hvalid unit.unit (List.mem_map_of_mem hunit)
      simpa using hname

theorem planStart_ok {active : List String} {plan : Plan} (honly : OnlyFstab allow fstab)
    (h : planStart rs allow target tick f active = .ok plan) :
    plan.path = fstab ∧ digestAt f fstab = some plan.digest ∧
      ∀ unit ∈ plan.toStart, validMountUnitName unit.unit = true := by
  obtain ⟨entry, hentry, h⟩ := ok_of_bind h
  obtain ⟨⟨current, digest⟩, hread, h⟩ := ok_of_bind h
  obtain ⟨previous, -, h⟩ := ok_of_bind h
  obtain ⟨previousText, -, h⟩ := ok_of_bind h
  obtain ⟨currentText, -, h⟩ := ok_of_bind h
  obtain ⟨before, hbefore, h⟩ := ok_of_bind h
  cases h
  have hpath := mountTarget_ok honly hentry
  refine ⟨hpath, ?_, ?_⟩
  · rw [← hpath]
    exact readTarget_ok hread
  · intro unit hunit
    exact statesBefore_ok hbefore unit (List.mem_of_mem_filter hunit)

/-- A start leaves the runner alone or records what it starts. -/
theorem startAdded_cases (rs : RunnerSetup) (allow : Allowlist) (target : TargetId) (tick : Nat)
    (f : Files) (r : Runner) :
    (startAdded rs allow target tick f r).2 = r ∨
    ∃ plan, planStart rs allow target tick f r.active = .ok plan ∧
      (startAdded rs allow target tick f r).2 =
        { record := some { path := plan.path, digest := plan.digest, units := plan.toStart }
          active := r.active ++ plan.toStart.map (·.unit)
          started := r.started ++ plan.toStart
          stopped := r.stopped } := by
  unfold startAdded
  split
  · exact .inl rfl
  · next plan hplan =>
    split
    · exact .inl rfl
    · exact .inr ⟨plan, hplan, rfl⟩

theorem stopStarted_record (hsound : Sound rs host) :
    (stopStarted rs allow tick f r).2.record = none ∧
      (stopStarted rs allow tick f r).2.started = r.started := by
  have hrecorded : ∀ (record : Record) (r : Runner),
      (stopRecorded rs allow record tick f r).2.record = r.record ∧
        (stopRecorded rs allow record tick f r).2.started = r.started := by
    intro record r
    unfold stopRecorded
    split
    · exact ⟨rfl, rfl⟩
    · split
      · exact ⟨rfl, rfl⟩
      · split
        · exact ⟨rfl, rfl⟩
        · split <;> exact ⟨rfl, rfl⟩
  unfold stopStarted
  rw [hsound.readRecord]
  dsimp only
  split
  · next hnone => exact ⟨hnone, rfl⟩
  · simp only [forgetStarted, hsound.removeRecord, hrecorded, and_self]

/-- What a stop stops: the units on record for what the file holds. -/
theorem stopStarted_stopped (hsound : Sound rs host) (honly : OnlyFstab allow fstab)
    (hrecord : ∀ record, r.record = some record → WellFormed fstab record) :
    (stopStarted rs allow tick f r).2.stopped =
      r.stopped ++ onRecord r (digestAt f fstab) := by
  unfold stopStarted
  rw [hsound.readRecord]
  dsimp only
  split
  · next hnone => simp [onRecord_none hnone]
  · next record hsome =>
    obtain ⟨hpath, hnames⟩ := hrecord record hsome
    have hvalid : (record.units.map (·.unit)).find? (fun name => !validMountUnitName name) = none := by
      rw [List.find?_eq_none]
      intro name hname
      obtain ⟨unit, hunit, rfl⟩ := List.mem_map.mp hname
      simp [hnames unit hunit]
    simp only [forgetStarted, hsound.removeRecord, stopRecorded, hpath, honly.declared, hvalid,
      Bool.not_true, Bool.false_eq_true, if_false]
    cases hdigest : digestAt f fstab with
    | none =>
      split
      · simp [onRecord, hsome]
      · next found digest hread =>
        rw [readTarget_ok hread] at hdigest
        cases hdigest
    | some digest =>
      obtain ⟨contents, hread⟩ :
          ∃ contents, Mounts.readTarget rs tick f fstab = .ok (contents, digest) :=
        readTarget_digestAt hsound hdigest
      rw [hread]
      dsimp only
      by_cases hsame : digest = record.digest
      · rw [if_neg (by simpa using hsame)]
        simp [onRecord, hsome, hsame]
      · have hother : ¬ record.digest = digest := fun h => hsame h.symm
        rw [if_pos hsame]
        simp [onRecord, hsome, hother]

end Calls

variable {result : Except MonitorError Response} {response : Option Response} {request : Request}

section Programs

variable [Sha256] {rs : RunnerSetup} {m : Setup} {host : Host} {d d' : Disk} {r r' : Runner}
  {mem mem' : Mem}

omit [Sha256] in
/-- A marker that can be removed is gone afterwards. -/
theorem clearMarker_cleared (hsound : Sound rs host) {result : Except MonitorError Unit}
    (h : clearMarker.run (sys host) d = (result, d')) : result = .ok () ∧ d'.pending = none := by
  obtain ⟨removed, d₁, hremove, h⟩ := run_bind_eq _ h
  have hperform : (FileOp.unlinkPending).perform host d = (removed, d₁) := hremove
  unfold FileOp.perform at hperform
  rw [hsound.unlinkPending] at hperform
  dsimp only [FileOp.effect] at hperform
  split at hperform
  · next hok =>
    split at hok
    · cases hok
      cases hperform
      cases h
      exact ⟨rfl, rfl⟩
    · cases hok
  · next herror =>
    split at herror
    · cases herror
    · next hnone =>
      cases herror
      cases hperform
      cases h
      exact ⟨rfl, hnone⟩

variable {entries : List RollbackEntry} {commit : CommitId}

theorem restoring_cleared (hsound : Sound rs host) {service : Option PendingService}
    {result : Except MonitorError Nat}
    (h : (restoring m entries service).run (sys host) d = (result, d')) :
    (∃ restored, result = .ok restored) ∧ d'.pending = none := by
  obtain ⟨restored, d₁, -, h⟩ := run_bind_eq _ h
  obtain ⟨_, d₂, -, h⟩ := run_bind_eq _ h
  obtain ⟨_, d₃, -, h⟩ := run_bind_eq _ h
  obtain ⟨cleared, d₄, hclear, h⟩ := run_bind_eq _ h
  obtain ⟨rfl, hpending⟩ := clearMarker_cleared hsound hclear
  cases h
  exact ⟨⟨restored, rfl⟩, hpending⟩

/-- The runner after the rollback of a commit with these entries. -/
def rolledBack (rs : RunnerSetup) (m : Setup) (entries : List RollbackEntry) (tick : Nat) (f : Files)
    (r : Runner) : Runner :=
  if startsMounts m entries then (stopStarted rs m.allow tick f r).2 else r

/-- The runner after the confirmation of a commit with these entries. -/
def confirmed (m : Setup) (entries : List RollbackEntry) (r : Runner) : Runner :=
  if startsMounts m entries then { r with record := none } else r

theorem stopStartedMounts_run {result : Except HookError Unit}
    (h : (stopStartedMounts m entries).run (withRunner rs m.allow host) (d, r) = (result, d', r')) :
    r' = rolledBack rs m entries d.tick d.toFiles r ∧ d'.toFiles = d.toFiles := by
  unfold stopStartedMounts at h
  unfold rolledBack
  split at h
  · next hstarts =>
    rw [if_pos hstarts]
    obtain ⟨answer, ⟨d₁, r₁⟩, hhook, h⟩ := run_bind_eq _ h
    have hsame : d₁ = d' ∧ r₁ = r' := by
      cases answer <;> cases h <;> exact ⟨rfl, rfl⟩
    obtain ⟨rfl, rfl⟩ := hsame
    cases hhook
    exact ⟨rfl, rfl⟩
  · next hstarts =>
    rw [if_neg hstarts]
    cases h
    exact ⟨rfl, rfl⟩

theorem undo_run (hsound : Sound rs host) {pending : Pending} {result : Except MonitorError Nat}
    (h : (undo m pending).run (withRunner rs m.allow host) (d, r) = (result, d', r')) :
    (∃ restored, result = .ok restored) ∧ d'.pending = none ∧
      r' = rolledBack rs m pending.entries d.tick d.toFiles r := by
  rw [undo_eq] at h
  obtain ⟨_, ⟨d₁, r₁⟩, hstop, h⟩ := run_bind_eq _ h
  obtain ⟨hr₁, -⟩ := stopStartedMounts_run hstop
  obtain ⟨hrestoring, rfl⟩ := run_quiet (restoring_quiet m _ _) h
  obtain ⟨hok, hpending⟩ := restoring_cleared hsound hrestoring
  exact ⟨hok, hpending, hr₁⟩

/-- The end of the serve loop rolls a pending commit back. -/
theorem leave_run (hsound : Sound rs host) {ending : Ending}
    (h : (leave m response mem).run (withRunner rs m.allow host) (d, r) = (ending, d', r')) :
    ending = (response, none) ∧
      ((mem.pending = none ∧ d' = d ∧ r' = r) ∨
        ∃ pending, mem.pending = some pending ∧ d'.pending = none ∧
          r' = rolledBack rs m pending.entries d.tick d.toFiles r) := by
  obtain ⟨_, ⟨d₁, r₁⟩, hexit, h⟩ := run_bind_eq _ h
  cases h
  refine ⟨rfl, ?_⟩
  unfold rollbackPendingOnExit at hexit
  split at hexit
  · next hnone =>
    cases hexit
    exact .inl ⟨hnone, rfl, rfl⟩
  · next pending hpending =>
    obtain ⟨undone, ⟨d₂, r₂⟩, hundo, hexit⟩ := run_bind_eq _ hexit
    obtain ⟨⟨restored, rfl⟩, hmarker, hrunner⟩ := undo_run hsound hundo
    cases hexit
    exact .inr ⟨pending, hpending, hmarker, hrunner⟩

theorem enforceDeadline_run (hsound : Sound rs host) {result : Except MonitorError Unit}
    (h : (enforceDeadline m mem).run (withRunner rs m.allow host) (d, r) =
      ((result, mem'), d', r')) :
    result = .ok () ∧
      ((mem' = mem ∧ d'.toFiles = d.toFiles ∧ r' = r) ∨
        ∃ pending tick, mem.pending = some pending ∧ mem' = { mem with pending := none } ∧
          d'.pending = none ∧ r' = rolledBack rs m pending.entries tick d.toFiles r) := by
  unfold enforceDeadline at h
  split at h
  · cases h
    exact ⟨rfl, .inl ⟨rfl, rfl, rfl⟩⟩
  · next pending hpending =>
    obtain ⟨now, ⟨d₁, r₁⟩, hnow, hrest⟩ := run_bind_eq _ h
    obtain ⟨hd₁, hr₁⟩ : d₁.toFiles = d.toFiles ∧ r₁ = r := by
      cases hnow
      exact ⟨rfl, rfl⟩
    rw [hr₁] at hrest
    split at hrest
    · obtain ⟨undone, ⟨d₂, r₂⟩, hundo, hend⟩ := run_bind_eq _ hrest
      obtain ⟨⟨restored, rfl⟩, hmarker, hrunner⟩ := undo_run hsound hundo
      cases hend
      rw [hd₁] at hrunner
      exact ⟨rfl, .inr ⟨pending, d₁.tick, hpending, rfl, hmarker, hrunner⟩⟩
    · cases hrest
      exact ⟨rfl, .inl ⟨rfl, hd₁, rfl⟩⟩

/-- Nothing the record or the marker shows. -/
structure Untouched (mem mem' : Mem) (d d' : Disk) (r r' : Runner) : Prop where
  journal : mem'.journal = mem.journal
  pending : mem'.pending = mem.pending
  files : d'.toFiles = d.toFiles
  runner : r' = r

/-- The pending commit was `commit` and rolled back, from the files `d` holds. -/
structure Undone (rs : RunnerSetup) (m : Setup) (commit : CommitId) (mem mem' : Mem) (d d' : Disk)
    (r r' : Runner) : Prop where
  journal : mem'.journal = mem.journal
  pending : mem'.pending = none
  marker : d'.pending = none
  runner : ∃ pending tick, mem.pending = some pending ∧ pending.commit = commit ∧
    r' = rolledBack rs m pending.entries tick d.toFiles r

theorem rollbackCommit_run (hsound : Sound rs host)
    (h : (rollbackCommit m mem commit).run (withRunner rs m.allow host) (d, r) =
      ((result, mem'), d', r')) :
    (∃ response, result = .ok response) ∧
      (Untouched mem mem' d d' r r' ∨ Undone rs m commit mem mem' d d' r r') := by
  unfold rollbackCommit at h
  split at h
  · next pending hpending =>
    split at h
    · next hcommit =>
      obtain ⟨undone, ⟨d₁, r₁⟩, hundo, hend⟩ := run_bind_eq _ h
      obtain ⟨⟨restored, rfl⟩, hmarker, hrunner⟩ := undo_run hsound hundo
      cases hend
      exact ⟨⟨_, rfl⟩, .inr ⟨rfl, rfl, hmarker, pending, d.tick, hpending, hcommit, hrunner⟩⟩
    · cases h
      exact ⟨⟨_, rfl⟩, .inl ⟨rfl, rfl, rfl, rfl⟩⟩
  · cases h
    exact ⟨⟨_, rfl⟩, .inl ⟨rfl, rfl, rfl, rfl⟩⟩

theorem forgetStartedMounts_run (hsound : Sound rs host) {result : Except HookError Unit}
    (h : (forgetStartedMounts m entries).run (withRunner rs m.allow host) (d, r) =
      (result, d', r')) : r' = confirmed m entries r := by
  unfold forgetStartedMounts at h
  unfold confirmed
  split at h
  · next hstarts =>
    rw [if_pos hstarts]
    have hforget : (forgetStarted rs d.tick r).2 = r' := by
      cases h
      rfl
    rw [← hforget, forgetStarted, hsound.removeRecord]
  · next hstarts =>
    rw [if_neg hstarts]
    cases h
    rfl

theorem confirmCommit_run (hsound : Sound rs host)
    (h : (confirmCommit m mem commit).run (withRunner rs m.allow host) (d, r) =
      ((result, mem'), d', r')) :
    ∃ response, result = .ok response ∧
      ((Untouched mem mem' d d' r r' ∧ ∀ other, response ≠ .committed other) ∨
        (Undone rs m commit mem mem' d d' r r' ∧ ∀ other, response ≠ .committed other) ∨
        ∃ pending, mem.pending = some pending ∧ pending.commit = commit ∧
          response = .committed commit ∧ mem' = { mem with pending := none } ∧
          d'.pending = none ∧ r' = confirmed m pending.entries r) := by
  unfold confirmCommit at h
  split at h
  · next pending hpending =>
    split at h
    · next hcommit =>
      obtain ⟨now, ⟨d₁, r₁⟩, hnow, hrest⟩ := run_bind_eq _ h
      obtain ⟨hd₁, hr₁⟩ : d₁.toFiles = d.toFiles ∧ r₁ = r := by
        cases hnow
        exact ⟨rfl, rfl⟩
      rw [hr₁] at hrest
      split at hrest
      · obtain ⟨⟨enforced, after⟩, ⟨d₂, r₂⟩, hdeadline, hend⟩ := run_bind_eq _ hrest
        obtain ⟨rfl, hcases⟩ := enforceDeadline_run hsound hdeadline
        cases hend
        rw [hd₁] at hcases
        rcases hcases with ⟨rfl, hfiles, rfl⟩ | ⟨found, tick, hfound, rfl, hmarker, hrunner⟩
        · exact ⟨_, rfl, .inl ⟨⟨rfl, rfl, hfiles, rfl⟩, by simp⟩⟩
        · obtain rfl : found = pending := Option.some.inj (hfound.symm.trans hpending)
          exact ⟨_, rfl,
            .inr (.inl ⟨⟨rfl, rfl, hmarker, found, tick, hfound, hcommit, hrunner⟩, by simp⟩)⟩
      · obtain ⟨_, ⟨d₂, r₂⟩, hforget, hclear⟩ := run_bind_eq _ hrest
        obtain ⟨cleared, ⟨d₃, r₃⟩, hclear, hend⟩ := run_bind_eq _ hclear
        obtain ⟨hclear, hr₃⟩ := run_quiet clearMarker_quiet hclear
        obtain ⟨rfl, hmarker⟩ := clearMarker_cleared hsound hclear
        have hforgot := forgetStartedMounts_run hsound hforget
        cases hend
        rw [hr₃, hforgot]
        exact ⟨_, rfl, .inr (.inr ⟨pending, hpending, hcommit, by rw [hcommit], rfl, hmarker, rfl⟩)⟩
    · cases h
      exact ⟨_, rfl, .inl ⟨⟨rfl, rfl, rfl, rfl⟩, by simp [unknown]⟩⟩
  · cases h
    exact ⟨_, rfl, .inl ⟨⟨rfl, rfl, rfl, rfl⟩, by simp [unknown]⟩⟩

theorem mount_run {target : TargetId} {response : Response}
    (h : (mount m target).run (withRunner rs m.allow host) (d, r) = (response, d', r')) :
    d'.toFiles = d.toFiles ∧
      (r' = r ∨ r' = (startAdded rs m.allow target d.tick d.toFiles r).2) := by
  unfold mount at h
  split at h
  · cases h
    exact ⟨rfl, .inl rfl⟩
  · split at h
    · cases h
      exact ⟨rfl, .inl rfl⟩
    · split at h
      · obtain ⟨answer, ⟨d₁, r₁⟩, hhook, hend⟩ := run_bind_eq _ h
        have hsame : d₁ = d' ∧ r₁ = r' := by
          cases answer <;> cases hend <;> exact ⟨rfl, rfl⟩
        obtain ⟨rfl, rfl⟩ := hsame
        cases hhook
        exact ⟨rfl, .inr rfl⟩
      · cases h
        exact ⟨rfl, .inl rfl⟩

omit [Sha256] in
/-- The pending-commit marker a failed or finished write of it may have left whole. -/
theorem writeMarker_whole {record found : PendingCommitMarker} {result : Except MonitorError Unit}
    (h : (Monitor.writeMarker record).run (sys host) d = (result, d'))
    (hfound : d'.pending = some (.whole found)) : found = record ∨ d.pending = some (.whole found) := by
  obtain ⟨opened, d₁, hopen, h⟩ := run_bind_eq _ h
  cases opened with
  | error kind =>
    cases h
    obtain ⟨hsame | ⟨written, hcut⟩, -⟩ := perform_error hopen
    · exact .inr (by rw [← hsame]; exact hfound)
    · cases hcut
  | ok _ =>
    have hopened := (perform_ok hopen).1
    injection hopened with hopened
    obtain ⟨filled, d₂, hfill, h⟩ := run_bind_eq _ h
    cases filled with
    | error kind =>
      cases h
      obtain ⟨hsame | ⟨written, hcut⟩, -⟩ := perform_error hfill
      · rw [hsame, ← (Prod.mk.inj hopened).2] at hfound
        cases hfound
      · injection hcut with hcut
        rw [← hcut] at hfound
        cases hfound
    | ok _ =>
      have hfilled := (perform_ok hfill).1
      injection hfilled with hfilled
      have hd₂ : d₂.pending = some (.whole record) := by rw [← (Prod.mk.inj hfilled).2]
      obtain ⟨synced, d₃, hsync, h⟩ := run_bind_eq _ h
      have hreads : (Prog.perform (SysOp.file .fsync)).Uses (Inside (fun _ => False)) :=
        Prog.uses_perform (.inl rfl)
      have hd₃ : d₃.toFiles = d₂.toFiles := run_reads hreads hsync
      have hend : d' = d₃ := by
        cases synced <;> cases h <;> rfl
      rw [hend, hd₃, hd₂] at hfound
      cases hfound
      exact .inl rfl

omit [Sha256] in
/-- The outcome of a request to arm a commit. -/
theorem startConfirmTimer_run {timeoutS : Nat} {service : Option PendingService}
    (h : (startConfirmTimer mem commit timeoutS service).run (sys host) d = ((result, mem'), d')) :
    (mem' = mem ∧ d' = d ∧ mem.pending ≠ none ∧ ∃ err, result = .ok (.error err)) ∨
    (mem.pending = none ∧
      (∀ found, d'.pending = some (.whole found) →
        found.entries = mem.journal ∨ d.pending = some (.whole found)) ∧
      ((∃ err, result = .error err ∧ mem'.pending = none) ∨
        ∃ response pending record, result = .ok response ∧ mem'.journal = [] ∧
          mem'.pending = some pending ∧ d'.pending = some (.whole record) ∧
          record.entries = pending.entries)) := by
  unfold startConfirmTimer at h
  split at h
  · next pending hpending =>
    cases h
    exact .inl ⟨rfl, rfl, by simp [hpending], _, rfl⟩
  · next hnone =>
    obtain ⟨now, d₁, hnow, h⟩ := run_bind_eq _ h
    obtain ⟨wall, d₂, hwall, h⟩ := run_bind_eq _ h
    obtain ⟨written, d₃, hmarker, h⟩ := run_bind_eq _ h
    have hd₂ : d₂.pending = d.pending := by
      cases hwall
      cases hnow
      rfl
    have hend : d' = d₃ := by
      cases written <;> cases h <;> rfl
    refine .inr ⟨hnone, ?_, ?_⟩
    · intro found hfound
      rw [hend] at hfound
      rcases writeMarker_whole hmarker hfound with rfl | hold
      · exact .inl rfl
      · exact .inr (by rw [← hd₂]; exact hold)
    · cases written with
      | error err =>
        cases h
        exact .inl ⟨_, rfl, hnone⟩
      | ok _ =>
        cases h
        have hfiles := pendingMarker_ok hmarker
        exact .inr ⟨_, _, _, rfl, rfl, rfl, by rw [hfiles], rfl⟩

/-- The requests that arm, resolve or mount. -/
def Special : Request → Prop
  | .startConfirmTimer .. | .mount _ | .confirmCommit _ | .rollbackCommit _ => True
  | _ => False

/-- A request that was answered and changed nothing in memory. -/
def Idle (mem mem' : Mem) (request : Request) (response : Response) : Prop :=
  mem' = mem ∧ accepts request response = false

/-- A request that was an accepted write. -/
structure Accepted (m : Setup) (mem mem' : Mem) (id : TargetId) (bytes : Bytes) (journal : Bool)
    (receipt : WriteReceipt) : Prop where
  recorded : ∃ entry outcome, m.allow.target id = some entry ∧
    outcome.newDigest = Sha256.of bytes ∧ receipt.backedUp = outcome.backup.isSome ∧
    mem' = mem.record journal id entry.path outcome

theorem writeTarget_run {id : TargetId} {expectedPrev : Option Sha256Digest} {bytes : Bytes}
    {journal : Bool} {response : Response}
    (h : (writeTarget m mem id expectedPrev bytes journal).run (sys host) d = ((response, mem'), d')) :
    d'.pending = d.pending ∧
      (Idle mem mem' (.writeTarget id expectedPrev bytes journal) response ∨
        ∃ receipt, response = .written receipt ∧ Accepted m mem mem' id bytes journal receipt) := by
  rcases writeTarget_cases h with ⟨hsame, rfl, err, rfl⟩ | ⟨entry, d₁, r, hentry, hd₁, -, hexec, hcases⟩
  · rw [hsame]
    exact ⟨rfl, .inl ⟨rfl, rfl⟩⟩
  · refine ⟨?_, ?_⟩
    · rw [(exec_agree (writeAtomic_confined _) hexec).pending (by simp [writeParts]), hd₁]
    · rcases hcases with ⟨err, -, rfl, rfl⟩ | ⟨outcome, rfl, rfl, hmem⟩
      · exact .inl ⟨rfl, rfl⟩
      · obtain ⟨previous, hwrote⟩ := writeAtomic_ok hexec
        exact .inr ⟨_, rfl, entry, outcome, hentry, hwrote.newDigest, rfl, hmem⟩

/-- Every other request leaves the pending-commit marker alone and is answered. -/
theorem dispatch_plain (hgreeted : mem.greeted = true) (hplain : ¬ Special request)
    (h : (dispatch m mem request).run (sys host) d = ((result, mem'), d')) :
    d'.pending = d.pending ∧ ∃ response, result = .ok response ∧
      (Idle mem mem' request response ∨
        ∃ id expectedPrev bytes journal receipt,
          request = .writeTarget id expectedPrev bytes journal ∧ response = .written receipt ∧
          Accepted m mem mem' id bytes journal receipt) := by
  unfold dispatch at h
  rw [if_pos hgreeted] at h
  have hreads : ∀ {p : Prog SysOp Response}, p.Uses (Inside (fun _ => False)) →
      (∀ response, accepts request response = false) →
      (answer mem p).run (sys host) d = ((result, mem'), d') →
      d'.pending = d.pending ∧ ∃ response, result = .ok response ∧
        (Idle mem mem' request response ∨ ∃ id expectedPrev bytes journal receipt,
          request = .writeTarget id expectedPrev bytes journal ∧ response = .written receipt ∧
          Accepted m mem mem' id bytes journal receipt) := by
    intro p hp hother hrun
    obtain ⟨response, hresult, hmem, hp'⟩ := answer_run hrun
    rw [run_reads hp hp']
    exact ⟨rfl, response, hresult, .inl ⟨hmem, hother response⟩⟩
  cases request with
  | startConfirmTimer | mount | confirmCommit | rollbackCommit => exact (hplain trivial).elim
  | readTarget target => exact hreads (readTarget_uses m target) (fun _ => rfl) h
  | runCheck check bytes => exact hreads (runCheck_uses m check bytes) (fun _ => rfl) h
  | service binding action => exact hreads (service_uses m binding action) (fun _ => rfl) h
  | listBackups module => exact hreads (listBackups_uses m module) (fun _ => rfl) h
  | reloadUnitFiles module => exact hreads (reloadUnitFiles_uses m module) (fun _ => rfl) h
  | startUpdate tag => exact hreads (startUpdate_uses m tag) (fun _ => rfl) h
  | writeTarget target expectedPrev bytes journal =>
    obtain ⟨⟨response, after⟩, d₁, hwrite, hend⟩ := run_bind_eq _ h
    cases hend
    obtain ⟨hmarker, hidle | ⟨receipt, hresponse, haccepted⟩⟩ := writeTarget_run hwrite
    · exact ⟨hmarker, response, rfl, .inl hidle⟩
    · exact ⟨hmarker, response, rfl, .inr ⟨_, _, _, _, receipt, rfl, hresponse, haccepted⟩⟩
  | restore module backup =>
    obtain ⟨response, hresult, hmem, hrestore⟩ := answer_run h
    refine ⟨?_, response, hresult, .inl ⟨hmem, rfl⟩⟩
    rcases restore_cases hrestore with ⟨hsame, -⟩ | ⟨row, d₁, restored, -, hd₁, -, hexec, -⟩
    · rw [hsame]
    · rw [(exec_agree (restoreBackupWith_confined _ _ _ _) hexec).pending (by simp [restoreParts]),
        hd₁]
  | hello | replaceBinary | shutdown | pendingCommit | stageBegin | stageUpdate =>
    cases h
    exact ⟨rfl, _, rfl, .inl ⟨rfl, rfl⟩⟩

end Programs

section Steps

variable [Sha256] (rs : RunnerSetup) (m : Setup) (host : Host) (fstab : Path)

/-- An accepted write of the file that the journal records. -/
def records : Happening → Bool
  | .done (.request (.writeTarget id _ _ true)) (some (.written receipt)) =>
    receipt.backedUp && (m.allow.target id).any (fun entry => entry.path = fstab)
  | _ => false

/-- A request to arm a commit while none is pending. -/
def arms (w : MountWorld) : Happening → Bool
  | .done (.request (.startConfirmTimer ..)) _ => w.mem.any (fun mem => mem.pending.isNone)
  | _ => false

/-- The confirmation of a commit with mounts. -/
def confirms (w : MountWorld) : Happening → Bool
  | .done (.request (.confirmCommit _)) (some (.committed _)) =>
    w.mem.any (fun mem => mem.pending.any (fun pending => startsMounts m pending.entries))
  | _ => false

/-- The commits a step of a monitor that goes on can resolve. -/
def Resolves (commit : CommitId) : Happening → Prop
  | .done (.request (.confirmCommit other)) _ | .done (.request (.rollbackCommit other)) _ =>
    commit = other
  | .done .deadline _ => True
  | _ => False

/-- Every way a program of a running monitor can change what the record, the
journal and the pending commit show. -/
inductive Moved (w : MountWorld) (mem : Mem) (label : Happening) (w' : MountWorld) : Prop
  | quiet (runner : w'.runner = w.runner) (marker : w'.disk.pending = w.disk.pending)
      (goes : ∀ mem', w'.mem = some mem' → mem'.journal = mem.journal ∧ mem'.pending = mem.pending)
      (ends : w'.mem = none → mem.pending = none) (plain : records m fstab label = false)
      (confirming : confirms m w label = false) (arming : arms w label = true → w'.mem = none)
  | wrote {id : TargetId} {expectedPrev : Option Sha256Digest} {bytes : Bytes} {journal : Bool}
      {receipt : WriteReceipt} {mem' : Mem}
      (label_eq : label = .done (.request (.writeTarget id expectedPrev bytes journal))
        (some (.written receipt)))
      (accepted : Accepted m mem mem' id bytes journal receipt) (goes : w'.mem = some mem')
      (runner : w'.runner = w.runner) (marker : w'.disk.pending = w.disk.pending)
  | mounted {target : TargetId} {response : Option Response}
      (label_eq : label = .done (.request (.mount target)) response) (goes : w'.mem = some mem)
      (runner : w'.runner =
        (startAdded rs m.allow target w.disk.tick w.disk.toFiles w.runner).2)
      (marker : w'.disk.pending = w.disk.pending)
  | armed (arming : arms w label = true) (none_pending : mem.pending = none)
      (goes : ∀ mem', w'.mem = some mem' → mem'.journal = [] ∧ ∃ pending record,
        mem'.pending = some pending ∧ w'.disk.pending = some (.whole record) ∧
        record.entries = pending.entries)
      (marker : ∀ record, w'.disk.pending = some (.whole record) →
        record.entries = mem.journal ∨ w.disk.pending = some (.whole record))
      (runner : w'.runner = w.runner) (plain : records m fstab label = false)
      (confirming : confirms m w label = false)
  | confirmed {pending : Pending} {commit : CommitId} (was : mem.pending = some pending)
      (named : pending.commit = commit)
      (label_eq : label = .done (.request (.confirmCommit commit)) (some (.committed commit)))
      (goes : w'.mem = some { mem with pending := none }) (marker : w'.disk.pending = none)
      (runner : w'.runner = confirmed m pending.entries w.runner)
  | undone {pending : Pending} {tick : Nat} (was : mem.pending = some pending)
      (goes : ∀ mem', w'.mem = some mem' → mem'.journal = mem.journal ∧ mem'.pending = none ∧
        Resolves pending.commit label)
      (marker : w'.disk.pending = none)
      (runner : w'.runner = rolledBack rs m pending.entries tick w.disk.toFiles w.runner)
      (plain : records m fstab label = false) (confirming : confirms m w label = false)

variable {rs m host fstab} {w : MountWorld} {mem : Mem} {answer : Option Response}

/-- After `leave` the monitor is gone and its commit rolled back. -/
theorem leave_moved (hsound : Sound rs host) {label : Happening} {d d' : Disk} {after : Mem}
    {r' : Runner} {mem' : Option Mem} (hfiles : d.toFiles = w.disk.toFiles)
    (hpending : after.pending = mem.pending) (hplain : records m fstab label = false)
    (hconfirming : confirms m w label = false)
    (h : (leave m response after).run (withRunner rs m.allow host) (d, w.runner) =
      ((answer, mem'), d', r')) :
    Moved rs m fstab w mem label { disk := d', mem := mem', runner := r' } := by
  obtain ⟨hending, hcases⟩ := leave_run hsound h
  obtain ⟨-, rfl⟩ := Prod.mk.inj hending
  rcases hcases with ⟨hnone, rfl, rfl⟩ | ⟨pending, hsome, hmarker, hrunner⟩
  · refine .quiet rfl ?_ nofun (fun _ => hpending ▸ hnone) hplain
      hconfirming (fun _ => rfl)
    change d'.toFiles.pending = _
    rw [hfiles]
  · rw [hfiles] at hrunner
    exact .undone (hpending ▸ hsome) nofun hmarker hrunner hplain
      hconfirming

theorem exit_moved (hsound : Sound rs host) {mem' : Option Mem} {d' : Disk} {r' : Runner}
    (h : (leave m none mem).run (withRunner rs m.allow host) (w.disk, w.runner) =
      ((response, mem'), d', r')) :
    Moved rs m fstab w mem (.done .exit response) { disk := d', mem := mem', runner := r' } :=
  leave_moved hsound rfl rfl rfl rfl h

theorem deadline_moved (hsound : Sound rs host) {mem' : Option Mem} {d' : Disk} {r' : Runner}
    (h : (deadlineStep m mem).run (withRunner rs m.allow host) (w.disk, w.runner) =
      ((response, mem'), d', r')) :
    Moved rs m fstab w mem (.done .deadline response) { disk := d', mem := mem', runner := r' } := by
  obtain ⟨⟨enforced, after⟩, ⟨d₁, r₁⟩, hdeadline, hend⟩ := run_bind_eq _ h
  obtain ⟨rfl, hcases⟩ := enforceDeadline_run hsound hdeadline
  cases hend
  rcases hcases with ⟨rfl, hfiles, rfl⟩ | ⟨pending, tick, hpending, rfl, hmarker, hrunner⟩
  · refine .quiet rfl ?_ ?_ nofun rfl rfl nofun
    · change d'.toFiles.pending = _
      rw [hfiles]
    · intro mem' hmem'
      cases hmem'
      exact ⟨rfl, rfl⟩
  · refine .undone hpending ?_ hmarker hrunner rfl rfl
    intro mem' hmem'
    cases hmem'
    exact ⟨rfl, rfl, trivial⟩

/-- The requests before the handshake, a second handshake and the shutdown. -/
theorem dispatch_idle {after : Mem} {d d' : Disk} {r r' : Runner}
    (hidle : ¬ mem.greeted = true ∨ (∃ proto, request = .hello proto) ∨ request = .shutdown)
    (h : (dispatch m mem request).run (withRunner rs m.allow host) (d, r) =
      ((result, after), d', r')) :
    d' = d ∧ r' = r ∧ after.journal = mem.journal ∧ after.pending = mem.pending ∧
      ∃ response, result = .ok response ∧ accepts request response = false ∧
        (∀ commit, request = .confirmCommit commit → ∀ other, response ≠ .committed other) ∧
        (∀ commit timeoutS service, request = .startConfirmTimer commit timeoutS service →
          Response.fatal response = true) := by
  by_cases hgreeted : mem.greeted = true
  · unfold dispatch at h
    rw [if_pos hgreeted] at h
    rcases hidle with hidle | ⟨proto, rfl⟩ | rfl
    · exact absurd hgreeted hidle
    all_goals
      cases h
      exact ⟨rfl, rfl, rfl, rfl, _, rfl, rfl, by simp, by simp⟩
  · rw [dispatch_ungreeted m hgreeted] at h
    cases h
    obtain ⟨hpending, hjournal⟩ := greet_mem m mem request
    refine ⟨rfl, rfl, hjournal, hpending, _, rfl, ?_⟩
    cases request with
    | hello proto =>
      by_cases hproto : proto = protoVersion
      all_goals simp [greet, hproto, accepts]
    | _ => exact ⟨rfl, by simp [greet], by simp [greet, Response.fatal]⟩

omit [Sha256] in
theorem plain_label {request : Request} {response : Response}
    (hother : accepts request response = false)
    (hcommitted : ∀ commit, request = .confirmCommit commit → ∀ other, response ≠ .committed other) :
    records m fstab (.done (.request request) (some response)) = false ∧
      confirms m w (.done (.request request) (some response)) = false := by
  constructor
  · unfold records
    split
    · next heq =>
      cases heq
      cases hother
    · rfl
  · unfold confirms
    split
    · next heq =>
      cases heq
      exact absurd rfl (hcommitted _ rfl _)
    · rfl

/-- An answered request that the monitor survives as it was. -/
theorem idle_moved {response : Response} {mem' : Mem} {d' : Disk}
    (hmarker : d'.pending = w.disk.pending) (hjournal : mem'.journal = mem.journal)
    (hpending : mem'.pending = mem.pending) (hother : accepts request response = false)
    (hcommitted : ∀ commit, request = .confirmCommit commit → ∀ other, response ≠ .committed other)
    (harming : ¬ arms w (.done (.request request) (some response)) = true) :
    Moved rs m fstab w mem (.done (.request request) (some response))
      { disk := d', mem := some mem', runner := w.runner } := by
  have hlabel : records m fstab (.done (.request request) (some response)) = false ∧
      confirms m w (.done (.request request) (some response)) = false :=
    plain_label hother hcommitted
  obtain ⟨hrecords, hconfirms⟩ := hlabel
  refine .quiet rfl hmarker ?_ nofun hrecords hconfirms
    (fun harms => absurd harms harming)
  intro found hfound
  cases hfound
  exact ⟨hjournal, hpending⟩

variable (hsound : Sound rs host)
include hsound

/-- The requests that go through the commit-confirm cycle or the runner. -/
theorem special_moved (hmem : w.mem = some mem) (hgreeted : mem.greeted = true)
    (hspecial : Special request) {after : Mem} {d₁ d' : Disk} {r₁ r' : Runner} {mem' : Option Mem}
    (hdispatch : (dispatch m mem request).run (withRunner rs m.allow host) (w.disk, w.runner) =
      ((result, after), d₁, r₁))
    (hok : ∀ response, result = .ok response →
      answer = some response ∧ mem' = some after ∧ d' = d₁ ∧ r' = r₁)
    (herror : ∀ err, result = .error err →
      (leave m none after).run (withRunner rs m.allow host) (d₁, r₁) = ((answer, mem'), d', r')) :
    Moved rs m fstab w mem (.done (.request request) answer)
      { disk := d', mem := mem', runner := r' } := by
  unfold dispatch at hdispatch
  rw [if_pos hgreeted] at hdispatch
  cases request with
  | startConfirmTimer commit timeoutS service =>
    obtain ⟨hrun, rfl⟩ := run_quiet (startConfirmTimer_quiet _ _ _ _) hdispatch
    rcases startConfirmTimer_run hrun with ⟨rfl, rfl, hpending, err, rfl⟩ |
      ⟨hnone, hmarker, ⟨err, rfl, hafter⟩ | ⟨response, pending, record, rfl, hgoes⟩⟩
    · obtain ⟨rfl, rfl, rfl, rfl⟩ := hok _ rfl
      refine idle_moved rfl rfl rfl rfl (by simp) ?_
      intro harms
      simp only [arms, hmem, Option.any_some, Option.isNone_iff_eq_none] at harms
      exact hpending harms
    · have harms : arms w (.done (.request (.startConfirmTimer commit timeoutS service)) answer) =
          true := by
        simp [arms, hmem, hnone]
      obtain ⟨hending, ⟨-, rfl, rfl⟩ | ⟨pending, hsome, -⟩⟩ := leave_run hsound (herror err rfl)
      · obtain ⟨-, rfl⟩ := Prod.mk.inj hending
        exact .armed harms hnone nofun hmarker rfl rfl rfl
      · rw [hafter] at hsome
        cases hsome
    · obtain ⟨rfl, rfl, rfl, rfl⟩ := hok _ rfl
      have harms : arms w (.done (.request (.startConfirmTimer commit timeoutS service))
          (some response)) = true := by
        simp [arms, hmem, hnone]
      refine .armed harms hnone ?_ hmarker rfl rfl rfl
      intro mem' hmem'
      cases hmem'
      obtain ⟨hjournal, hpending, hwhole, hentries⟩ := hgoes
      exact ⟨hjournal, pending, record, hpending, hwhole, hentries⟩
  | mount target =>
    obtain ⟨response, ⟨d₂, r₂⟩, hmount, hend⟩ := run_bind_eq _ hdispatch
    cases hend
    obtain ⟨rfl, rfl, rfl, rfl⟩ := hok _ rfl
    obtain ⟨hfiles, rfl | hrunner⟩ := mount_run hmount
    · exact idle_moved (by rw [hfiles]) rfl rfl rfl (by simp) (by simp [arms])
    · exact .mounted rfl rfl hrunner (by rw [hfiles])
  | confirmCommit commit =>
    obtain ⟨response, rfl, hcases⟩ := confirmCommit_run hsound hdispatch
    obtain ⟨rfl, rfl, rfl, rfl⟩ := hok _ rfl
    rcases hcases with ⟨⟨hjournal, hpending, hfiles, rfl⟩, hcommitted⟩ |
      ⟨⟨hjournal, hpending, hmarker, pending, tick, hwas, hnamed, hrunner⟩, hcommitted⟩ |
      ⟨pending, hwas, hnamed, rfl, rfl, hmarker, hrunner⟩
    · exact idle_moved (by rw [hfiles]) hjournal hpending rfl (fun _ _ => hcommitted) (by simp [arms])
    · have hlabel : records m fstab (.done (.request (.confirmCommit commit)) (some response)) =
          false ∧ confirms m w (.done (.request (.confirmCommit commit)) (some response)) = false :=
        plain_label rfl (fun _ _ => hcommitted)
      refine .undone hwas ?_ hmarker hrunner hlabel.1 hlabel.2
      intro mem' hmem'
      cases hmem'
      exact ⟨hjournal, hpending, hnamed⟩
    · exact .confirmed hwas hnamed rfl rfl hmarker hrunner
  | rollbackCommit commit =>
    obtain ⟨⟨response, rfl⟩, hcases⟩ := rollbackCommit_run hsound hdispatch
    obtain ⟨rfl, rfl, rfl, rfl⟩ := hok _ rfl
    rcases hcases with ⟨hjournal, hpending, hfiles, rfl⟩ |
      ⟨hjournal, hpending, hmarker, pending, tick, hwas, hnamed, hrunner⟩
    · exact idle_moved (by rw [hfiles]) hjournal hpending rfl (by simp) (by simp [arms])
    · refine .undone hwas ?_ hmarker hrunner rfl rfl
      intro mem' hmem'
      cases hmem'
      exact ⟨hjournal, hpending, hnamed⟩
  | _ => exact hspecial.elim

theorem serve_moved (hmem : w.mem = some mem) {mem' : Option Mem} {d' : Disk} {r' : Runner}
    (h : (serveStep m mem request).run (withRunner rs m.allow host) (w.disk, w.runner) =
      ((answer, mem'), d', r')) :
    Moved rs m fstab w mem (.done (.request request) answer)
      { disk := d', mem := mem', runner := r' } := by
  obtain ⟨⟨result, after⟩, ⟨d₁, r₁⟩, hserve, hend⟩ := run_bind_eq _ h
  have hdispatch : (dispatch m mem request).run (withRunner rs m.allow host) (w.disk, w.runner) =
      ((result, after), d₁, r₁) := hserve
  by_cases hidle : ¬ mem.greeted = true ∨ (∃ proto, request = .hello proto) ∨ request = .shutdown
  · obtain ⟨rfl, rfl, hjournal, hpending, response, rfl, hother, hcommitted, hfatal⟩ :=
      dispatch_idle hidle hdispatch
    have hlabel : records m fstab (.done (.request request) (some response)) = false ∧
        confirms m w (.done (.request request) (some response)) = false :=
      plain_label hother hcommitted
    obtain ⟨hrecords, hconfirms⟩ := hlabel
    dsimp only at hend
    split at hend
    · have hanswer : answer = some response := (Prod.mk.inj (leave_run hsound hend).1).1
      rw [hanswer]
      exact leave_moved hsound rfl hpending hrecords hconfirms hend
    · next hgoes =>
      cases hend
      refine idle_moved rfl hjournal hpending hother hcommitted ?_
      intro harms
      unfold arms at harms
      split at harms
      · next heq =>
        cases heq
        exact hgoes (.inr (hfatal _ _ _ rfl))
      · cases harms
  · obtain ⟨hgreeted, hhello, hshutdown⟩ :
        mem.greeted = true ∧ (∀ proto, request ≠ .hello proto) ∧ request ≠ .shutdown := by
      push Not at hidle
      exact hidle
    have husual : UsualResult (result, after) := (dispatch_usual m hgreeted hhello).run hdispatch
    have hok : ∀ response, result = .ok response →
        answer = some response ∧ mem' = some after ∧ d' = d₁ ∧ r' = r₁ := by
      rintro response rfl
      have hnot : ¬ (request = .shutdown ∨ Response.fatal response = true) := by
        rintro (heq | hfatal)
        · exact hshutdown heq
        · rw [(husual response rfl).not_fatal] at hfatal
          cases hfatal
      dsimp only at hend
      rw [if_neg hnot] at hend
      cases hend
      exact ⟨rfl, rfl, rfl, rfl⟩
    by_cases hspecial : Special request
    · refine special_moved hsound hmem hgreeted hspecial hdispatch hok ?_
      rintro err rfl
      exact hend
    · have hmay : ¬ MayMount request := by
        cases request <;> first | exact hspecial | exact id
      obtain ⟨hrun, rfl⟩ := run_quiet (dispatch_quiet m mem hmay) hdispatch
      obtain ⟨hmarker, response, rfl, hcases⟩ := dispatch_plain hgreeted hspecial hrun
      obtain ⟨rfl, rfl, rfl, rfl⟩ := hok response rfl
      rcases hcases with ⟨rfl, hother⟩ | ⟨id, expectedPrev, bytes, journal, receipt, rfl, rfl, haccepted⟩
      · refine idle_moved hmarker rfl rfl hother ?_ ?_
        · rintro commit rfl
          exact (hspecial trivial).elim
        · intro harms
          unfold arms at harms
          split at harms
          · next heq =>
            cases heq
            exact hspecial trivial
          · cases harms
      · exact .wrote rfl haccepted rfl rfl hmarker

/-- Every program of a running monitor. -/
theorem done_moved (hmem : w.mem = some mem) {event : Event} {w' : MountWorld}
    (hstep : MountStep rs m host w (.done event response) w') :
    Moved rs m fstab w mem (.done event response) w' := by
  cases hstep with
  | done hprogram hrun =>
    rcases program_cases m hprogram with ⟨request, found, rfl, hfound, rfl⟩ | ⟨found, rfl, hfound, rfl⟩ |
      ⟨found, rfl, hfound, rfl⟩ | ⟨-, hdown, -⟩
    · obtain rfl := Option.some.inj (hfound.symm.trans hmem)
      exact serve_moved hsound hmem hrun
    · obtain rfl := Option.some.inj (hfound.symm.trans hmem)
      exact deadline_moved hsound hrun
    · obtain rfl := Option.some.inj (hfound.symm.trans hmem)
      exact exit_moved hsound hrun
    · rw [hmem] at hdown
      cases hdown

/-! ## A restart -/

/-- What the recovery does once the marker is read. -/
theorem recovery_run {record : PendingCommitMarker} {d d' : Disk} {r r' : Runner}
    {result : Except MonitorError (Option Recovered)}
    (h : exec (withRunner rs m.allow host) (rollBackRecorded m (some record)) (d, r) =
      (result, d', r')) :
    d'.pending = none ∧ r' = rolledBack rs m record.entries d.tick d.toFiles r := by
  obtain ⟨stopped, ⟨d₁, r₁⟩, hstop, h⟩ := exec_lift_bind _ h
  obtain ⟨results, ⟨d₂, r₂⟩, hrestore, h⟩ := exec_lift_bind _ h
  obtain ⟨reloaded, ⟨d₃, r₃⟩, hreload, h⟩ := exec_lift_bind _ h
  obtain ⟨replayed, ⟨d₄, r₄⟩, hreplay, h⟩ := exec_lift_bind _ h
  have hr₁ := (stopStartedMounts_run hstop).1
  have hr₂ := (run_quiet (restoreEntries_quiet _) hrestore).2
  have hr₃ := (run_quiet (replayReload_quiet m _) hreload).2
  have hr₄ := (run_quiet (replayService_quiet m _) hreplay).2
  rw [← hr₁, ← hr₂, ← hr₃, ← hr₄]
  have hstate : Uses NoMounts (stateCall "remove_file" .unlinkPending) :=
    uses_bind (Fallible.uses_perform trivial) (fun r => by cases r <;> trivial)
  have hunlink : ∀ {outcome : Except MonitorError Unit} {d₅ : Disk} {r₅ : Runner},
      exec (withRunner rs m.allow host) (stateCall "remove_file" .unlinkPending) (d₄, r₄) =
        (outcome, d₅, r₅) → d₅.pending = none ∧ r₅ = r₄ := by
    intro outcome d₅ r₅ hcall
    obtain ⟨hcall, hr₅⟩ := run_quiet hstate hcall
    refine ⟨?_, hr₅⟩
    have hexec : exec (sys host) (stateCall "remove_file" .unlinkPending) d₄ =
        (outcome, d₅) := hcall
    rw [exec_stateCall, FileOp.perform, hsound.unlinkPending] at hexec
    dsimp only [FileOp.effect] at hexec
    cases hpending : d₄.pending with
    | none =>
      rw [hpending] at hexec
      cases hexec
      exact hpending
    | some marker =>
      rw [hpending] at hexec
      cases hexec
      rfl
  rcases exec_bind_cases _ h with ⟨err, -, hcall⟩ | ⟨_, ⟨d₅, r₅⟩, hcall, hend⟩
  · exact hunlink hcall
  · cases hend
    exact hunlink hcall

/-- How a restart can have gone. -/
theorem start_run {mem' : Option Mem} {d d' : Disk} {r r' : Runner}
    (h : (startStep m).run (withRunner rs m.allow host) (d, r) = ((response, mem'), d', r')) :
    (∀ found, mem' = some found → found = Mem.new) ∧
      ((d'.pending = d.pending ∧ r' = r ∧
          (mem' = none ∨ d.pending = none)) ∨
        ∃ record tick f, d.pending = some (.whole record) ∧ d'.pending = none ∧
          r' = rolledBack rs m record.entries tick f r ∧ (d.inPlace = none → f = d.toFiles)) := by
  obtain ⟨result, ⟨d₁, r₁⟩, hrecover, hend⟩ := run_bind_eq _ h
  have hnew : (∀ found, mem' = some found → found = Mem.new) ∧ d₁ = d' ∧ r₁ = r' ∧
      (∀ err, result = .error err → mem' = none) := by
    cases result with
    | ok recovered =>
      cases hend
      exact ⟨fun found hfound => (Option.some.inj hfound).symm, rfl, rfl, nofun⟩
    | error err =>
      cases hend
      exact ⟨nofun, rfl, rfl, fun _ _ => rfl⟩
  obtain ⟨hnew, rfl, rfl, herror⟩ := hnew
  refine ⟨hnew, ?_⟩
  have hexec : exec (withRunner rs m.allow host) (recoverPending m) (d, r) =
      (result, d₁, r₁) := hrecover
  have hstate : Uses NoMounts (stateCall "read" .readPending) :=
    uses_bind (Fallible.uses_perform trivial) (fun r => by cases r <;> trivial)
  have hkept : ∀ {outcome : Except MonitorError (Option InPlaceRecovered)} {d₂ : Disk} {r₂ : Runner},
      exec (withRunner rs m.allow host) (recoverInPlace m) (d, r) = (outcome, d₂, r₂) →
      d₂.pending = d.pending ∧ r₂ = r ∧ (d.inPlace = none → d₂.toFiles = d.toFiles) := by
    intro outcome d₂ r₂ hinPlace
    obtain ⟨hinPlace, hr₂⟩ := run_quiet (recoverInPlace_quiet m) hinPlace
    refine ⟨(exec_agree (recoverInPlace_confined m) hinPlace).pending (by simp [notPending]), hr₂, ?_⟩
    intro hnone
    rcases recoverInPlace_cases m hinPlace with ⟨hsame, -⟩ | ⟨record, d₃, hsome, -⟩
    · exact hsame
    · rw [hnone] at hsome
      cases hsome
  rcases exec_bind_cases _ hexec with ⟨err, herr, hinPlace⟩ |
    ⟨recovered, ⟨d₂, r₂⟩, hinPlace, hexec⟩
  · obtain ⟨hpending, hr₁, -⟩ := hkept hinPlace
    exact .inl ⟨hpending, hr₁, .inl (herror err herr)⟩
  obtain ⟨hd₂, hr₂, hfiles⟩ := hkept hinPlace
  rcases exec_bind_cases _ hexec with ⟨err, herr, hread⟩ | ⟨found, ⟨d₃, r₃⟩, hread, hexec⟩
  · obtain ⟨hread, hr₁⟩ := run_quiet hstate hread
    have hd₁ : d₁.toFiles = d₂.toFiles := exec_reads (stateCall_confined (.inl rfl)) hread
    exact .inl ⟨by rw [hd₁, hd₂], hr₁.trans hr₂, .inl (herror err herr)⟩
  obtain ⟨hread, hr₃⟩ := run_quiet hstate hread
  have hd₃ : d₃.toFiles = d₂.toFiles := exec_reads (stateCall_confined (.inl rfl)) hread
  have hfound : d₂.pending = found := by
    have heffect := (stateCall_ok hread).1
    injection heffect with heffect
    exact (Prod.mk.inj heffect).1
  cases found with
  | none =>
    cases hexec
    exact .inl ⟨by rw [hd₃, hd₂], hr₃.trans hr₂, .inr (by rw [← hd₂, hfound])⟩
  | some stored =>
    cases stored with
    | torn written =>
      cases hexec
      exact .inl ⟨by rw [hd₃, hd₂], hr₃.trans hr₂, .inl (herror _ rfl)⟩
    | whole record =>
      obtain ⟨hpending, hrunner⟩ := recovery_run hsound hexec
      rw [hr₃, hr₂] at hrunner
      exact .inr ⟨record, d₃.tick, d₃.toFiles, by rw [← hd₂, hfound], hpending, hrunner,
        fun hnone => by rw [hd₃, hfiles hnone]⟩

omit hsound

end Steps

end Detent.Guarantees.MountTurns
