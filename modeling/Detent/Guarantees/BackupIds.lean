import Detent.Guarantees.Handlers

/-!
# Backup ids and the listing they come from

A `BackupId` is a position in the listing the monitor sent last for the module.
`Restore` does not look at that listing: it makes a new one and takes the same
position. The two agree while the backup directories of the module's targets are
as they were when the listing was sent. A backup taken in between moves every
position.
-/
namespace Detent.Guarantees.BackupIds
open Lib Source Source.Monitor

section Sessions

variable [Sha256]

/-- A listing that was sent, and the backup directories it was made from. -/
structure Sent where
  entries : List BackupInfo
  backups : Path → BackupDir

/-- The monitor, and the most recent listing sent for each module on the
connection. -/
structure Session where
  world : World
  sent : ModuleId → Option Sent

/-- The listings sent after a step; a connection ends with its monitor. -/
def sentAfter (s : Session) : Label → ModuleId → Option Sent
  | .done (.request (.listBackups module)) (some (.backups entries)) =>
    Function.update s.sent module (some { entries, backups := s.world.disk.backups })
  | .done (.request _) _ | .done .deadline _ | .edit .. => s.sent
  | .done .exit _ | .done .restart _ | .crash _ => fun _ => none

/-- One step of a session. -/
structure SessionStep (m : Setup) (host : Host) (s : Session) (label : Label) (s' : Session) :
    Prop where
  world : Step m host s.world label s'.world
  sent : s'.sent = sentAfter s label

variable (m : Setup) {host : Host}

/-- The condition on a step: a restore finds the backup directories of the module
as they were when its last listing was sent. -/
def Undisturbed (s : Session) : Label → Prop
  | .done (.request (.restore module _)) _ =>
    ∀ sent, s.sent module = some sent → ∀ target ∈ m.allow.targetsOf module,
      s.world.disk.backups target.backupDir = sent.backups target.backupDir
  | _ => True

/-- Every listing sent is the listing of the directories it was made from. -/
def Faithful (s : Session) : Prop :=
  ∀ module sent, s.sent module = some sent →
    sent.entries = listing (listingOf m module sent.backups)

theorem listBackups_answer {d d' : Disk} {mem : Mem} {mem' : Option Mem} {module : ModuleId}
    {entries : List BackupInfo}
    (h : (serveStep m mem (.listBackups module)).run (sys host) d =
      ((some (.backups entries), mem'), d')) :
    entries = listing (listingOf m module d.backups) := by
  have husual : Usual (.backups entries) := trivial
  obtain ⟨after, -, hdispatch⟩ := serveStep_answered m (by simp) husual h
  have hgreeted := greeted_of_answer m (by simp) husual hdispatch
  rw [dispatch, if_pos hgreeted] at hdispatch
  obtain ⟨response, hresponse, -, hlist⟩ := answer_run hdispatch
  cases hresponse
  obtain ⟨rows, d₁, hrows, hlist⟩ := Prog.run_bind_eq _ hlist
  cases rows with
  | error err => cases hlist
  | ok rows =>
    cases hlist
    rw [(collectBackups_ok hrows).1]

theorem step_faithful {s s' : Session} {label : Label} (hs : Faithful m s)
    (hstep : SessionStep m host s label s') : Faithful m s' := by
  obtain ⟨hworld, hsent⟩ := hstep
  intro module sent hmodule
  rw [hsent] at hmodule
  unfold sentAfter at hmodule
  split at hmodule
  · rename_i listed entries
    by_cases heq : module = listed
    · subst heq
      rw [Function.update_self] at hmodule
      cases hmodule
      obtain ⟨mem, -, hrun⟩ := step_request m hworld
      exact listBackups_answer m hrun
    · rw [Function.update_of_ne heq] at hmodule
      exact hs module sent hmodule
  · exact hs module sent hmodule
  · exact hs module sent hmodule
  · exact hs module sent hmodule
  all_goals cases hmodule

omit [Sha256] in
theorem getElem?_listing (rows : List Row) (index : Nat) :
    (listing rows)[index]? = rows[index]?.map (fun row => row.info index) := by
  rw [listing, List.getElem?_map, List.getElem?_zipIdx, Option.map_map]
  congr 1
  funext row
  simp

/-- What `Restored` wrote is the entry with that id in the last listing. -/
def Denotes (s s' : Session) (module : ModuleId) (backup : BackupId) (target : TargetId)
    (digest : Sha256Digest) : Prop :=
  ∀ sent, s.sent module = some sent → ∃ info entry contents,
    sent.entries[backup.get]? = some info ∧ info.id = backup ∧ info.target = target ∧
      info.digest = digest ∧ m.allow.target target = some entry ∧
      s'.world.disk.node entry.path = some (.file contents) ∧ Sha256.of contents = info.digest

/-- A restore that was answered wrote the contents of a row of the listing. -/
theorem restore_answer {d d' : Disk} {mem : Mem} {mem' : Option Mem} {module : ModuleId}
    {backup : BackupId} {target : TargetId} {digest : Sha256Digest}
    (h : (serveStep m mem (.restore module backup)).run (sys host) d =
      ((some (.restored target digest), mem'), d')) :
    ∃ row entry contents, (listingOf m module d.backups)[backup.get]? = some row ∧
      row.target = target ∧ row.entry.digest = digest ∧ m.allow.target target = some entry ∧
      d'.node entry.path = some (.file contents) ∧ Sha256.of contents = digest := by
  have husual : Usual (.restored target digest) := trivial
  obtain ⟨after, -, hdispatch⟩ := serveStep_answered m (by simp) husual h
  have hgreeted := greeted_of_answer m (by simp) husual hdispatch
  rw [dispatch, if_pos hgreeted] at hdispatch
  obtain ⟨response, hresponse, -, hrestore⟩ := answer_run hdispatch
  cases hresponse
  rcases restore_cases hrestore with ⟨-, err, herr⟩ | ⟨row, d₁, r, hrow, hd₁, -, hwrite, hcases⟩
  · cases herr
  rcases hcases with ⟨err, -, herr⟩ | ⟨outcome, rfl, hout⟩
  · cases herr
  cases hout
  obtain ⟨file, previous, hfile, hwrote⟩ := restoreBackupWith_ok hwrite
  obtain ⟨listed, hlisted, found, htarget, hpath, hentry, hfound⟩ :=
    mem_listingOf (List.mem_of_getElem? hrow)
  -- the row names the file that was read
  have hsame : file = found := by
    rw [hd₁, Files.backup, hentry] at hfile
    exact Option.some.inj (hfile.symm.trans hfound)
  subst hsame
  refine ⟨row, listed, file.contents, hrow, rfl, ?_, ?_, ?_, ?_⟩
  · rw [hwrote.newDigest, hentry]
    rfl
  · rw [htarget]
    exact TargetTable.get_of_mem (List.mem_of_mem_filter hlisted)
  · rw [hwrote.written, ← hpath]
    exact Function.update_self _ _ _
  · rw [hwrote.newDigest]
    rfl

theorem restore_denotes {s s' : Session} {module : ModuleId} {backup : BackupId} {target : TargetId}
    {digest : Sha256Digest} (hs : Faithful m s)
    (hquiet : Undisturbed m s
      (.done (.request (.restore module backup)) (some (.restored target digest))))
    (hstep : SessionStep m host s
      (.done (.request (.restore module backup)) (some (.restored target digest))) s') :
    Denotes m s s' module backup target digest := by
  intro sent hsent
  have hlisting := listingOf_congr (m := m) (hquiet sent hsent)
  obtain ⟨hworld, -⟩ := hstep
  obtain ⟨mem, -, hrun⟩ := step_request m hworld
  obtain ⟨row, entry, contents, hrow, htarget, hdigest, hentry, hnode, hcontents⟩ :=
    restore_answer m hrun
  refine ⟨row.info backup.get, entry, contents, ?_, rfl, htarget, hdigest, hentry, hnode, ?_⟩
  · rw [hs module sent hsent, getElem?_listing, ← hlisting, hrow]
    rfl
  · rw [hcontents]
    exact hdigest.symm

/-- In every run of a connection in which every restore finds the directories of
its module as they were listed, every restore writes what the listing said. -/
theorem restored_denotes_listed {s s₁ s₂ : Session} {labels : List Label} {module : ModuleId}
    {backup : BackupId} {target : TargetId} {digest : Sha256Digest}
    (hstart : s.sent = fun _ => none)
    (hrun : Run (Guarded (Undisturbed m) (SessionStep m host)) s labels s₁)
    (hrestore : Guarded (Undisturbed m) (SessionStep m host) s₁
      (.done (.request (.restore module backup)) (some (.restored target digest))) s₂) :
    Denotes m s₁ s₂ module backup target digest := by
  have hinit : Faithful m s := by
    intro module sent hsent
    rw [hstart] at hsent
    cases hsent
  have hfaithful : Faithful m s₁ :=
    hrun.invariant (I := Faithful m) (fun _ _ _ h hstep => step_faithful m h hstep.2) hinit
  exact restore_denotes m hfaithful hrestore.1 hrestore.2

end Sessions

section Runs

attribute [local instance] Sample.sha256

/-- Write `b` over `a`, list, write `c` over `b`. -/
def first : World := Sample.serve 20 (Sample.world [97]) (.writeTarget ⟨0⟩ none [98] false)

def listed : World := Sample.serve 20 first (.listBackups ⟨0⟩)

def second : World := Sample.serve 20 listed (.writeTarget ⟨0⟩ none [99] false)

/-- The one entry of the listing: the backup of `a`. -/
def listedEntry : BackupInfo where
  id := ⟨0⟩
  target := ⟨0⟩
  name := { stamp := 2, short := "ca978112" }
  createdUnixS := 0
  digest := Sha256.of [97]
  len := 1

def unlisted (w : World) : Session := { world := w, sent := fun _ => none }

def withListing (w : World) : Session where
  world := w
  sent := Function.update (fun _ => none) ⟨0⟩
    (some { entries := [listedEntry], backups := first.disk.backups })

def writeLabel (from_ to_ : Bytes) : Label :=
  .done (.request (.writeTarget ⟨0⟩ none to_ false)) (some (.written
    { target := ⟨0⟩, prevDigest := some (Sha256.of from_), newDigest := Sha256.of to_
      created := false, backedUp := true, ownerPreserved := true }))

def listLabel : Label := .done (.request (.listBackups ⟨0⟩)) (some (.backups [listedEntry]))

theorem first_step : SessionStep (Sample.setup 20) Sample.host (unlisted (Sample.world [97]))
    (writeLabel [97] [98]) (unlisted first) :=
  ⟨Sample.serve_step rfl (by decide), rfl⟩

theorem list_step : SessionStep (Sample.setup 20) Sample.host (unlisted first) listLabel
    (withListing listed) :=
  ⟨Sample.serve_step (by decide) (by decide), rfl⟩

theorem second_step : SessionStep (Sample.setup 20) Sample.host (withListing listed)
    (writeLabel [98] [99]) (withListing second) :=
  ⟨Sample.serve_step (by decide) (by decide), rfl⟩

theorem write_undisturbed (s : Session) (from_ to_ : Bytes) :
    Undisturbed (Sample.setup 20) s (writeLabel from_ to_) := trivial

theorem list_undisturbed (s : Session) : Undisturbed (Sample.setup 20) s listLabel := trivial

theorem withListing_sent (w : World) : (withListing w).sent ⟨0⟩ =
    some { entries := [listedEntry], backups := first.disk.backups } := by
  simp [withListing]

/-- Listing the backups moves none of them. -/
theorem listed_backups : (listed.disk.backups Sample.backupDir) =
    first.disk.backups Sample.backupDir := by
  have hfiles : (listed.disk.backups Sample.backupDir).files =
      (first.disk.backups Sample.backupDir).files := by decide
  rcases hl : listed.disk.backups Sample.backupDir with ⟨files, unique⟩
  rcases hf : first.disk.backups Sample.backupDir with ⟨files', unique'⟩
  rw [hl, hf] at hfiles
  subst hfiles
  rfl

theorem listed_undisturbed (response : Option Response) :
    Undisturbed (Sample.setup 20) (withListing listed)
      (.done (.request (.restore ⟨0⟩ ⟨0⟩)) response) := by
  intro sent hsent target htarget
  rw [withListing_sent] at hsent
  cases hsent
  have htargets : (Sample.setup 20).allow.targetsOf ⟨0⟩ =
      [{ id := ⟨0⟩, module := ⟨0⟩, path := Sample.path, kind := .file
         backupDir := Sample.backupDir }] := by decide
  rw [htargets, List.mem_singleton] at htarget
  subst htarget
  exact listed_backups

/-- Restored right after the listing, id 0 is the backup of `a`. -/
theorem restore_after_listing :
    Denotes (Sample.setup 20) (withListing listed)
      (withListing (Sample.serve 20 listed (.restore ⟨0⟩ ⟨0⟩))) ⟨0⟩ ⟨0⟩ ⟨0⟩ (Sha256.of [97]) := by
  have hrun : Run (Guarded (Undisturbed (Sample.setup 20))
      (SessionStep (Sample.setup 20) Sample.host)) (unlisted (Sample.world [97]))
      [writeLabel [97] [98], listLabel] (withListing listed) :=
    Run.cons ⟨write_undisturbed _ _ _, first_step⟩
      (Run.cons ⟨list_undisturbed _, list_step⟩ (Run.nil _))
  exact restored_denotes_listed (Sample.setup 20) rfl hrun
    ⟨listed_undisturbed _, Sample.serve_step (by decide) (by decide), rfl⟩

/-- Restored after another write, id 0 is the backup of `b`: the listing said `a`,
and the backup of `a` is still there. -/
theorem restore_denotes_other :
    Run (SessionStep (Sample.setup 20) Sample.host) (unlisted (Sample.world [97]))
      [writeLabel [97] [98], listLabel, writeLabel [98] [99]] (withListing second) ∧
    SessionStep (Sample.setup 20) Sample.host (withListing second)
      (.done (.request (.restore ⟨0⟩ ⟨0⟩)) (some (.restored ⟨0⟩ (Sha256.of [98]))))
      (withListing (Sample.serve 20 second (.restore ⟨0⟩ ⟨0⟩))) ∧
    ((second.disk.backups Sample.backupDir).find listedEntry.name).map (·.contents) = some [97] ∧
    ¬ Denotes (Sample.setup 20) (withListing second)
      (withListing (Sample.serve 20 second (.restore ⟨0⟩ ⟨0⟩))) ⟨0⟩ ⟨0⟩ ⟨0⟩ (Sha256.of [98]) := by
  refine ⟨?_, ⟨Sample.serve_step (by decide) (by decide), rfl⟩,
    by decide, ?_⟩
  · exact Run.cons first_step (Run.cons list_step (Run.cons second_step (Run.nil _)))
  · intro hdenotes
    obtain ⟨info, entry, contents, hinfo, -, -, hdigest, -⟩ := hdenotes _ (withListing_sent second)
    cases hinfo
    revert hdigest
    decide

end Runs

end Detent.Guarantees.BackupIds
