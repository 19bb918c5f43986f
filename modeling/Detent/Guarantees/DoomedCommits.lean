import Detent.Guarantees.Crashes
import Detent.Guarantees.MemoryTurns
import Detent.Guarantees.Progress
import Detent.Guarantees.QuietSessions

/-!
# Commits that nobody confirms

A commit that covers one write is rolled back by its deadline, by a request or by
the end of the monitor, whichever comes first. On a host whose calls work the
rollback succeeds: the backup of the write is there, a name for one more backup is
free, and what the write left is what the rollback expects. So the previous contents
come back in the end.
-/
namespace Detent.Guarantees
open Lib Source Source.Atomic Source.Engine Source.Monitor
open Fallible (exec exec_bind_eq_ok)

section Names

variable {dir : Path} {keep : Nat} {contents : Bytes} {name : BackupName} {f f' : Files}

/-- Among so few names one of those that are tried is free. -/
theorem freeName_of_few {files : BackupDir} (hfew : files.names.length < nameAttempts)
    (short : String) (now : Nat) : FreeName files short now := by
  by_contra hnone
  have hall : ∀ attempt, attempt < nameAttempts →
      ({ stamp := now + attempt, short } : BackupName) ∈ files.names := by
    intro attempt hlt
    by_contra hfree
    exact hnone ⟨attempt, hlt, hfree⟩
  have hnodup : ((List.range nameAttempts).map
      (fun attempt => ({ stamp := now + attempt, short } : BackupName))).Nodup := by
    refine List.Nodup.map (fun i j hij => ?_) List.nodup_range
    have hstamp : now + i = now + j := congrArg BackupName.stamp hij
    omega
  have hsub := List.subperm_of_subset hnodup (fun tried htried => by
    obtain ⟨attempt, hattempt, rfl⟩ := List.mem_map.mp htried
    exact hall attempt (List.mem_range.mp hattempt))
  have hle := hsub.length_le
  rw [List.length_map, List.length_range] at hle
  omega

/-- A rotation leaves `keep` backups at most. -/
theorem took_length (h : Took dir keep contents name f f') (hkeep : 0 < keep) :
    (f'.backups dir).names.length ≤ keep := by
  obtain ⟨modified, hfiles⟩ := h.files
  have hnames : (f'.backups dir).names = ((f.backups dir).names ++ [name]).filter
      (fun other => other ∉ surplus keep name ((f.backups dir).names ++ [name])) := by
    rw [BackupDir.names, hfiles, names_without, List.map_append]
    rfl
  have hnodup : (f'.backups dir).names.Nodup := (f'.backups dir).unique
  generalize hall : (f.backups dir).names ++ [name] = all at hnames
  unfold surplus at hnames
  split at hnames
  · next hfew =>
    rw [hnames]
    exact (List.length_filter_le _ _).trans hfew
  · -- what stays is the newest, or among the first of the others
    have hsub : (f'.backups dir).names ⊆
        name :: ((all.filter (· ≠ name)).insertionSort BackupName.After).take (keep - 1) := by
      intro other hother
      rw [hnames, List.mem_filter] at hother
      obtain ⟨hmem, hkept⟩ := hother
      by_cases hname : other = name
      · exact hname ▸ List.mem_cons_self
      · have hsorted : other ∈ (all.filter (· ≠ name)).insertionSort BackupName.After :=
          (List.mem_insertionSort _).mpr (List.mem_filter.mpr ⟨hmem, by simpa using hname⟩)
        rw [← List.take_append_drop (keep - 1)
          ((all.filter (· ≠ name)).insertionSort BackupName.After)] at hsorted
        rcases List.mem_append.mp hsorted with hfirst | hrest
        · exact List.mem_cons_of_mem _ hfirst
        · exact absurd hrest (by simpa using hkept)
    have hle := (List.subperm_of_subset hnodup hsub).length_le
    rw [List.length_cons, List.length_take] at hle
    omega

end Names

section Undo

variable [Sha256] (m : Setup) (host : Host) (entry : RollbackEntry) (old : Bytes)

/-- Nothing keeps the rollback of the entry from putting `old` back. -/
structure Undoable (f : Files) : Prop where
  written : ∃ new, f.node entry.path = some (.file new) ∧ entry.newDigest = some (Sha256.of new)
  held : Holds entry.backup old f
  few : (f.backups entry.backup.dir).names.length < nameAttempts
  inPlace : host.tempRefused entry.path = true → f.inPlace = none

/-- The previous contents are back. -/
def Undone (f : Files) : Prop := f.node entry.path = some (.file old)

/-- The commit of the entry is pending and can be undone, or it was undone. -/
def Fated (mem : Mem) (f : Files) : Prop :=
  (Undoable host entry old f ∧ ∃ pending, mem.pending = some pending ∧ pending.entries = [entry]) ∨
    Undone entry old f ∧ mem.pending = none

variable {m host entry old} {d d' : Disk}

theorem Undoable.of_pending {f : Files} (h : Undoable host entry old f)
    (marker : Option (MarkerFile PendingCommitMarker)) :
    Undoable host entry old { f with pending := marker } where
  written := h.written
  held := h.held
  few := h.few
  inPlace := h.inPlace

theorem restoreEntry_undoes (hhost : Works host) (h : Undoable host entry old d.toFiles)
    {r : Except AtomicError WriteOutcome} (hrun : (restoreEntry entry).run (sys host) d = (r, d')) :
    Undone entry old d'.toFiles := by
  obtain ⟨new, hnode, hdigest⟩ := h.written
  obtain ⟨file, hfile, hcontents⟩ := h.held
  have heffect : (FileOp.readBackup entry.backup).effect host d.tick d.toFiles =
      .ok (file, d.toFiles) := by
    simp only [FileOp.effect, hfile]
  have hexpected : ∀ digest, entry.newDigest = some digest → Sha256.of new = digest := by
    intro digest hsome
    rw [hdigest] at hsome
    exact Option.some.inj hsome
  have hworks : ∃ outcome t, exec (sys host) (writeAtomic (restoreRequest entry.backup
      entry.path file.contents entry.newDigest .marker)) { d with tick := d.tick + 1 } =
        (.ok outcome, t) :=
    writeAtomic_works (d := { d with tick := d.tick + 1 }) hhost hnode hexpected
      (fun _ => freeName_of_few h.few _ _)
      (fun htemp => .inr ⟨rfl, Nat.succ_pos _, h.inPlace htemp⟩)
  obtain ⟨outcome, t, hworks⟩ := hworks
  have hexec : exec (sys host)
      (restoreBackupWith entry.backup entry.path entry.newDigest .marker) d = (.ok outcome, t) := by
    unfold restoreBackupWith
    rw [Fallible.exec_bind_ok _ (exec_call_effect (hhost _ _) heffect)]
    exact hworks
  obtain rfl : t = d' := congrArg Prod.snd (hexec.symm.trans hrun)
  obtain ⟨found, previous, hfound, hwrote⟩ := restoreBackupWith_ok hexec
  obtain rfl : file = found := Option.some.inj (hfile.symm.trans hfound)
  unfold Undone
  rw [hwrote.written, ← hcontents]
  exact Function.update_self _ _ _

theorem undo_undoes (hhost : Works host) {pending : Pending} (hentries : pending.entries = [entry])
    (h : Undoable host entry old d.toFiles) {r : Except MonitorError Nat}
    (hrun : (undo m pending).run (sys host) d = (r, d')) : Undone entry old d'.toFiles := by
  obtain ⟨_, d₁, hmounts, hrun⟩ := Prog.run_bind_eq _ hrun
  obtain ⟨restored, d₂, hrestore, hrun⟩ := Prog.run_bind_eq _ hrun
  obtain ⟨_, d₃, hreload, hrun⟩ := Prog.run_bind_eq _ hrun
  obtain ⟨_, d₄, hservice, hrun⟩ := Prog.run_bind_eq _ hrun
  obtain ⟨cleared, d₅, hclear, hrun⟩ := Prog.run_bind_eq _ hrun
  have hd₁ : d₁.toFiles = d.toFiles := run_reads (stopStartedMounts_uses m _) hmounts
  have hd₃ : d₃.toFiles = d₂.toFiles := run_reads (replayReload_uses m _) hreload
  have hd₄ : d₄.toFiles = d₃.toFiles := run_reads (replayService_uses m _) hservice
  have hd₅ : d₅.node entry.path = d₄.node entry.path :=
    (run_agree (clearMarker_uses pendingOnly_pending) hclear).node _ (by simp [pendingOnly])
  have hd' : d' = d₅ := by
    cases cleared <;> cases hrun <;> rfl
  -- the one entry is restored
  rw [hentries] at hrestore
  obtain ⟨results, t, hresults, hrestore⟩ := Prog.run_bind_eq _ hrestore
  cases hrestore
  obtain ⟨result, t₁, hentry, hresults⟩ := Prog.run_bind_eq _ hresults
  obtain ⟨rest, t₂, hnil, hresults⟩ := Prog.run_bind_eq _ hresults
  cases hnil
  cases hresults
  have hundone : Undone entry old d₂.toFiles :=
    restoreEntry_undoes hhost (d := d₁) (by rwa [hd₁]) hentry
  unfold Undone at hundone ⊢
  rw [hd', hd₅, hd₄, hd₃]
  exact hundone

/-- Nothing that may still happen stops the rollback. -/
theorem fated_stable (hhost : Works host) :
    Stable m host Leaves (Fated host entry old) (Undone entry old) where
  dispatch := by
    rintro mem mem' request r d d' hleaves hmem hrun
    by_cases hroll : (∃ commit, request = .rollbackCommit commit) ∧ mem.greeted = true
    · obtain ⟨⟨commit, rfl⟩, hgreeted⟩ := hroll
      unfold Monitor.dispatch at hrun
      rw [if_pos hgreeted] at hrun
      rcases hmem with ⟨hundoable, pending, hpending, hentries⟩ | ⟨hundone, hnone⟩
      · dsimp only at hrun
        unfold Monitor.rollbackCommit at hrun
        rw [hpending] at hrun
        dsimp only at hrun
        split at hrun
        · obtain ⟨undone, d₁, hundo, hrun⟩ := Prog.run_bind_eq _ hrun
          have hback := undo_undoes hhost hentries hundoable hundo
          cases undone <;> cases hrun <;> exact .inr ⟨hback, rfl⟩
        · cases hrun
          exact .inl ⟨hundoable, pending, hpending, hentries⟩
      · obtain ⟨rfl, rfl⟩ := rollbackCommit_idle hnone hrun
        exact .inr ⟨hundone, hnone⟩
    · have hsame : mem'.pending = mem.pending ∧ d'.toFiles = d.toFiles := by
        by_cases hgreeted : mem.greeted = true
        · obtain ⟨hpending, -, hfiles⟩ := dispatch_rests hleaves
            (fun commit heq => hroll ⟨⟨commit, heq⟩, hgreeted⟩) hrun
          exact ⟨hpending, hfiles⟩
        · rw [dispatch_ungreeted m hgreeted] at hrun
          obtain ⟨hpending, -⟩ := greet_mem m mem request
          cases hrun
          exact ⟨hpending, rfl⟩
      unfold Fated
      rw [hsame.1, hsame.2]
      exact hmem
  deadline := by
    rintro mem mem' r d d' hmem hrun
    unfold enforceDeadline at hrun
    rcases hmem with ⟨hundoable, pending, hpending, hentries⟩ | ⟨hundone, hnone⟩
    · rw [hpending] at hrun
      obtain ⟨now, d₁, hnow, hrun⟩ := Prog.run_bind_eq _ hrun
      have hd₁ : d₁.toFiles = d.toFiles := by
        cases hnow
        rfl
      split at hrun
      · obtain ⟨undone, d₂, hundo, hrun⟩ := Prog.run_bind_eq _ hrun
        have hback := undo_undoes hhost hentries (d := d₁) (by rwa [hd₁]) hundo
        cases undone <;> cases hrun <;> exact .inr ⟨hback, rfl⟩
      · cases hrun
        exact .inl ⟨by rwa [hd₁], pending, hpending, hentries⟩
    · rw [hnone] at hrun
      cases hrun
      exact .inr ⟨hundone, hnone⟩
  exit := by
    rintro mem r d d' hmem hrun
    unfold rollbackPendingOnExit at hrun
    rcases hmem with ⟨hundoable, pending, hpending, hentries⟩ | ⟨hundone, hnone⟩
    · rw [hpending] at hrun
      obtain ⟨undone, d₁, hundo, hrun⟩ := Prog.run_bind_eq _ hrun
      have hback := undo_undoes hhost hentries hundoable hundo
      cases undone <;> cases hrun <;> exact hback
    · rw [hnone] at hrun
      cases hrun
      exact hundone

variable {existing : Option Existing} {req : WriteRequest} {outcome : WriteOutcome}

omit [Sha256] in
theorem replaceContents_not_refused {path : Path} {contents : Bytes} {preserved : Bool}
    (h : exec (sys host) (replaceContents path contents existing) d = (.ok preserved, d')) :
    host.tempRefused path = false := by
  obtain ⟨_, d₁, hcreate, h⟩ := exec_bind_eq_ok _ h
  obtain ⟨heffect, -⟩ := call_ok hcreate
  cases hrefused : host.tempRefused path with
  | false => rfl
  | true => simp [FileOp.effect, hrefused] at heffect

/-- A replacement without a temp file found no marker of another one. -/
theorem install_inPlace {backup : Option BackupPath} {preserved : Bool}
    (hmode : req.inPlace = .marker) (hrefused : host.tempRefused req.path = true)
    (h : exec (sys host) (install req existing backup) d = (.ok preserved, d')) :
    d.inPlace = none := by
  obtain ⟨result, d₁, hreplace, h⟩ := exec_bind_eq_ok _ h
  rw [Fallible.exec_attempt] at hreplace
  injection hreplace with hresult hd₁
  injection hresult with hresult
  have hreplaced : exec (sys host) (replaceContents req.path req.contents existing) d =
      (result, d₁) := Prod.ext hresult hd₁
  have hconfined : Confined (· = .node req.path)
      (replaceContents req.path req.contents existing) := by
    apply replaceContents_confined
    rfl
  have hkept := (exec_agree hconfined hreplaced).inPlace (by simp)
  match result, existing with
  | .ok _, _ =>
    rw [replaceContents_not_refused hreplaced] at hrefused
    cases hrefused
  | .error err, none => cases h
  | .error err, some found =>
    dsimp only at h
    split at h
    · unfold installInPlace at h
      rw [hmode] at h
      cases backup with
      | none => cases h
      | some backup =>
        obtain ⟨_, d₂, hmarker, h⟩ := exec_bind_eq_ok _ h
        exact hkept.symm.trans (writeMarker_ok hmarker).1
    · cases h

/-- A write that the directory of the target forced in place leaves no marker. -/
theorem writeAtomic_inPlace (hmode : req.inPlace = .marker)
    (hrefused : host.tempRefused req.path = true)
    (h : exec (sys host) (writeAtomic req) d = (.ok outcome, d')) : d'.inPlace = none := by
  obtain ⟨previous, hwrote⟩ := writeAtomic_ok h
  rw [hwrote.inPlace]
  obtain ⟨existing, d₁, hread, h⟩ := exec_bind_eq_ok _ h
  obtain ⟨_, d₂, hcheck, h⟩ := exec_bind_eq_ok _ h
  obtain ⟨backup, d₃, hbackup, h⟩ := exec_bind_eq_ok _ h
  obtain ⟨preserved, d₄, hinstall, h⟩ := exec_bind_eq_ok _ h
  have hd₂ : d₂.toFiles = d.toFiles :=
    (exec_reads (checkExpected_confined _ _) hcheck).trans
      (exec_reads (readExisting_confined _) hread)
  have hconfined : Confined (· = .backups req.backupDir) (backUp req existing) := by
    apply backUp_confined
    rfl
  rw [← hd₂, ← (exec_agree hconfined hbackup).inPlace (by simp)]
  exact install_inPlace hmode hrefused hinstall

theorem undoable_of_write {backup : BackupPath} (hmode : req.inPlace = .marker)
    (hkeep : req.keepBackups < nameAttempts)
    (h : exec (sys host) (writeAtomic req) d = (.ok outcome, d'))
    (hbackup : outcome.backup = some backup) (target : Nat) :
    ∃ previous, d.node req.path = some (.file previous) ∧ Undoable host
      { target, path := req.path, backup, newDigest := some outcome.newDigest } previous d'.toFiles := by
  obtain ⟨previous, hwrote⟩ := writeAtomic_ok h
  have hbacked := hwrote.backed
  rw [hbackup] at hbacked
  rcases hbacked with ⟨hnone, -⟩ | ⟨contents, name, rfl, hpositive, hname, htook⟩
  · cases hnone
  · cases hname
    refine ⟨contents, hwrote.found, ⟨req.contents, ?_, ?_⟩, ?_, ?_, ?_⟩
    · rw [hwrote.written]
      exact Function.update_self _ _ _
    · rw [hwrote.newDigest]
    · have hholds : Backed req (some contents) (some { dir := req.backupDir, name }) d.toFiles
          d'.toFiles := .inr ⟨contents, name, rfl, hpositive, rfl, htook⟩
      exact hholds.holds.2
    · exact (took_length htook hpositive).trans_lt hkeep
    · exact fun hrefused => writeAtomic_inPlace hmode hrefused h

end Undo

end Detent.Guarantees
