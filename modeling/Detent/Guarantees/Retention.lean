import Detent.Guarantees.Handlers
import Detent.Guarantees.Progress

/-!
# Backup retention

With a clock that only moves forward, the backups of a directory are in the order
they were taken, and a rotation to `keep` leaves the newest `keep` of them. The
write path rotates to the configured number. `restore_backup_with` builds its own
request and rotates to `DEFAULT_KEEP_BACKUPS`, so the newest `k` stay exactly as
long as a restore rotates to the same number or has nothing to delete.
-/
namespace Detent.Guarantees.Retention
open Lib Source Source.Atomic
open Fallible (exec exec_bind_cases exec_bind_ok exec_lift_bind uses_bind)
open Prog (run_bind_eq)

/-! ## Rotation of names in order -/

/-- Names in the order they were taken. -/
def InOrder (names : List BackupName) : Prop := names.Pairwise (fun older newer => older.stamp < newer.stamp)

variable {names : List BackupName} {name : BackupName}

theorem InOrder.not_mem (h : InOrder (names ++ [name])) : name ∉ names := by
  intro hmem
  have hlt := (List.pairwise_append.mp h).2.2 name hmem name (List.mem_singleton_self name)
  omega

/-- Sorted newest first, names in order come out reversed. -/
theorem insertionSort_inOrder (h : InOrder names) :
    names.insertionSort BackupName.After = names.reverse := by
  induction names with
  | nil => rfl
  | cons name names ih =>
    obtain ⟨hfirst, hrest⟩ := List.pairwise_cons.mp h
    rw [List.insertionSort_cons, ih hrest, List.reverse_cons, List.orderedInsert_eq_take_drop]
    have hafter : ∀ other ∈ names.reverse, decide (¬ BackupName.After name other) = true := by
      intro other hother
      have hlt := hfirst other (List.mem_reverse.mp hother)
      rw [decide_eq_true_iff]
      rintro (hlt' | ⟨heq, -⟩) <;> omega
    rw [List.takeWhile_eq_self_iff.mpr hafter, List.dropWhile_eq_nil_iff.mpr hafter]

/-- The surplus of names in order: the oldest, all but `keep`. -/
theorem surplus_inOrder {keep : Nat} (h : InOrder (names ++ [name])) (hkeep : 0 < keep) :
    surplus keep name (names ++ [name]) = (names.take (names.length + 1 - keep)).reverse := by
  unfold surplus
  have hothers : (names ++ [name]).filter (· ≠ name) = names := by
    rw [List.filter_append, List.filter_eq_self.mpr]
    · simp
    · intro other hother
      have hne : other ≠ name := by
        rintro rfl
        exact h.not_mem hother
      simpa using hne
  split
  · rename_i hfew
    rw [List.length_append, List.length_singleton] at hfew
    rw [show names.length + 1 - keep = 0 by omega]
    rfl
  · rw [hothers, insertionSort_inOrder (List.pairwise_append.mp h).1, List.drop_reverse,
      show names.length - (keep - 1) = names.length + 1 - keep by omega]

theorem filter_not_mem_take (h : names.Nodup) (n : Nat) :
    names.filter (fun name => name ∉ names.take n) = names.drop n := by
  have hsplit := List.take_append_drop n names
  rw [← hsplit] at h
  have hdisjoint := (List.nodup_append'.mp h).2.2
  conv_lhs => rw [← hsplit]
  rw [List.filter_append, List.take_append_drop]
  have hnone : (names.take n).filter (fun name => name ∉ names.take n) = [] := by
    rw [List.filter_eq_nil_iff]
    intro name hname
    simpa using hname
  have hall : (names.drop n).filter (fun name => name ∉ names.take n) = names.drop n := by
    rw [List.filter_eq_self]
    intro name hname
    simpa using fun hmem => hdisjoint hmem hname
  rw [hnone, hall, List.nil_append]

/-- A backup taken in order leaves the newest `keep` of the directory. -/
theorem names_took {dir : Path} {keep : Nat} {contents : Bytes} {f f' : Files}
    (h : Took dir keep contents name f f') (hkeep : 0 < keep)
    (horder : InOrder ((f.backups dir).names ++ [name])) :
    (f'.backups dir).names =
      ((f.backups dir).names ++ [name]).drop ((f.backups dir).names.length + 1 - keep) := by
  obtain ⟨modified, hfiles⟩ := h.files
  have hnodup : ((f.backups dir).names ++ [name]).Nodup :=
    horder.imp (fun hlt heq => by rw [heq] at hlt; omega)
  have hnames : ((f.backups dir).files ++
      [({ name := name, contents, modified } : BackupFile)]).map (·.name) =
        (f.backups dir).names ++ [name] := by
    rw [List.map_append]
    rfl
  have hgone : (f.backups dir).names.take ((f.backups dir).names.length + 1 - keep) =
      ((f.backups dir).names ++ [name]).take ((f.backups dir).names.length + 1 - keep) := by
    rw [List.take_append_of_le_length (by omega)]
  rw [BackupDir.names, hfiles, names_without, hnames, surplus_inOrder horder hkeep, hgone,
    ← filter_not_mem_take hnodup]
  simp only [List.mem_reverse]

/-! ## Taking a backup, when the directory works -/

/-- A host whose clock only moves forward and on which no call on a backup
directory fails. Every other call may. -/
structure Reliable (host : Host) : Prop where
  clock : StrictMono host.systemTime
  backups : ∀ (tick : Nat) {β : Type} (op : FileOp β), onBackups op = true → host.fault tick op = none

variable {host : Host} {d d' : Disk}

theorem createBackupFile_fresh (hhost : Reliable host) {dir : Path} {short : String} {now left : Nat}
    (hfree : ({ stamp := now, short } : BackupName) ∉ (d.backups dir).names) :
    ∃ t, exec (sys host) (createBackupFile dir short now 0 (left + 1)) d =
      (.ok { stamp := now, short }, t) := by
  have heffect : ∃ f, (FileOp.createBackup { dir, name := { stamp := now + 0, short } }).effect host
      d.tick d.toFiles = .ok ((), f) := by
    simp only [FileOp.effect, BackupDir.create, Nat.add_zero]
    rw [dif_neg hfree]
    exact ⟨_, rfl⟩
  obtain ⟨f, heffect⟩ := heffect
  have hperform := perform_effect (hhost.backups d.tick _ rfl) heffect
  unfold createBackupFile
  rw [exec_bind_ok _ (exec_file hperform)]
  exact ⟨_, rfl⟩

theorem writeBackup_fresh (hhost : Reliable host) {dir : Path} (contents : Bytes)
    {digest : Sha256Digest} {now : Nat}
    (hfree : ({ stamp := now, short := digest.shortHex } : BackupName) ∉ (d.backups dir).names) :
    ∃ t, exec (sys host) (writeBackup dir contents digest now) d =
      (.ok { dir, name := { stamp := now, short := digest.shortHex } }, t) := by
  have hcreate : ∃ t, exec (sys host)
      (createBackupFile dir digest.shortHex now 0 nameAttempts) d =
        (.ok { stamp := now, short := digest.shortHex }, t) := createBackupFile_fresh hhost hfree
  obtain ⟨d₁, hcreate⟩ := hcreate
  unfold writeBackup
  rw [exec_bind_ok _ hcreate,
    exec_bind_ok _ (exec_file (perform_effect (hhost.backups _ _ rfl) rfl)),
    exec_bind_ok _ (exec_call_effect (hhost.backups _ _ rfl) rfl)]
  exact ⟨_, rfl⟩

/-- The names a clock reading from now on may give are free. -/
def Unused (host : Host) (d : Disk) (dir : Path) : Prop :=
  ∀ t, d.tick ≤ t → ∀ short, ({ stamp := host.systemTime t, short } : BackupName) ∉
    (d.backups dir).names

/-- The backup step of a write takes one backup, under the time it read, or none. -/
theorem backUp_outcome (hhost : Reliable host) {req : WriteRequest} {existing : Option Existing}
    {r : Except AtomicError (Option BackupPath)} (hunused : Unused host d req.backupDir)
    (h : exec (sys host) (backUp req existing) d = (r, d')) :
    (d'.backups = d.backups ∧ d'.taken = d.taken) ∨
      ∃ contents name, name.stamp = host.systemTime d.tick ∧ d.tick < d'.tick ∧
        0 < req.keepBackups ∧ Took req.backupDir req.keepBackups contents name d.toFiles d'.toFiles := by
  cases existing with
  | none =>
    cases h
    exact .inl ⟨rfl, rfl⟩
  | some found =>
    by_cases hkeep : 0 < req.keepBackups
    · have hwhole := h
      simp only [backUp, hkeep, if_true] at h
      have hfree : ({ stamp := host.systemTime d.tick, short := found.digest.shortHex } : BackupName) ∉
          (((sys host).apply .systemTime d).2.backups req.backupDir).names :=
        hunused d.tick (Nat.le_refl _) _
      obtain ⟨d₁, hwrite⟩ := writeBackup_fresh hhost found.contents hfree
      obtain ⟨d₂, hrotate⟩ := rotateBackups_works hhost.backups req.backupDir req.keepBackups
        { stamp := host.systemTime d.tick, short := found.digest.shortHex } d₁
      have hname : ((sys host).apply .systemTime d).1 = host.systemTime d.tick := rfl
      rw [exec_bind_ok _ (Fallible.exec_perform _ _ _), hname,
        exec_bind_ok _ hwrite, exec_bind_ok _ hrotate] at h
      cases h
      have htick₁ : d.tick + 1 ≤ d₁.tick := run_tick_le hwrite
      have htick₂ : d₁.tick ≤ d'.tick := run_tick_le hrotate
      rcases backUp_ok hwhole with ⟨hnone, -⟩ | ⟨contents, name, -, -, hbackup, htook⟩
      · cases hnone
      · injection hbackup with hbackup
        injection hbackup with _ hbackup
        exact .inr ⟨contents, name, hbackup ▸ rfl, by omega, hkeep, htook⟩
    · simp only [backUp, hkeep, if_false] at h
      cases h
      exact .inl ⟨rfl, rfl⟩

/-- What a write may do to the backups: nothing, or take one under a new time. -/
def BacksUp (host : Host) (dir : Path) (keep : Nat) (d d' : Disk) : Prop :=
  (d'.backups = d.backups ∧ d'.taken = d.taken) ∨
    ∃ contents name t, d.tick ≤ t ∧ t < d'.tick ∧ name.stamp = host.systemTime t ∧ 0 < keep ∧
      Took dir keep contents name d.toFiles d'.toFiles ∧
      ∀ other, other ≠ dir → d'.backups other = d.backups other

/-! ## The invariant -/

/-- The names of the backups taken so far in a directory, oldest first. -/
def takenIn (dir : Path) (taken : List BackupPath) : List BackupName :=
  (taken.filter (fun backup => backup.dir = dir)).map (·.name)

theorem takenIn_append (dir : Path) (taken : List BackupPath) (backup : BackupPath) :
    takenIn dir (taken ++ [backup]) =
      takenIn dir taken ++ (if backup.dir = dir then [backup.name] else []) := by
  unfold takenIn
  by_cases hdir : backup.dir = dir <;> simp [hdir]

/-- The newest `count` of a list that has the newest last. -/
def newest (count : Nat) (names : List BackupName) : List BackupName :=
  names.drop (names.length - count)

/-- A rotation to `keep` after one more backup keeps the newest `k`, when it is a
rotation to `k` or there is nothing to delete under either number. -/
theorem drop_newest {k keep : Nat} (h : keep = k ∨ names.length + 1 ≤ min k keep) :
    (newest k names ++ [name]).drop ((newest k names).length + 1 - keep) =
      newest k (names ++ [name]) := by
  unfold newest
  rw [List.length_drop, List.length_append, List.length_singleton]
  rcases h with rfl | hfew
  · by_cases hk : names.length < keep
    · rw [show names.length - keep = 0 by omega, show names.length + 1 - keep = 0 by omega]
      simp [show names.length + 1 - keep = 0 by omega]
    · rw [show names.length - (names.length - keep) + 1 - keep = 1 by omega,
        ← List.drop_append_of_le_length (by omega), List.drop_drop,
        show names.length - keep + 1 = names.length + 1 - keep by omega]
  · rw [show names.length - k = 0 by omega, show names.length + 1 - k = 0 by omega,
      show names.length - 0 + 1 - keep = 0 by omega]
    rfl

/-- Each directory holds the newest `k` of the backups taken there, which are in
order and older than every later reading of the clock. -/
structure Retains (host : Host) (k : Nat) (d : Disk) : Prop where
  held : ∀ dir, (d.backups dir).names = newest k (takenIn dir d.taken)
  inOrder : ∀ dir, InOrder (takenIn dir d.taken)
  past : ∀ backup ∈ d.taken, ∀ t, d.tick ≤ t → backup.name.stamp < host.systemTime t

namespace Retains

variable {k keep : Nat} {dir : Path}

theorem unused (h : Retains host k d) (dir : Path) : Unused host d dir := by
  intro t ht short hmem
  rw [h.held dir] at hmem
  obtain ⟨backup, hbackup, hname⟩ := List.mem_map.mp (List.mem_of_mem_drop hmem)
  have hlt := h.past backup (List.mem_of_mem_filter hbackup) t ht
  rw [hname] at hlt
  exact Nat.lt_irrefl _ hlt

/-- What touches no backup keeps the invariant. -/
theorem of_same (h : Retains host k d) (hbackups : d'.backups = d.backups)
    (htaken : d'.taken = d.taken) (htick : d.tick ≤ d'.tick) : Retains host k d' where
  held dir := by
    rw [hbackups, htaken]
    exact h.held dir
  inOrder dir := by
    rw [htaken]
    exact h.inOrder dir
  past backup hbackup t ht := by
    rw [htaken] at hbackup
    exact h.past backup hbackup t (by omega)

/-- One more backup keeps the invariant, when its rotation keeps the newest `k`. -/
theorem backsUp (hhost : Reliable host) (h : Retains host k d)
    (hfits : keep = k ∨ (takenIn dir d.taken).length + 1 ≤ min k keep) (htick : d.tick ≤ d'.tick)
    (hstep : BacksUp host dir keep d d') : Retains host k d' := by
  rcases hstep with ⟨hbackups, htaken⟩ | ⟨contents, name, t, hfrom, hto, hstamp, hkeep, htook, hothers⟩
  · exact h.of_same hbackups htaken htick
  have holder : ∀ backup ∈ d.taken, backup.name.stamp < name.stamp := by
    intro backup hbackup
    rw [hstamp]
    exact h.past backup hbackup t hfrom
  have horder : InOrder (takenIn dir d.taken ++ [name]) := by
    refine List.pairwise_append.mpr ⟨h.inOrder dir, List.pairwise_singleton _ _, ?_⟩
    intro older hold newer hnew
    obtain ⟨backup, hbackup, rfl⟩ := List.mem_map.mp hold
    rw [List.mem_singleton.mp hnew]
    exact holder backup (List.mem_of_mem_filter hbackup)
  have htaken : ∀ other, takenIn other d'.taken =
      takenIn other d.taken ++ (if dir = other then [name] else []) := by
    intro other
    rw [htook.taken]
    exact takenIn_append other d.taken { dir, name }
  refine ⟨fun other => ?_, fun other => ?_, ?_⟩
  · rw [htaken other]
    by_cases hdir : dir = other
    · subst hdir
      have hheld : InOrder ((d.backups dir).names ++ [name]) := by
        rw [h.held dir]
        exact horder.sublist (List.Sublist.append_right (List.drop_sublist _ _) _)
      rw [names_took htook hkeep hheld, h.held dir, if_pos rfl]
      exact drop_newest hfits
    · rw [hothers other (fun heq => hdir heq.symm), if_neg hdir, List.append_nil]
      exact h.held other
  · rw [htaken other]
    by_cases hdir : dir = other
    · subst hdir
      rw [if_pos rfl]
      exact horder
    · rw [if_neg hdir, List.append_nil]
      exact h.inOrder other
  · intro backup hbackup u hu
    rw [htook.taken] at hbackup
    rcases List.mem_append.mp hbackup with hold | hnew
    · exact h.past backup hold u (by omega)
    · rw [List.mem_singleton.mp hnew]
      change name.stamp < host.systemTime u
      rw [hstamp]
      exact hhost.clock (by omega)

end Retains

section Steps

variable [Sha256] {r : Except AtomicError WriteOutcome} {backup : BackupPath}
  {expectedPrev : Option Sha256Digest} {mem mem' : Monitor.Mem} {dirs : List Path}
  {ending : Monitor.Ending} {result : Except Monitor.MonitorError Response}

theorem writeAtomic_backsUp (hhost : Reliable host) {req : WriteRequest}
    (hunused : Unused host d req.backupDir)
    (h : exec (sys host) (writeAtomic req) d = (r, d')) :
    BacksUp host req.backupDir req.keepBackups d d' := by
  have hothers : ∀ other, other ≠ req.backupDir → d'.backups other = d.backups other := by
    intro other hother
    exact (exec_agree (writeAtomic_confined req) h).backups other (by simpa [writeParts] using hother)
  rcases exec_bind_cases _ h with ⟨err, -, hread⟩ | ⟨existing, d₁, hread, h⟩
  · have hsame := exec_reads (readExisting_confined _) hread
    exact .inl ⟨by rw [hsame], by rw [hsame]⟩
  have hd₁ := exec_reads (readExisting_confined _) hread
  have htick₁ : d.tick ≤ d₁.tick := run_tick_le hread
  rcases exec_bind_cases _ h with ⟨err, -, hcheck⟩ | ⟨_, d₂, hcheck, h⟩
  · have hsame := (exec_reads (checkExpected_confined _ _) hcheck).trans hd₁
    exact .inl ⟨by rw [hsame], by rw [hsame]⟩
  have hd₂ := (exec_reads (checkExpected_confined _ _) hcheck).trans hd₁
  have htick₂ : d₁.tick ≤ d₂.tick := run_tick_le hcheck
  have hunused₂ : Unused host d₂ req.backupDir := by
    intro t ht short
    rw [hd₂]
    exact hunused t (by omega) short
  rcases exec_bind_cases _ h with ⟨err, -, hbackup⟩ | ⟨backup, d₃, hbackup, h⟩
  · rcases backUp_outcome hhost hunused₂ hbackup with
      ⟨hbackups, htaken⟩ | ⟨contents, name, hstamp, hlt, hkeep, htook⟩
    · exact .inl ⟨by rw [hbackups, hd₂], by rw [htaken, hd₂]⟩
    · rw [hd₂] at htook
      exact .inr ⟨contents, name, d₂.tick, by omega, by omega, hstamp, hkeep, htook, hothers⟩
  -- the rest of the write leaves the backups of the backup step alone
  have hconfined : Confined (fun part => part = .node req.path ∨ part = .inPlace)
      (installReporting req existing backup) :=
    installReporting_confined (.inl rfl) (.inr rfl) existing backup
  have hagree := exec_agree hconfined h
  have hbackups₃ : d'.backups = d₃.backups := funext (fun dir => hagree.backups dir (by simp))
  have htaken₃ : d'.taken = d₃.taken := hagree.taken (by simp)
  have htick₃ : d₃.tick ≤ d'.tick := run_tick_le h
  rcases backUp_outcome hhost hunused₂ hbackup with
    ⟨hbackups, htaken⟩ | ⟨contents, name, hstamp, hlt, hkeep, htook⟩
  · exact .inl ⟨by rw [hbackups₃, hbackups, hd₂], by rw [htaken₃, htaken, hd₂]⟩
  · rw [hd₂] at htook
    exact .inr ⟨contents, name, d₂.tick, by omega, by omega, hstamp, hkeep,
      htook.of_same hbackups₃ htaken₃, hothers⟩

theorem restoreBackupWith_backsUp (hhost : Reliable host) {target : Path} {inPlace : InPlace}
    (hunused : Unused host d backup.dir)
    (h : exec (sys host) (restoreBackupWith backup target expectedPrev inPlace) d =
      (r, d')) : BacksUp host backup.dir defaultKeepBackups d d' := by
  rcases exec_bind_cases _ h with ⟨err, -, hread⟩ | ⟨file, d₁, hread, h⟩
  · have hsame := exec_reads (call_confined (.inl rfl)) hread
    exact .inl ⟨by rw [hsame], by rw [hsame]⟩
  have hd₁ := exec_reads (call_confined (.inl rfl)) hread
  have htick₁ : d.tick ≤ d₁.tick := run_tick_le hread
  have hunused₁ : Unused host d₁ backup.dir := by
    intro t ht short
    rw [hd₁]
    exact hunused t (by omega) short
  rcases writeAtomic_backsUp hhost hunused₁ h with
    ⟨hbackups, htaken⟩ | ⟨contents, name, t, hfrom, hto, hstamp, hkeep, htook, hothers⟩
  · exact .inl ⟨by rw [hbackups, hd₁], by rw [htaken, hd₁]⟩
  · rw [hd₁] at htook hothers
    exact .inr ⟨contents, name, t, by omega, hto, hstamp, hkeep, htook, hothers⟩

variable (m : Monitor.Setup)

/-- The number of backups the configuration keeps. -/
def configured : Nat := m.allow.config.keepBackups

omit [Sha256] in
/-- A program that reaches no backup keeps the invariant. -/
theorem run_retains {α : Type} {p : Prog SysOp α} {a : α} {k : Nat}
    (hp : p.Uses (Inside pendingOnly)) (h : Retains host k d)
    (hrun : p.run (sys host) d = (a, d')) : Retains host k d' := by
  have hagree := run_agree hp hrun
  exact h.of_same (funext (fun dir => hagree.backups dir (by simp [pendingOnly])))
    (hagree.taken (by simp [pendingOnly])) (run_tick_le hrun)

theorem writeTarget_retains (hhost : Reliable host) {id : TargetId} {bytes : Bytes} {journal : Bool}
    {response : Response} (h : Retains host (configured m) d)
    (hrun : (Monitor.writeTarget m mem id expectedPrev bytes journal).run (sys host) d =
      ((response, mem'), d')) : Retains host (configured m) d' := by
  rcases writeTarget_cases hrun with ⟨hsame, -⟩ | ⟨entry, d₁, r, -, hd₁, htick, hwrite, -⟩
  · exact h.of_same (by rw [hsame]) (by rw [hsame]) (run_tick_le hrun)
  · have h₁ : Retains host (configured m) d₁ := h.of_same (by rw [hd₁]) (by rw [hd₁]) htick
    exact h₁.backsUp hhost (.inl rfl) (run_tick_le hwrite)
      (writeAtomic_backsUp hhost (h₁.unused _) hwrite)

/-- The restores a step makes into these directories, one for each element, keep
the newest `k`: they rotate to `k`, or there is nothing to delete. -/
def Fits (k : Nat) (dirs : List Path) (taken : List BackupPath) : Prop :=
  ∀ dir ∈ dirs, k = defaultKeepBackups ∨
    (takenIn dir taken).length + dirs.count dir ≤ min k defaultKeepBackups

theorem restore_retains (hhost : Reliable host) {k : Nat} {target : Path} {inPlace : InPlace}
    (h : Retains host k d) (hfits : Fits k (backup.dir :: dirs) d.taken)
    (hrun : exec (sys host) (restoreBackupWith backup target expectedPrev inPlace) d =
      (r, d')) : Retains host k d' ∧ Fits k dirs d'.taken := by
  have hstep := restoreBackupWith_backsUp hhost (h.unused _) hrun
  have hhere := hfits backup.dir List.mem_cons_self
  rw [List.count_cons_self] at hhere
  have hkeep : defaultKeepBackups = k ∨
      (takenIn backup.dir d.taken).length + 1 ≤ min k defaultKeepBackups :=
    hhere.imp Eq.symm (fun hle => by omega)
  refine ⟨h.backsUp hhost hkeep (run_tick_le hrun) hstep, ?_⟩
  intro dir hdir
  have hthere := hfits dir (List.mem_cons_of_mem _ hdir)
  rcases hstep with ⟨-, htaken⟩ | ⟨contents, name, t, -, -, -, -, htook, -⟩
  · rw [htaken]
    refine hthere.imp id (fun hle => ?_)
    have hcount := List.count_le_count_cons (a := dir) (b := backup.dir) (l := dirs)
    omega
  · rw [htook.taken, takenIn_append, List.length_append]
    refine hthere.imp id (fun hle => ?_)
    rw [List.count_cons] at hle
    by_cases heq : backup.dir = dir
    · simp only [heq, if_true, List.length_singleton, beq_self_eq_true] at hle ⊢
      omega
    · simp only [heq, if_false, List.length_nil, beq_iff_eq] at hle ⊢
      omega

/-- The directories a rollback of these entries restores into. -/
def entryDirs (entries : List RollbackEntry) : List Path :=
  entries.reverse.map (fun entry => entry.backup.dir)

theorem restoreEntries_retains (hhost : Reliable host) {k : Nat} {entries : List RollbackEntry}
    {results : List (Except AtomicError WriteOutcome)} (dirs : List Path) (h : Retains host k d)
    (hfits : Fits k (entries.map (fun entry => entry.backup.dir) ++ dirs) d.taken)
    (hrun : (Monitor.restoreEntries entries).run (sys host) d = (results, d')) :
    Retains host k d' ∧ Fits k dirs d'.taken := by
  induction entries generalizing d results with
  | nil =>
    cases hrun
    exact ⟨h, hfits⟩
  | cons entry entries ih =>
    obtain ⟨result, d₁, hfirst, hrun⟩ := run_bind_eq _ hrun
    obtain ⟨rest, d₂, hrest, hrun⟩ := run_bind_eq _ hrun
    cases hrun
    obtain ⟨h₁, hfits₁⟩ := restore_retains hhost h hfits hfirst
    exact ih h₁ hfits₁ hrest

theorem undo_retains (hhost : Reliable host) {k : Nat} {pending : Monitor.Pending}
    {result : Except Monitor.MonitorError Nat} (h : Retains host k d)
    (hfits : Fits k (entryDirs pending.entries) d.taken)
    (hrun : (Monitor.undo m pending).run (sys host) d = (result, d')) : Retains host k d' := by
  obtain ⟨_, d₁, hstop, hrun⟩ := run_bind_eq _ hrun
  obtain ⟨restored, d₂, hback, hrun⟩ := run_bind_eq _ hrun
  obtain ⟨results, d₂', hrestore, hcount⟩ := run_bind_eq _ hback
  cases hcount
  have hd₁ := run_reads (stopStartedMounts_uses m _) hstop
  have h₁ := run_retains (stopStartedMounts_uses m _) h hstop
  obtain ⟨h₂, -⟩ := restoreEntries_retains hhost [] h₁
    (by rw [hd₁, List.append_nil]; exact hfits) hrestore
  refine run_retains ?_ h₂ hrun
  refine Prog.Uses.bind (replayReload_uses m _) (fun _ => ?_)
  refine Prog.Uses.bind (replayService_uses m _) (fun _ => ?_)
  exact Prog.Uses.bind (clearMarker_uses pendingOnly_pending) (fun r => by cases r <;> trivial)

/-- The directories a rollback of the pending commit restores into. -/
def pendingDirs (mem : Monitor.Mem) : List Path :=
  (mem.pending.map (fun pending => entryDirs pending.entries)).getD []

theorem leave_retains (hhost : Reliable host) {k : Nat} {response : Option Response}
    (h : Retains host k d) (hfits : Fits k (pendingDirs mem) d.taken)
    (hrun : (Monitor.leave m response mem).run (sys host) d = (ending, d')) :
    Retains host k d' := by
  obtain ⟨_, d₁, hexit, hrun⟩ := run_bind_eq _ hrun
  cases hrun
  unfold Monitor.rollbackPendingOnExit at hexit
  unfold pendingDirs at hfits
  split at hexit
  · cases hexit
    exact h
  · rename_i pending hpending
    rw [hpending] at hfits
    obtain ⟨result, d₂, hundo, hexit⟩ := run_bind_eq _ hexit
    have h₂ := undo_retains m hhost h hfits hundo
    cases result <;> cases hexit <;> exact h₂

theorem enforceDeadline_retains (hhost : Reliable host) {k : Nat}
    {result : Except Monitor.MonitorError Unit} (h : Retains host k d)
    (hfits : Fits k (pendingDirs mem) d.taken)
    (hrun : (Monitor.enforceDeadline m mem).run (sys host) d = ((result, mem'), d')) :
    Retains host k d' ∧ Fits k (pendingDirs mem') d'.taken := by
  unfold Monitor.enforceDeadline at hrun
  split at hrun
  · cases hrun
    exact ⟨h, hfits⟩
  · rename_i pending hpending
    obtain ⟨now, d₁, hnow, hrun⟩ := run_bind_eq _ hrun
    cases hnow
    have h₁ : Retains host k { d with tick := d.tick + 1 } := h.of_same rfl rfl (Nat.le_succ _)
    split at hrun
    · obtain ⟨r, d₂, hundo, hrun⟩ := run_bind_eq _ hrun
      have hfits₁ : Fits k (entryDirs pending.entries) d.taken := by
        unfold pendingDirs at hfits
        rw [hpending] at hfits
        exact hfits
      have h₂ := undo_retains m hhost h₁ hfits₁ hundo
      cases r <;> cases hrun <;> exact ⟨h₂, by simp [Fits, pendingDirs]⟩
    · cases hrun
      exact ⟨h₁, hfits⟩

omit [Sha256] in
theorem pendingDirs_none (h : mem.pending = none) : pendingDirs mem = [] := by
  rw [pendingDirs, h]
  rfl

omit [Sha256] in
theorem fits_nil (k : Nat) (taken : List BackupPath) : Fits k [] taken := by
  simp [Fits]

/-- Whether `commit` is the pending one. -/
def isPending (mem : Monitor.Mem) (commit : CommitId) : Bool :=
  mem.pending.any (fun pending => pending.commit = commit)

theorem rollbackCommit_retains (hhost : Reliable host) {k : Nat} {commit : CommitId}
    (h : Retains host k d) (hfits : isPending mem commit = true → Fits k (pendingDirs mem) d.taken)
    (hrun : (Monitor.rollbackCommit m mem commit).run (sys host) d = ((result, mem'), d')) :
    Retains host k d' ∧ (∀ err, result = .error err → mem'.pending = none) := by
  unfold Monitor.rollbackCommit at hrun
  split at hrun
  · rename_i pending hpending
    split at hrun
    · rename_i hcommit
      have hfits' : Fits k (entryDirs pending.entries) d.taken := by
        have hall := hfits (by simp [isPending, hpending, hcommit])
        rwa [pendingDirs, hpending] at hall
      obtain ⟨r, d₁, hundo, hrun⟩ := run_bind_eq _ hrun
      have h₁ := undo_retains m hhost h hfits' hundo
      cases r <;> cases hrun <;> exact ⟨h₁, fun _ _ => rfl⟩
    · cases hrun
      exact ⟨h, nofun⟩
  · cases hrun
    exact ⟨h, nofun⟩

theorem confirmCommit_retains (hhost : Reliable host) {k : Nat} {commit : CommitId}
    (h : Retains host k d) (hfits : isPending mem commit = true → Fits k (pendingDirs mem) d.taken)
    (hrun : (Monitor.confirmCommit m mem commit).run (sys host) d = ((result, mem'), d')) :
    Retains host k d' ∧ (∀ err, result = .error err → Fits k (pendingDirs mem') d'.taken) := by
  unfold Monitor.confirmCommit at hrun
  split at hrun
  · rename_i pending hpending
    split at hrun
    · rename_i hcommit
      obtain ⟨now, d₁, hnow, hrun⟩ := run_bind_eq _ hrun
      cases hnow
      have h₁ : Retains host k { d with tick := d.tick + 1 } := h.of_same rfl rfl (Nat.le_succ _)
      have hfits₁ := hfits (by simp [isPending, hpending, hcommit])
      split at hrun
      · obtain ⟨⟨r, mem₁⟩, d₂, hdeadline, hrun⟩ := run_bind_eq _ hrun
        obtain ⟨h₂, hfits₂⟩ := enforceDeadline_retains m hhost h₁ hfits₁ hdeadline
        cases r <;> cases hrun
        · exact ⟨h₂, fun _ _ => hfits₂⟩
        · exact ⟨h₂, nofun⟩
      · refine ⟨run_retains (confirmPending_uses m pendingOnly_pending _ _) h₁ hrun,
          fun err herr => ?_⟩
        rw [pendingDirs_none ((confirmPending_clears m mem pending).run hrun)]
        exact fits_nil k _
    · cases hrun
      exact ⟨h, nofun⟩
  · cases hrun
    exact ⟨h, nofun⟩

/-- The directories the row a restore names is in. -/
def restoreDir (module : ModuleId) (backup : BackupId) (f : Files) : List Path :=
  (listingOf m module f.backups)[backup.get]?.toList.map (fun row => row.entry.path.dir)

/-- The directories a request restores into, one for each restore it makes. -/
def requestDirs (f : Files) (mem : Monitor.Mem) (request : Request) : List Path :=
  if mem.greeted then
    match request with
    | .restore module backup => restoreDir m module backup f
    | .confirmCommit commit | .rollbackCommit commit =>
      if isPending mem commit then pendingDirs mem else []
    | .hello _ | .shutdown => pendingDirs mem
    | _ => []
  else pendingDirs mem

/-- The directory the recovery of an in-place write restores into. -/
def markerDirs : Option (MarkerFile InPlaceMarker) → List Path
  | some (.whole record) => record.backup.toList.map (·.dir)
  | _ => []

/-- The directories the recovery of a commit restores into. -/
def commitDirs : Option (MarkerFile PendingCommitMarker) → List Path
  | some (.whole record) => entryDirs record.entries
  | _ => []

/-- The directories the recovery at startup restores into. -/
def recoveryDirs (f : Files) : List Path := markerDirs f.inPlace ++ commitDirs f.pending

/-- The directories a step restores into. -/
def eventDirs (w : Monitor.World) : Monitor.Event → List Path
  | .request request => (w.mem.map (fun mem => requestDirs m w.disk.toFiles mem request)).getD []
  | .deadline | .exit => (w.mem.map pendingDirs).getD []
  | .restart => recoveryDirs w.disk.toFiles

/-- The condition on a step: its restores have nothing to delete, unless the
configured number is the default one. A crash in the middle is no step here. -/
def RestoresFit (w : Monitor.World) : Monitor.Label → Prop
  | .done event _ => Fits (configured m) (eventDirs m w event) w.disk.taken
  | .crash _ => False
  | .edit .. => True

instance (k : Nat) (dirs : List Path) (taken : List BackupPath) : Decidable (Fits k dirs taken) :=
  inferInstanceAs (Decidable (∀ dir ∈ dirs, _))

/-- A request keeps the invariant, and what it leaves to roll back, if it ends the
serve loop, fits. -/
theorem dispatch_retains (hhost : Reliable host) {request : Request}
    (h : Retains host (configured m) d)
    (hfits : Fits (configured m) (requestDirs m d.toFiles mem request) d.taken)
    (hrun : (Monitor.dispatch m mem request).run (sys host) d = ((result, mem'), d')) :
    Retains host (configured m) d' ∧
      ((∃ response, result = .ok response ∧ Usual response ∧ request ≠ .shutdown) ∨
        Fits (configured m) (pendingDirs mem') d'.taken) := by
  by_cases hgreeted : mem.greeted = true
  · have husual : (∀ proto, request ≠ .hello proto) → ∀ response, result = .ok response →
        Usual response := by
      intro hhello response hresponse
      exact (dispatch_usual m hgreeted hhello).run hrun response hresponse
    have hplain : Plain request → Retains host (configured m) d' := by
      intro hplain
      exact run_retains (dispatch_uses m pendingOnly_pending mem hplain) h hrun
    unfold Monitor.dispatch at hrun
    unfold requestDirs at hfits
    rw [if_pos hgreeted] at hrun hfits
    cases request with
    | writeTarget target expectedPrev bytes journal =>
      obtain ⟨⟨response, mem₁⟩, d₁, hwrite, hrun⟩ := run_bind_eq _ hrun
      cases hrun
      exact ⟨writeTarget_retains m hhost h hwrite,
        .inl ⟨response, rfl, husual (by simp) response rfl, by simp⟩⟩
    | restore module backup =>
      obtain ⟨response, hresult, hmem, hrestore⟩ := answer_run hrun
      refine ⟨?_, .inl ⟨response, hresult, husual (by simp) response hresult, by simp⟩⟩
      rcases restore_cases hrestore with ⟨hsame, -⟩ | ⟨row, d₁, r, hrow, hd₁, htick, hwrite, -⟩
      · exact h.of_same (by rw [hsame]) (by rw [hsame]) (run_tick_le hrun)
      · have h₁ : Retains host (configured m) d₁ := h.of_same (by rw [hd₁]) (by rw [hd₁]) htick
        dsimp only [restoreDir] at hfits
        rw [hrow] at hfits
        exact (restore_retains hhost h₁ (by rw [hd₁]; exact hfits) hwrite).1
    | confirmCommit commit =>
      obtain ⟨hretains, herror⟩ := confirmCommit_retains m hhost h
        (fun hpending => by
          dsimp only at hfits
          rwa [if_pos hpending] at hfits) hrun
      refine ⟨hretains, ?_⟩
      cases result with
      | ok response => exact .inl ⟨response, rfl, husual (by simp) response rfl, by simp⟩
      | error err => exact .inr (herror err rfl)
    | rollbackCommit commit =>
      obtain ⟨hretains, herror⟩ := rollbackCommit_retains m hhost h
        (fun hpending => by
          dsimp only at hfits
          rwa [if_pos hpending] at hfits) hrun
      refine ⟨hretains, ?_⟩
      cases result with
      | ok response => exact .inl ⟨response, rfl, husual (by simp) response rfl, by simp⟩
      | error err =>
        rw [pendingDirs_none (herror err rfl)]
        exact .inr (fits_nil _ _)
    | startConfirmTimer commit timeoutS service =>
      refine ⟨hplain trivial, ?_⟩
      cases result with
      | ok response => exact .inl ⟨response, rfl, husual (by simp) response rfl, by simp⟩
      | error err =>
        rw [pendingDirs_none (startConfirmTimer_error hrun)]
        exact .inr (fits_nil _ _)
    | hello | shutdown =>
      obtain ⟨response, hresult, rfl, hpure⟩ := answer_run hrun
      cases hpure
      exact ⟨h, .inr hfits⟩
    | readTarget | runCheck | service | listBackups | mount | replaceBinary | pendingCommit
    | reloadUnitFiles | stageBegin | stageUpdate | startUpdate =>
      obtain ⟨response, hresult, -, -⟩ := answer_run hrun
      exact ⟨hplain trivial,
        .inl ⟨response, hresult, husual (by simp) response hresult, by simp⟩⟩
  · rw [dispatch_ungreeted m hgreeted] at hrun
    unfold requestDirs at hfits
    rw [if_neg hgreeted] at hfits
    rw [Prog.run_pure, Prod.mk.injEq, Prod.mk.injEq] at hrun
    obtain ⟨⟨-, rfl⟩, rfl⟩ := hrun
    refine ⟨h, .inr ?_⟩
    rw [pendingDirs, (greet_mem m mem request).1]
    exact hfits

theorem serveStep_retains (hhost : Reliable host) {request : Request}
    (h : Retains host (configured m) d)
    (hfits : Fits (configured m) (requestDirs m d.toFiles mem request) d.taken)
    (hrun : (Monitor.serveStep m mem request).run (sys host) d = (ending, d')) :
    Retains host (configured m) d' := by
  obtain ⟨⟨result, mem₁⟩, d₁, hserve, hrun⟩ := run_bind_eq _ hrun
  have hdispatch : (Monitor.dispatch m mem request).run (sys host) d = ((result, mem₁), d₁) := hserve
  obtain ⟨h₁, hends⟩ := dispatch_retains m hhost h hfits hdispatch
  cases result with
  | error err =>
    rcases hends with ⟨response, hresponse, -⟩ | hfits₁
    · cases hresponse
    · exact leave_retains m hhost h₁ hfits₁ hrun
  | ok response =>
    dsimp only at hrun
    split at hrun
    · rename_i hleaves
      rcases hends with ⟨other, hother, husual, hshutdown⟩ | hfits₁
      · cases hother
        rcases hleaves with hleaves | hleaves
        · exact (hshutdown hleaves).elim
        · rw [husual.not_fatal] at hleaves
          cases hleaves
      · exact leave_retains m hhost h₁ hfits₁ hrun
    · cases hrun
      exact h₁

theorem deadlineStep_retains (hhost : Reliable host) {k : Nat} (h : Retains host k d)
    (hfits : Fits k (pendingDirs mem) d.taken)
    (hrun : (Monitor.deadlineStep m mem).run (sys host) d = (ending, d')) : Retains host k d' := by
  obtain ⟨⟨result, mem₁⟩, d₁, hdeadline, hrun⟩ := run_bind_eq _ hrun
  obtain ⟨h₁, hfits₁⟩ := enforceDeadline_retains m hhost h hfits hdeadline
  cases result with
  | error err => exact leave_retains m hhost h₁ hfits₁ hrun
  | ok value =>
    cases hrun
    exact h₁

omit [Sha256] in
theorem exec_retains {ε α : Type} {x : ExceptT ε (Prog SysOp) α} {r : Except ε α} {k : Nat}
    (parts : Part → Prop) (hx : Confined parts x) (hparts : ∀ dir, ¬ parts (.backups dir))
    (h : Retains host k d) (hrun : exec (sys host) x d = (r, d')) :
    Retains host k d' ∧ d'.taken = d.taken := by
  have hagree := exec_agree hx hrun
  have htaken := hagree.taken hparts
  exact ⟨h.of_same (funext (fun dir => hagree.backups dir (hparts dir))) htaken
    (run_tick_le hrun), htaken⟩

omit [Sha256] in
theorem fits_tail {k : Nat} {dir : Path} {taken : List BackupPath}
    (h : Fits k (dir :: dirs) taken) : Fits k dirs taken := by
  intro other hother
  have hall := h other (List.mem_cons_of_mem _ hother)
  rw [List.count_cons] at hall
  exact hall.imp id (fun hle => by omega)

omit [Sha256] in
theorem removeInPlace_retains {k : Nat} {r : Except Monitor.MonitorError Unit}
    (h : Retains host k d)
    (hrun : exec (sys host) Monitor.removeInPlace d = (r, d')) :
    Retains host k d' ∧ d'.taken = d.taken := by
  have hconfined : Confined (fun part => part = .inPlace) Monitor.removeInPlace := by
    apply removeInPlace_confined
    rfl
  exact exec_retains _ hconfined (by simp) h hrun

theorem settleInPlace_retains (hhost : Reliable host) {k : Nat} {record : InPlaceMarker}
    {r : Except Monitor.MonitorError Monitor.InPlaceOutcome} (h : Retains host k d)
    (hfits : Fits k (backup.dir :: dirs) d.taken)
    (hrun : exec (sys host) (Monitor.settleInPlace record backup) d = (r, d')) :
    Retains host k d' ∧ Fits k dirs d'.taken := by
  obtain ⟨found, d₁, hread, hrun⟩ := exec_lift_bind _ hrun
  have hd₁ := exec_reads (readWithDigest_confined _) hread
  have h₁ : Retains host k d₁ := h.of_same (by rw [hd₁]) (by rw [hd₁]) (run_tick_le hread)
  have hfits₁ : Fits k (backup.dir :: dirs) d₁.taken := by rwa [hd₁]
  dsimp only at hrun
  split at hrun
  · rcases exec_bind_cases _ hrun with ⟨err, -, hremove⟩ | ⟨_, d₂, hremove, hrun⟩
    · obtain ⟨h₂, htaken⟩ := removeInPlace_retains h₁ hremove
      exact ⟨h₂, by rw [htaken]; exact fits_tail hfits₁⟩
    · cases hrun
      obtain ⟨h₂, htaken⟩ := removeInPlace_retains h₁ hremove
      exact ⟨h₂, by rw [htaken]; exact fits_tail hfits₁⟩
  · obtain ⟨outcome, d₂, hrestore, hrun⟩ := exec_lift_bind _ hrun
    obtain ⟨h₂, hfits₂⟩ := restore_retains hhost h₁ hfits₁ hrestore
    cases outcome with
    | error err =>
      cases hrun
      exact ⟨h₂, hfits₂⟩
    | ok outcome =>
      rcases exec_bind_cases _ hrun with ⟨err, -, hremove⟩ | ⟨_, d₃, hremove, hrun⟩
      · obtain ⟨h₃, htaken⟩ := removeInPlace_retains h₂ hremove
        exact ⟨h₃, by rw [htaken]; exact hfits₂⟩
      · cases hrun
        obtain ⟨h₃, htaken⟩ := removeInPlace_retains h₂ hremove
        exact ⟨h₃, by rw [htaken]; exact hfits₂⟩

theorem recoverInPlace_retains (hhost : Reliable host) {k : Nat}
    {r : Except Monitor.MonitorError (Option Monitor.InPlaceRecovered)} (h : Retains host k d)
    (hfits : Fits k (markerDirs d.inPlace ++ dirs) d.taken)
    (hrun : exec (sys host) (Monitor.recoverInPlace m) d = (r, d')) :
    Retains host k d' ∧ Fits k dirs d'.taken := by
  have htick : d.tick ≤ d'.tick := run_tick_le hrun
  rcases recoverInPlace_cases m hrun with ⟨hsame, hwhy⟩ | ⟨record, d₁, hrecord, hd₁, htick₁, hrest⟩
  · refine ⟨h.of_same (by rw [hsame]) (by rw [hsame]) htick, ?_⟩
    rw [hsame]
    cases hmarker : d.inPlace with
    | none => rwa [hmarker] at hfits
    | some marker =>
      rw [hmarker] at hfits
      cases marker with
      | torn written => exact hfits
      | whole record =>
        cases hbackup : record.backup with
        | none => simpa [markerDirs, hbackup] using hfits
        | some backup =>
          simp only [markerDirs, hbackup, Option.toList_some, List.map_cons, List.map_nil,
            List.singleton_append] at hfits
          exact fits_tail hfits
  · have h₁ : Retains host k d₁ := h.of_same (by rw [hd₁]) (by rw [hd₁]) htick₁
    rw [hrecord] at hfits
    rcases hrest with ⟨backup, -, hbackup, settled, hsettle, -⟩ | ⟨-, removed, hremove, -⟩
    · simp only [markerDirs, hbackup, Option.toList_some, List.map_cons, List.map_nil,
        List.singleton_append] at hfits
      exact settleInPlace_retains hhost h₁ (by rwa [hd₁]) hsettle
    · obtain ⟨h₂, htaken⟩ := removeInPlace_retains h₁ hremove
      refine ⟨h₂, ?_⟩
      rw [htaken, hd₁]
      cases hbackup : record.backup with
      | none => simpa [markerDirs, hbackup] using hfits
      | some backup =>
        simp only [markerDirs, hbackup, Option.toList_some, List.map_cons, List.map_nil,
          List.singleton_append] at hfits
        exact fits_tail hfits

theorem startStep_retains (hhost : Reliable host) {k : Nat} (h : Retains host k d)
    (hfits : Fits k (recoveryDirs d.toFiles) d.taken)
    (hrun : (Monitor.startStep m).run (sys host) d = (ending, d')) : Retains host k d' := by
  obtain ⟨r, d₁, hrecover, hrun⟩ := run_bind_eq _ hrun
  have hsame : d' = d₁ := by
    cases r <;> cases hrun <;> rfl
  subst hsame
  rcases exec_bind_cases _ hrecover with ⟨err, -, hfirst⟩ | ⟨_, d₂, hfirst, hrecover⟩
  · exact (recoverInPlace_retains m hhost h hfits hfirst).1
  obtain ⟨h₂, hfits₂⟩ := recoverInPlace_retains m hhost h hfits hfirst
  have hpending : d₂.pending = d.pending :=
    (exec_agree (recoverInPlace_confined m) hfirst).pending (by simp [notPending])
  rcases exec_bind_cases _ hrecover with ⟨err, -, hread⟩ | ⟨found, d₃, hread, hrecover⟩
  · exact (exec_retains (fun _ => False) (stateCall_confined (.inl rfl)) (fun _ => id) h₂ hread).1
  obtain ⟨h₃, htaken₃⟩ := exec_retains (fun _ => False) (stateCall_confined (.inl rfl)) (fun _ => id) h₂ hread
  obtain ⟨heffect, -⟩ := stateCall_ok hread
  injection heffect with heffect
  injection heffect with hfound _
  cases found with
  | none =>
    cases hrecover
    exact h₃
  | some stored =>
    cases stored with
    | torn written =>
      cases hrecover
      exact h₃
    | whole record =>
      have hfits₃ : Fits k (entryDirs record.entries) d₃.taken := by
        rw [htaken₃]
        rw [← hpending, hfound] at hfits₂
        exact hfits₂
      obtain ⟨_, d₄, hstop, hrecover⟩ := exec_lift_bind _ hrecover
      obtain ⟨results, d₅, hrestore, hrecover⟩ := exec_lift_bind _ hrecover
      have hd₄ := run_reads (stopStartedMounts_uses m _) hstop
      have h₄ := run_retains (stopStartedMounts_uses m _) h₃ hstop
      obtain ⟨h₅, -⟩ := restoreEntries_retains hhost [] h₄
        (by rw [hd₄, List.append_nil]; exact hfits₃) hrestore
      refine (exec_retains pendingOnly ?_ (by simp [pendingOnly]) h₅ hrecover).1
      refine uses_bind (lift_confined (replayReload_uses m _)) (fun _ => ?_)
      refine uses_bind (lift_confined (replayService_uses m _)) (fun _ => ?_)
      exact uses_bind (stateCall_confined (.inr pendingOnly_pending)) (fun _ => trivial)

/-- One step keeps the newest backups of every directory. -/
theorem step_retains (hhost : Reliable host) {w w' : Monitor.World} {label : Monitor.Label}
    (h : Retains host (configured m) w.disk) (hfits : RestoresFit m w label)
    (hstep : Monitor.Step m host w label w') : Retains host (configured m) w'.disk := by
  cases hstep with
  | crash hprogram hcut => exact hfits.elim
  | edit path node => exact h.of_same rfl rfl (Nat.le_refl _)
  | @done event p response mem d hprogram hrun =>
    have hfits : Fits (configured m) (eventDirs m w event) w.disk.taken := hfits
    rcases program_cases m hprogram with ⟨request, running, rfl, hmem, rfl⟩ |
      ⟨running, rfl, hmem, rfl⟩ | ⟨running, rfl, hmem, rfl⟩ | ⟨rfl, hmem, rfl⟩
    · simp only [eventDirs, hmem, Option.map_some, Option.getD_some] at hfits
      exact serveStep_retains m hhost h hfits hrun
    · simp only [eventDirs, hmem, Option.map_some, Option.getD_some] at hfits
      exact deadlineStep_retains m hhost h hfits hrun
    · simp only [eventDirs, hmem, Option.map_some, Option.getD_some] at hfits
      exact leave_retains m hhost h hfits hrun
    · exact startStep_retains m hhost h hfits hrun

/-- The files before any backup was taken. -/
structure NoBackups (f : Files) : Prop where
  backups : ∀ dir, (f.backups dir).names = []
  taken : f.taken = []

/-- In every run whose restores fit, every backup directory holds exactly the
newest `min k n` of the `n` backups taken there. -/
theorem newest_backups_held (hhost : Reliable host) {w w' : Monitor.World}
    {labels : List Monitor.Label} (hstart : NoBackups w.disk.toFiles)
    (hrun : Run (Guarded (RestoresFit m) (Monitor.Step m host)) w labels w') (dir : Path) :
    (w'.disk.backups dir).names = newest (configured m) (takenIn dir w'.disk.taken) := by
  have hinit : Retains host (configured m) w.disk := by
    refine ⟨fun dir => ?_, fun dir => ?_, fun backup hbackup => ?_⟩
    · rw [hstart.backups dir, hstart.taken]
      simp [newest, takenIn]
    · rw [hstart.taken]
      exact List.Pairwise.nil
    · rw [hstart.taken] at hbackup
      cases hbackup
  have hfinal := hrun.invariant (I := fun w => Retains host (configured m) w.disk)
    (fun _ _ _ h hstep => step_retains m hhost h hstep.1 hstep.2) hinit
  exact hfinal.held dir

end Steps

section Runs

attribute [local instance] Sample.sha256

theorem sample_reliable : Reliable Sample.host := ⟨strictMono_id, fun _ _ _ _ => rfl⟩

theorem sample_noBackups (contents : Bytes) : NoBackups (Sample.disk contents).toFiles :=
  ⟨fun _ => rfl, rfl⟩

/-- A write of `new` over `old`, and its receipt. -/
def wrote (old new : Bytes) : Monitor.Label :=
  .done (.request (.writeTarget ⟨0⟩ none new false)) (some (.written
    { target := ⟨0⟩, prevDigest := some (Sha256.of old), newDigest := Sha256.of new
      created := false, backedUp := true, ownerPreserved := true }))

/-- The restore of the backup of `a`. -/
def restoredA : Monitor.Label :=
  .done (.request (.restore ⟨0⟩ ⟨0⟩)) (some (.restored ⟨0⟩ (Sha256.of [97])))

/-- With `keepBackups` kept: write `b` over `a`, then restore the backup of `a`. -/
def written (keepBackups : Nat) : Monitor.World :=
  Sample.serve keepBackups (Sample.world [97]) (.writeTarget ⟨0⟩ none [98] false)

def restored (keepBackups : Nat) : Monitor.World :=
  Sample.serve keepBackups (written keepBackups) (.restore ⟨0⟩ ⟨0⟩)

/-- With two kept: after that, write `c` and `d`. -/
def wroteC : Monitor.World :=
  Sample.serve 2 (restored 2) (.writeTarget ⟨0⟩ none [99] false)

def wroteD : Monitor.World := Sample.serve 2 wroteC (.writeTarget ⟨0⟩ none [100] false)

/-- Four backups are taken, one of them by a restore, and the newest two are there. -/
theorem written_holds_newest :
    Reliable Sample.host ∧ NoBackups (Sample.world [97]).disk.toFiles ∧
      (takenIn Sample.backupDir wroteD.disk.taken).length = 4 ∧
      (wroteD.disk.backups Sample.backupDir).names =
        newest 2 (takenIn Sample.backupDir wroteD.disk.taken) := by
  have hfirst : RestoresFit (Sample.setup 2) (Sample.world [97]) (wrote [97] [98]) := fits_nil _ _
  have hrestore : Fits 2 [Sample.backupDir] (written 2).disk.taken := by decide
  have hsecond : RestoresFit (Sample.setup 2) (restored 2) (wrote [97] [99]) := fits_nil _ _
  have hthird : RestoresFit (Sample.setup 2) wroteC (wrote [99] [100]) := fits_nil _ _
  have hrun : Run (Guarded (RestoresFit (Sample.setup 2)) (Monitor.Step (Sample.setup 2) Sample.host))
      (Sample.world [97])
      [wrote [97] [98], restoredA, wrote [97] [99], wrote [99] [100]] wroteD :=
    .cons ⟨hfirst, Sample.serve_step rfl (by decide)⟩
      (.cons ⟨hrestore, Sample.serve_step (by decide) (by decide)⟩
        (.cons ⟨hsecond, Sample.serve_step (by decide) (by decide)⟩
          (.cons ⟨hthird, Sample.serve_step (by decide) (by decide)⟩ (.nil _))))
  exact ⟨sample_reliable, sample_noBackups [97], by decide,
    newest_backups_held (Sample.setup 2) sample_reliable (sample_noBackups [97]) hrun _⟩

/-- The restore keeps the old backup beside the one it takes: two, where the
configuration says one. -/
theorem restore_exceeds_configured :
    Reliable Sample.host ∧ NoBackups (Sample.world [97]).disk.toFiles ∧
      Run (Monitor.Step (Sample.setup 1) Sample.host) (Sample.world [97])
        [wrote [97] [98], restoredA] (restored 1) ∧
      ((restored 1).disk.backups Sample.backupDir).names ≠
        newest (configured (Sample.setup 1)) (takenIn Sample.backupDir (restored 1).disk.taken) := by
  refine ⟨sample_reliable, sample_noBackups [97], ?_, by decide⟩
  exact Run.cons (Sample.serve_step rfl (by decide))
    (Run.cons (Sample.serve_step (by decide) (by decide)) (Run.nil _))

end Runs

end Detent.Guarantees.Retention
