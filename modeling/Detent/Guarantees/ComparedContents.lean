import Detent.Guarantees.Crashes
import Detent.Guarantees.Handlers
import Detent.Lib.Except
import Detent.Source.Mounts

/-!
# The contents a start compares with

`start_added` takes the contents before the apply from the backup whose name sorts
first. The names carry readings of the wall clock, so that backup is the one the last
successful write took only while the clock does not go back. `Tracked` keeps, beside
the files, the contents the last successful write or restore replaced; a run that is
`Timely` keeps the first backup equal to them.
-/
namespace Detent.Guarantees.ComparedContents
open Lib Source Source.Atomic Source.Mounts
open Fallible (exec exec_bind_eq_ok)

section Model

variable [Sha256]

/-- A write of the file, or a restore of one of its backups; a rollback is a restore. -/
inductive Change where
  | write (contents : Bytes) (expectedPrev : Option Sha256Digest) (keepBackups : Nat)
      (inPlace : InPlace)
  | restore (name : BackupName) (expectedPrev : Option Sha256Digest) (inPlace : InPlace)
  deriving DecidableEq, Repr

def Change.program (fstab dir : Path) : Change → FileM WriteOutcome
  | .write contents expectedPrev keepBackups inPlace =>
    writeAtomic { path := fstab, contents, expectedPrev, backupDir := dir, keepBackups, inPlace }
  | .restore name expectedPrev inPlace => restoreBackupWith { dir, name } fstab expectedPrev inPlace

/-- The files, and what the last successful change of the file replaced. -/
structure Tracked where
  disk : Disk
  replaced : Option Bytes

section History

variable (host : Host) (fstab dir : Path)

def after (s : Tracked) (change : Change) : Tracked :=
  match exec (sys host) (change.program fstab dir) s.disk with
  | (.ok _, disk) => { disk, replaced := s.disk.contents fstab }
  | (.error _, disk) => { disk, replaced := s.replaced }

def Changes : Tracked → Change → Tracked → Prop :=
  Steps (fun s change => some (after host fstab dir s change))

/-- The effects so far when a change reads the clock: a restore reads its backup first. -/
def Change.clockTick (d : Disk) : Change → Nat
  | .write .. => d.tick + 1
  | .restore .. => d.tick + 2

/-- The name a backup taken by `change` would get if it is free. -/
def nextName (d : Disk) (change : Change) : BackupName where
  stamp := host.systemTime (change.clockTick d)
  short := (Sha256.of ((d.contents fstab).getD [])).shortHex

/-- How a timely change ends: a backup is taken at a time that is no earlier than the names of
the directory, a change without one finds no backups, and one that fails leaves them alone. -/
def TimelyEnd (d : Disk) (change : Change) : Except AtomicError WriteOutcome × Disk → Prop
  | (.ok outcome, _) =>
    if outcome.backup.isSome then
      ∀ name ∈ (d.backups dir).names, (nextName host fstab d change).After name
    else (d.backups dir).names = []
  | (.error _, d') => (d'.backups dir).files = (d.backups dir).files

instance (d : Disk) (change : Change) : ∀ ended, Decidable (TimelyEnd host fstab dir d change ended)
  | (.ok outcome, _) => inferInstanceAs (Decidable (if outcome.backup.isSome then
      ∀ name ∈ (d.backups dir).names, (nextName host fstab d change).After name
    else (d.backups dir).names = []))
  | (.error _, d') => inferInstanceAs (Decidable ((d'.backups dir).files = (d.backups dir).files))

def Timely (s : Tracked) (change : Change) : Prop :=
  TimelyEnd host fstab dir s.disk change
    (exec (sys host) (change.program fstab dir) s.disk)

instance (s : Tracked) (change : Change) : Decidable (Timely host fstab dir s change) :=
  inferInstanceAs (Decidable (TimelyEnd host fstab dir s.disk change _))

end History

variable {d d' : Disk} {existing : Option Existing} {outcome : WriteOutcome}

theorem readExisting_tick {host : Host} {path : Path}
    (h : exec (sys host) (readExisting path) d = (.ok existing, d')) : d'.tick = d.tick + 1 := by
  obtain ⟨node, d₁, hread, h⟩ := exec_bind_eq_ok _ h
  obtain ⟨-, htick⟩ := call_ok hread
  match node with
  | none | some (.file _) =>
    cases h
    exact htick
  | some .symlink | some .special => cases h

omit [Sha256] in
theorem checkExpected_same {host : Host} {expectedPrev : Option Sha256Digest}
    (h : exec (sys host) (checkExpected expectedPrev existing) d = (.ok (), d')) : d' = d := by
  unfold checkExpected at h
  split at h
  · cases h
    rfl
  · dsimp only at h
    split at h <;> cases h
    rfl

omit [Sha256] in
theorem backUp_named {host : Host} {req : WriteRequest} {found : Existing} {path : BackupPath}
    (h : exec (sys host) (backUp req (some found)) d = (.ok (some path), d')) :
    path.name.short = found.digest.shortHex ∧ host.systemTime d.tick ≤ path.name.stamp := by
  unfold backUp at h
  dsimp only at h
  split at h
  · obtain ⟨now, d₁, hnow, h⟩ := exec_bind_eq_ok _ h
    obtain ⟨taken, d₂, hwrite, h⟩ := exec_bind_eq_ok _ h
    obtain ⟨_, d₃, -, h⟩ := exec_bind_eq_ok _ h
    cases h
    rw [Fallible.exec_perform] at hnow
    cases hnow
    obtain ⟨-, hshort, hstamp, -⟩ := writeBackup_ok hwrite
    exact ⟨hshort, hstamp⟩
  · cases h

/-- The backup of a write is named after the contents it found and the reading of the clock. -/
theorem writeAtomic_named {host : Host} {req : WriteRequest} {path : BackupPath}
    (h : exec (sys host) (writeAtomic req) d = (.ok outcome, d'))
    (hbackup : outcome.backup = some path) :
    ∃ contents, d.contents req.path = some contents ∧
      path.name.short = (Sha256.of contents).shortHex ∧
      host.systemTime (d.tick + 1) ≤ path.name.stamp := by
  obtain ⟨existing, d₁, hread, h⟩ := exec_bind_eq_ok _ h
  obtain ⟨_, d₂, hcheck, h⟩ := exec_bind_eq_ok _ h
  obtain ⟨backup, d₃, htaken, h⟩ := exec_bind_eq_ok _ h
  obtain ⟨_, d₄, -, h⟩ := exec_bind_eq_ok _ h
  cases h
  dsimp only at hbackup
  subst hbackup
  have htick := readExisting_tick hread
  obtain ⟨hnode, hdigest, -⟩ := readExisting_ok hread
  obtain rfl := checkExpected_same hcheck
  cases existing with
  | none => cases htaken
  | some found =>
    obtain ⟨hshort, hstamp⟩ := backUp_named htaken
    refine ⟨found.contents, ?_, ?_, ?_⟩
    · rw [Files.contents, hnode]
      rfl
    · rw [hshort, hdigest found rfl]
    · rw [← htick]
      exact hstamp

/-- A successful change is a write of the file with its own backup directory, and its backup,
if any, is named no earlier than the clock says. -/
theorem program_ok {host : Host} {fstab dir : Path} {change : Change}
    (h : exec (sys host) (change.program fstab dir) d = (.ok outcome, d')) :
    (∃ req previous, req.path = fstab ∧ req.backupDir = dir ∧
      Wrote req previous outcome d.toFiles d'.toFiles) ∧
    ∀ path, outcome.backup = some path → path.name.After (nextName host fstab d change) := by
  have hafter : ∀ (path : BackupPath) (contents : Bytes) (tick : Nat), d.contents fstab = some contents →
      path.name.short = (Sha256.of contents).shortHex → host.systemTime tick ≤ path.name.stamp →
      tick = change.clockTick d → path.name.After (nextName host fstab d change) := by
    intro path contents tick hcontents hshort hstamp htick
    unfold BackupName.After nextName
    dsimp only
    rw [hcontents, Option.getD_some, ← htick, ← hshort]
    rcases Nat.lt_or_eq_of_le hstamp with hlt | heq
    · exact .inl hlt
    · exact .inr ⟨heq.symm, String.le_refl _⟩
  cases change with
  | write contents expectedPrev keepBackups inPlace =>
    obtain ⟨previous, hwrote⟩ := writeAtomic_ok h
    refine ⟨⟨_, previous, rfl, rfl, hwrote⟩, fun path hpath => ?_⟩
    obtain ⟨found, hfound, hshort, hstamp⟩ := writeAtomic_named h hpath
    exact hafter path found _ hfound hshort hstamp rfl
  | restore name expectedPrev inPlace =>
    obtain ⟨file, previous, -, hwrote⟩ := restoreBackupWith_ok h
    refine ⟨⟨_, previous, rfl, rfl, hwrote⟩, fun path hpath => ?_⟩
    obtain ⟨_, d₁, hread, h⟩ := exec_bind_eq_ok _ h
    have hd₁ := exec_reads (call_confined (.inl rfl)) hread
    obtain ⟨-, htick⟩ := call_ok hread
    obtain ⟨found, hfound, hshort, hstamp⟩ := writeAtomic_named h hpath
    rw [hd₁] at hfound
    exact hafter path found _ hfound hshort hstamp (by rw [htick]; rfl)

omit [Sha256] in
theorem backupDir_ext {left right : BackupDir} (h : left.files = right.files) : left = right := by
  cases left
  cases right
  cases h
  rfl

omit [Sha256] in
theorem after_antisymm {left right : BackupName} (h : left.After right) (h' : right.After left) :
    left = right := by
  unfold BackupName.After at h h'
  obtain ⟨stamp, short⟩ := left
  obtain ⟨stamp', short'⟩ := right
  dsimp only at h h'
  have hstamp : stamp = stamp' := by omega
  have hle : short' ≤ short := by
    rcases h with h | h
    · omega
    · exact h.2
  have hge : short ≤ short' := by
    rcases h' with h' | h'
    · omega
    · exact h'.2
  rw [hstamp, String.le_antisymm hge hle]

omit [Sha256] in
/-- The listing of names begins with one that sorts after all of them. -/
theorem head_newest {names : List BackupName} {name : BackupName} (hmem : name ∈ names)
    (hafter : ∀ other ∈ names, name.After other) :
    (names.insertionSort BackupName.After).head? = some name := by
  have hsorted := List.pairwise_insertionSort BackupName.After names
  have hmem' : name ∈ names.insertionSort BackupName.After := (List.mem_insertionSort _).mpr hmem
  cases hcase : names.insertionSort BackupName.After with
  | nil =>
    rw [hcase] at hmem'
    cases hmem'
  | cons first rest =>
    have hfirst : first ∈ names := by
      rw [← List.mem_insertionSort BackupName.After, hcase]
      exact List.mem_cons_self
    rw [hcase] at hmem' hsorted
    rw [List.head?_cons]
    rcases List.mem_cons.mp hmem' with heq | hrest
    · rw [heq]
    · have hge := (List.pairwise_cons.mp hsorted).1 name hrest
      rw [after_antisymm hge (hafter first hfirst)]

/-- The backup listed first holds what the last successful change replaced. -/
def FirstHeld (dir : Path) (s : Tracked) : Prop :=
  ∀ name, ((s.disk.backups dir).names.insertionSort BackupName.After).head? = some name →
    ∃ file, (s.disk.backups dir).find name = some file ∧ s.replaced = some file.contents

omit [Sha256] in
/-- A backup that sorts after the others of its directory is listed first. -/
theorem took_first {dir : Path} {keep : Nat} {contents : Bytes} {name : BackupName}
    {f f' : Files} (h : Took dir keep contents name f f')
    (hafter : ∀ other ∈ (f.backups dir).names, name.After other) :
    ((f'.backups dir).names.insertionSort BackupName.After).head? = some name ∧
      ∃ file, (f'.backups dir).find name = some file ∧ file.contents = contents := by
  obtain ⟨modified, hfiles⟩ := h.files
  have hnew : ({ name := name, contents, modified } : BackupFile) ∈ (f'.backups dir).files := by
    rw [hfiles]
    refine List.mem_filter.mpr ⟨by simp, ?_⟩
    simpa using newest_not_surplus keep name ((f.backups dir).names ++ [name])
  constructor
  · refine head_newest (List.mem_map_of_mem hnew) ?_
    intro other hother
    rw [BackupDir.names, hfiles, names_without] at hother
    have hold := (List.mem_filter.mp hother).1
    rw [List.map_append, List.mem_append] at hold
    rcases hold with hold | hold
    · exact hafter other hold
    · obtain rfl := List.mem_singleton.mp hold
      exact .inr ⟨rfl, String.le_refl _⟩
  · exact ⟨_, BackupDir.find_eq_some.mpr ⟨hnew, rfl⟩, rfl⟩

/-- One timely change keeps the first backup equal to what was replaced last. -/
theorem after_firstHeld {host : Host} {fstab dir : Path} {s : Tracked} {change : Change}
    (hheld : FirstHeld dir s) (htimely : Timely host fstab dir s change) :
    FirstHeld dir (after host fstab dir s change) := by
  unfold after
  unfold Timely at htimely
  split
  · rename_i outcome disk hexec
    rw [hexec] at htimely
    unfold TimelyEnd at htimely
    dsimp only at htimely
    obtain ⟨⟨req, previous, hpath, hdir, hwrote⟩, hnamed⟩ := program_ok hexec
    rw [← hdir] at htimely ⊢
    rcases hwrote.backed with ⟨hnone, -, hsame, -⟩ | ⟨contents, name, hprev, -, hbackup, htook⟩
    · rw [if_neg (by simp [hnone])] at htimely
      intro name hname
      dsimp only at hname
      rw [hsame, htimely] at hname
      cases hname
    · rw [if_pos (by simp [hbackup])] at htimely
      have hafter : ∀ other ∈ (s.disk.backups req.backupDir).names, name.After other :=
        fun other hother => IsTrans.trans _ _ _ (hnamed _ hbackup) (htimely other hother)
      obtain ⟨hfirst, file, hfound, hcontents⟩ := took_first htook hafter
      intro first hname
      dsimp only at hname
      rw [hfirst] at hname
      obtain rfl := Option.some.inj hname
      refine ⟨file, hfound, ?_⟩
      have hnode := hwrote.found
      rw [hpath, hprev] at hnode
      dsimp only
      rw [Files.contents, hnode, hcontents]
      rfl
  · rename_i err disk hexec
    rw [hexec] at htimely
    intro name hname
    have hsame : disk.backups dir = s.disk.backups dir := backupDir_ext htimely
    dsimp only at hname ⊢
    rw [hsame] at hname ⊢
    exact hheld name hname

/-- What a start passes to `added_mounts` as the previous text is what was replaced last. -/
def ComparesReplaced (fstab dir : Path) (s : Tracked) : Prop :=
  ∀ (rs : RunnerSetup) (allow : Allowlist) (target : TargetId) (tick : Nat) (active : List String)
    (entry : TargetEntry) (plan : Plan),
    mountTarget allow target = .ok entry → entry.path = fstab → entry.backupDir = dir →
    planStart rs allow target tick s.disk.toFiles active = .ok plan →
    ∃ replaced previous current, s.replaced = some replaced ∧ ofUtf8 replaced = some previous ∧
      (s.disk.contents fstab).bind ofUtf8 = some current ∧
      plan.refused = (rs.added previous current).filter (fun unit => covers unit.mountpoint rs.shelter) ∧
      plan.allowed = (rs.added previous current).filter (fun unit => !covers unit.mountpoint rs.shelter)

omit [Sha256] in
theorem text_ok {bytes : Bytes} {source : Text} (h : text bytes = .ok source) :
    ofUtf8 bytes = some source := by
  unfold text at h
  split at h
  · rename_i hsource
    rw [hsource, Except.ok.inj h]
  · cases h

theorem readTarget_ok {rs : RunnerSetup} {tick : Nat} {f : Files} {path : Path}
    {found : Bytes × Sha256Digest} (h : readTarget rs tick f path = .ok found) :
    f.contents path = some found.1 := by
  unfold readTarget at h
  split at h
  · cases h
  · split at h
    · rename_i hnode
      rw [← Except.ok.inj h, Files.contents, hnode]
    all_goals cases h

omit [Sha256] in
theorem newestBackup_ok {rs : RunnerSetup} {tick : Nat} {f : Files} {dir : Path} {bytes : Bytes}
    (h : newestBackup rs tick f dir = .ok bytes) :
    ∃ name file, ((f.backups dir).names.insertionSort BackupName.After).head? = some name ∧
      (f.backups dir).find name = some file ∧ file.contents = bytes := by
  unfold newestBackup at h
  split at h
  · cases h
  · split at h
    · cases h
    · rename_i name hhead
      split at h
      · cases h
      · rename_i file _ hfound
        exact ⟨name, file, hhead, hfound, Except.ok.inj h⟩
      · cases h

theorem comparesReplaced_of_firstHeld {fstab dir : Path} {s : Tracked} (h : FirstHeld dir s) :
    ComparesReplaced fstab dir s := by
  rintro rs allow target tick active entry plan hentry rfl rfl hplan
  obtain ⟨entry', hentry', hplan⟩ := ok_of_bind hplan
  obtain rfl := Except.ok.inj (hentry.symm.trans hentry')
  obtain ⟨current, hcurrent, hplan⟩ := ok_of_bind hplan
  obtain ⟨previous, hprevious, hplan⟩ := ok_of_bind hplan
  obtain ⟨previousText, hpreviousText, hplan⟩ := ok_of_bind hplan
  obtain ⟨currentText, hcurrentText, hplan⟩ := ok_of_bind hplan
  obtain ⟨_, -, hplan⟩ := ok_of_bind hplan
  cases hplan
  obtain ⟨name, file, hhead, hfound, rfl⟩ := newestBackup_ok hprevious
  obtain ⟨file', hfound', hreplaced⟩ := h name hhead
  obtain rfl := Option.some.inj (hfound.symm.trans hfound')
  refine ⟨file.contents, previousText, currentText, hreplaced, text_ok hpreviousText, ?_, rfl, rfl⟩
  rw [readTarget_ok hcurrent]
  exact text_ok hcurrentText

/-- **Mount activation compares with the contents before the apply**, in every run of timely
changes from a file without backups. -/
theorem timely_compares {host : Host} {fstab dir : Path} {s s' : Tracked} {changes : List Change}
    (hstart : (s.disk.backups dir).names = [])
    (hrun : Run (Guarded (Timely host fstab dir) (Changes host fstab dir)) s changes s') :
    ComparesReplaced fstab dir s' := by
  refine comparesReplaced_of_firstHeld ?_
  refine hrun.invariant (I := FirstHeld dir) ?_ ?_
  · intro t change t' hheld hstep
    rw [← Option.some.inj hstep.2]
    exact after_firstHeld hheld hstep.1
  · intro name hname
    rw [hstart] at hname
    cases hname

end Model

section Runs

attribute [local instance] Sample.sha256

def fstab : Path := "/etc/fstab"

def backups : Path := "backups/mounts/0"

/-- A host whose wall clock reads `clock` at each effect. -/
def clockHost (clock : Nat → Nat) : Host := { Sample.host with systemTime := clock }

/-- The file holds `a` and has no backup. -/
def unsaved : Tracked where
  disk :=
    { Sample.disk [] with
      node := fun other => if other = fstab then some (.file [97]) else none }
  replaced := none

def writeB : Change := .write [98] none 20 .never

def writeC : Change := .write [99] none 20 .never

def afterB (clock : Nat → Nat) : Tracked := after (clockHost clock) fstab backups unsaved writeB

def afterC (clock : Nat → Nat) : Tracked :=
  after (clockHost clock) fstab backups (afterB clock) writeC

def allow : Allowlist where
  modules := [{ Sample.descriptor with addedMounts := true }]
  targets := TargetTable.empty.push ⟨0⟩ fstab .file backups
  checks := []
  bindings := []
  config := { keepBackups := 20, init := .systemd, activateMounts := true }

/-- A module that gives one unit, with the previous text as its mount point. -/
def runner : RunnerSetup where
  added previous _ := [{ mountpoint := String.ofList previous, unit := "srv.mount" }]
  shelter := []
  errorText _ := "file error"
  invalidNameText name := "invalid unit name: " ++ name
  fault _ _ := none

/-- The mount point of the unit a start allows. -/
def comparedText (s : Tracked) : Option (List String) :=
  match planStart runner allow ⟨0⟩ 0 s.disk.toFiles [] with
  | .ok plan => some (plan.allowed.map (·.mountpoint))
  | .error _ => none

/-- With a clock that goes forward the start compares with the contents `c` replaced. -/
theorem forward_compares :
    (afterC id).replaced = some [98] ∧ comparedText (afterC id) = some ["b"] ∧
      ComparesReplaced fstab backups (afterC id) := by
  have hrun : Run (Guarded (Timely (clockHost id) fstab backups)
      (Changes (clockHost id) fstab backups)) unsaved [writeB, writeC] (afterC id) := by
    refine Run.cons (t := afterB id) ⟨?_, rfl⟩ (Run.cons ⟨?_, rfl⟩ (Run.nil _))
    · decide
    · decide
  exact ⟨by decide, by decide, timely_compares rfl hrun⟩

/-- With a clock that goes back the start compares with the contents before that. -/
theorem backward_compares_older :
    Run (Changes (clockHost (100 - ·)) fstab backups) unsaved [writeB, writeC] (afterC (100 - ·)) ∧
      (afterC (100 - ·)).replaced = some [98] ∧ comparedText (afterC (100 - ·)) = some ["a"] ∧
      ¬ ComparesReplaced fstab backups (afterC (100 - ·)) := by
  refine ⟨Run.cons rfl (Run.cons rfl (Run.nil _)), by decide, by decide, ?_⟩
  intro h
  have hcompared : comparedText (afterC (100 - ·)) = some ["a"] := by decide
  unfold comparedText at hcompared
  split at hcompared
  · rename_i plan hplan
    obtain ⟨replaced, previous, current, hreplaced, hprevious, -, -, hallowed⟩ :=
      h runner allow ⟨0⟩ 0 [] _ plan rfl rfl rfl hplan
    have hlast : (afterC (100 - ·)).replaced = some [98] := by decide
    obtain rfl := Option.some.inj (hreplaced.symm.trans hlast)
    have hb : ofUtf8 [98] = some ['b'] := by decide
    obtain rfl := Option.some.inj (hprevious.symm.trans hb)
    have hadded : runner.added ['b'] current = [{ mountpoint := "b", unit := "srv.mount" }] := rfl
    rw [hallowed, hadded] at hcompared
    exact absurd hcompared (by decide)
  · cases hcompared

end Runs

end Detent.Guarantees.ComparedContents
