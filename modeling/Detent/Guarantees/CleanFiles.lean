import Detent.Lib.Contract
import Detent.Guarantees.AtomicWrite

/-!
# Contents that stay within a judgement

A judgement says which contents a target may have and which contents a backup
directory may hold; nothing at all is always within it. The programs of `Atomic`
write a target's own contents into its backup directory and backups over their
targets. Where the two judgements of a target agree, whatever these programs read
they may write, so files that are clean stay clean at every point, provided that
a write to a target or a backup never stops part-way.
-/
namespace Detent.Guarantees
open Lib Source Source.Atomic
open Fallible (Keeps.bind keeps_perform keeps_pure keeps_throw)

/-- The contents allowed at a path and in a backup directory. -/
structure Judgement where
  good : Path → Bytes → Prop
  kept : Path → Bytes → Prop
  good_nil : ∀ path, good path []
  kept_nil : ∀ dir, kept dir []

namespace Judgement

variable (j : Judgement)

/-- What clean files give a call. -/
def Reads : {β : Type} → FileOp β → β → Prop
  | _, .readNode path, node => ∀ contents, node = some (.file contents) → j.good path contents
  | _, .readBackup backup, file => j.kept backup.dir file.contents
  | _, _, _ => True

/-- The calls that keep files clean. -/
def Writes : {β : Type} → FileOp β → Prop
  | _, .renameTemp path contents | _, .writeTruncated path contents => j.good path contents
  | _, .fillBackup backup contents => j.kept backup.dir contents
  | _, _ => True

def contract : Contract SysOp where
  rely
    | _, .file op, result => ∀ value, result = .ok value → j.Reads op value
    | _, _, _ => True
  ok
    | _, .file op => j.Writes op
    | _, _ => True

/-- Every file and every backup is within the judgement. -/
structure Clean (f : Files) : Prop where
  node : ∀ path contents, f.node path = some (.file contents) → j.good path contents
  backups : ∀ dir, ∀ file ∈ (f.backups dir).files, j.kept dir file.contents

end Judgement

/-- The contents a `write_all` writes. -/
def payload : {β : Type} → FileOp β → Option Bytes
  | _, .writeTruncated _ contents | _, .fillBackup _ contents => some contents
  | _, _ => none

/-- A write to a target or a backup that fails has written nothing or all. -/
def WritesWhole (host : Host) : Prop :=
  ∀ tick {β : Type} (op : FileOp β) kind written contents,
    host.fault tick op = some (kind, written) → payload op = some contents →
      written = 0 ∨ contents.length ≤ written

variable {host : Host} {j : Judgement} {f f' : Files} {β : Type} {op : FileOp β}

theorem clean_setNode {path : Path} {contents : Bytes} (h : j.Clean f)
    (hgood : j.good path contents) : j.Clean (f.setNode path (.file contents)) where
  node other found hfound := by
    by_cases heq : other = path
    · subst heq
      simp only [Files.setNode, Function.update_self] at hfound
      cases hfound
      exact hgood
    · simp only [Files.setNode, Function.update_of_ne heq] at hfound
      exact h.node other found hfound
  backups := h.backups

variable {files : BackupDir}

theorem clean_setBackups {dir : Path} {taken : List BackupPath} (h : j.Clean f)
    (hkept : ∀ file ∈ files.files, j.kept dir file.contents) :
    j.Clean { f.setBackups dir files with taken } where
  node := h.node
  backups other file hfile := by
    by_cases heq : other = dir
    · subst heq
      simp only [Files.setBackups, Function.update_self] at hfile
      exact hkept file hfile
    · simp only [Files.setBackups, Function.update_of_ne heq] at hfile
      exact h.backups other file hfile

theorem kept_fill {dir : Path} {name : BackupName} {contents : Bytes} {modified : Nat}
    (h : ∀ file ∈ files.files, j.kept dir file.contents) (hkept : j.kept dir contents) :
    ∀ file ∈ (files.fill name contents modified).files, j.kept dir file.contents := by
  intro file hfile
  obtain ⟨before, hbefore, rfl⟩ := List.mem_map.mp hfile
  split
  · exact hkept
  · exact h before hbefore

theorem kept_create {dir : Path} {created : BackupDir} {name : BackupName} {modified : Nat}
    (h : ∀ file ∈ files.files, j.kept dir file.contents)
    (hcreate : files.create name modified = some created) :
    ∀ file ∈ created.files, j.kept dir file.contents := by
  unfold BackupDir.create at hcreate
  split at hcreate <;> cases hcreate
  intro file hfile
  rcases List.mem_append.mp hfile with hold | hnew
  · exact h file hold
  · obtain rfl := List.mem_singleton.mp hnew
    exact j.kept_nil dir

theorem effect_clean {tick : Nat} {value : β} (hop : j.Writes op) (h : j.Clean f)
    (heffect : op.effect host tick f = .ok (value, f')) : j.Clean f' ∧ j.Reads op value := by
  cases op with
  | readNode path =>
    cases heffect
    exact ⟨h, h.node path⟩
  | renameTemp path contents =>
    cases heffect
    exact ⟨clean_setNode h hop, trivial⟩
  | openTruncate path =>
    simp only [FileOp.effect] at heffect
    split at heffect <;> cases heffect
    exact ⟨clean_setNode h (j.good_nil path), trivial⟩
  | writeTruncated path contents =>
    cases heffect
    exact ⟨clean_setNode h hop, trivial⟩
  | createBackup backup =>
    simp only [FileOp.effect] at heffect
    split at heffect <;> cases heffect
    rename_i created hcreate
    exact ⟨clean_setBackups h (kept_create (h.backups _) hcreate), trivial⟩
  | fillBackup backup contents =>
    cases heffect
    exact ⟨clean_setBackups h (kept_fill (h.backups _) hop), trivial⟩
  | readBackup backup =>
    simp only [FileOp.effect] at heffect
    split at heffect <;> cases heffect
    rename_i hfound
    exact ⟨h, h.backups _ _ (BackupDir.find_eq_some.mp hfound).1⟩
  | unlinkBackup backup =>
    simp only [FileOp.effect] at heffect
    split at heffect <;> cases heffect
    have hrest : ∀ file ∈ ((f.backups backup.dir).unlink backup.name).files,
        j.kept backup.dir file.contents := by
      intro file hfile
      exact h.backups _ file (List.mem_filter.mp hfile).1
    exact ⟨clean_setBackups h hrest, trivial⟩
  | _ =>
    simp only [FileOp.effect] at heffect
    (try split at heffect) <;> cases heffect
    all_goals exact ⟨⟨h.node, h.backups⟩, trivial⟩

theorem take_whole {p : Bytes → Prop} {contents : Bytes} {written : Nat} (hnil : p [])
    (hall : p contents) (h : written = 0 ∨ contents.length ≤ written) :
    p (contents.take written) := by
  rcases h with rfl | hlong
  · rw [List.take_zero]
    exact hnil
  · rw [List.take_of_length_le hlong]
    exact hall

theorem cutShort_clean {tick written : Nat} (hop : j.Writes op) (h : j.Clean f)
    (hwhole : ∀ contents, payload op = some contents → written = 0 ∨ contents.length ≤ written)
    (hcut : op.cutShort host tick written f = some f') : j.Clean f' := by
  cases op with
  | writeTruncated path contents =>
    cases hcut
    exact clean_setNode h (take_whole (j.good_nil path) hop (hwhole contents rfl))
  | fillBackup backup contents =>
    cases hcut
    exact clean_setBackups h (kept_fill (h.backups _)
      (take_whole (j.kept_nil backup.dir) hop (hwhole contents rfl)))
  | _ =>
    cases hcut
    all_goals exact ⟨h.node, h.backups⟩

/-- On a host that never tears such a write the contract holds of clean files. -/
theorem contract_upheld (hwhole : WritesWhole host) :
    j.contract.Upheld (sys host) (fun d => j.Clean d.toFiles) where
  keeps β e d hok h := by
    cases e with
    | file op =>
      change j.Clean (op.perform host d).2.toFiles
      unfold FileOp.perform
      split
      · rename_i kind written hfault
        cases hcut : op.cutShort host d.tick written d.toFiles with
        | none => exact h
        | some f => exact cutShort_clean hok h (hwhole d.tick op kind written · hfault) hcut
      · split
        · rename_i heffect
          exact (effect_clean hok h heffect).1
        · exact h
    | hook | runCheck | systemTime | instant => exact h
  gives β e d hok h := by
    cases e with
    | file op =>
      intro value hvalue
      rcases hperform : op.perform host d with ⟨result, d'⟩
      change (op.perform host d).1 = .ok value at hvalue
      rw [hperform] at hvalue
      cases hvalue
      exact (effect_clean hok h (perform_ok hperform).1).2
    | hook | runCheck | systemTime | instant => trivial

theorem call_keeps {label : String} (hop : j.Writes op) :
    Fallible.Keeps j.contract (j.Reads op) (call label op) := by
  apply Keeps.bind (keeps_perform (E := SysOp) hop (fun _ hresult => hresult))
  intro result hresult
  cases result with
  | ok value => exact keeps_pure (hresult value rfl)
  | error kind => exact keeps_throw _

theorem call_keeps_any {label : String} (hop : j.Writes op) :
    Fallible.Keeps j.contract (fun _ => True) (call label op) :=
  (call_keeps hop).weaken (fun _ _ => trivial)

section Programs

variable {path dir : Path} {contents : Bytes} {req : WriteRequest}

theorem createBackupFile_keeps (short : String) (now attempt left : Nat) :
    Fallible.Keeps j.contract (fun _ => True) (createBackupFile dir short now attempt left) := by
  induction left generalizing attempt with
  | zero => exact keeps_throw _
  | succ left ih =>
    apply Keeps.bind (keeps_perform (Q := fun _ => True) trivial (fun _ _ => trivial))
    intro result _
    split
    · exact keeps_pure trivial
    · exact ih (attempt + 1)
    · exact keeps_throw _

theorem writeBackup_keeps {digest : Sha256Digest} {now : Nat} (h : j.kept dir contents) :
    Fallible.Keeps j.contract (fun backup => backup.dir = dir)
      (writeBackup dir contents digest now) := by
  apply Keeps.bind (createBackupFile_keeps digest.shortHex now 0 nameAttempts)
  intro name _
  apply Keeps.bind (keeps_perform (Q := fun _ => True) h (fun _ _ => trivial))
  intro result _
  cases result with
  | ok _ =>
    apply Keeps.bind (call_keeps_any (by trivial))
    intro _ _
    exact keeps_pure rfl
  | error kind =>
    apply Keeps.bind (keeps_perform (Q := fun _ => True) trivial
      (fun _ _ => trivial))
    intro _ _
    exact keeps_throw _

theorem unlinkBackups_keeps (names : List BackupName) :
    Fallible.Keeps j.contract (fun _ => True) (unlinkBackups dir names) := by
  induction names with
  | nil => exact keeps_pure trivial
  | cons name names ih =>
    apply Keeps.bind (call_keeps_any (by trivial))
    intro _ _
    exact ih

theorem rotateBackups_keeps (keep : Nat) (newest : BackupName) :
    Fallible.Keeps j.contract (fun _ => True) (rotateBackups dir keep newest) := by
  apply Keeps.bind (call_keeps_any (by trivial))
  intro names _
  split
  · exact keeps_pure trivial
  · apply Keeps.bind (unlinkBackups_keeps _)
    intro _ _
    exact call_keeps_any trivial

variable {existing : Option Existing}

theorem backUp_keeps (h : ∀ found, existing = some found → j.kept req.backupDir found.contents) :
    Fallible.Keeps j.contract (fun backup => ∀ path, backup = some path → path.dir = req.backupDir)
      (backUp req existing) := by
  cases existing with
  | none => exact keeps_pure (by simp)
  | some found =>
    unfold backUp
    dsimp only
    split
    · apply Keeps.bind (keeps_perform (Q := fun _ => True) trivial
        (fun _ _ => trivial))
      intro now _
      apply Keeps.bind (writeBackup_keeps (h found rfl))
      intro backup hbackup
      apply Keeps.bind (rotateBackups_keeps req.keepBackups backup.name)
      intro _ _
      apply keeps_pure
      intro path hpath
      rw [← Option.some.inj hpath]
      exact hbackup
    · exact keeps_pure (by simp)

theorem replaceContents_keeps (h : j.good path contents) :
    Fallible.Keeps j.contract (fun _ => True) (replaceContents path contents existing) := by
  apply Keeps.bind (call_keeps_any (by trivial))
  intro _ _
  apply Keeps.bind (call_keeps_any (by trivial))
  intro _ _
  apply Keeps.bind (call_keeps_any (by exact h))
  intro _ _
  apply Keeps.bind (call_keeps_any (by trivial))
  intro _ _
  exact keeps_pure trivial

theorem writeMarker_keeps (record : InPlaceMarker) :
    Fallible.Keeps j.contract (fun _ => True) (writeMarker record) := by
  apply Keeps.bind (call_keeps_any (by trivial))
  intro _ _
  apply Keeps.bind (call_keeps_any (by trivial))
  intro _ _
  exact call_keeps_any trivial

theorem removeMarker_keeps : Fallible.Keeps j.contract (fun _ => True) removeMarker := by
  apply Keeps.bind (call_keeps_any (by trivial))
  intro _ _
  exact call_keeps_any trivial

theorem writeInPlace_keeps (h : j.good path contents) :
    Fallible.Keeps j.contract (fun _ => True) (writeInPlace path contents) := by
  apply Keeps.bind (call_keeps_any (by trivial))
  intro _ _
  apply Keeps.bind (call_keeps_any (by exact h))
  intro _ _
  exact call_keeps_any trivial

variable [Sha256]

theorem installInPlace_keeps {found : Existing} {backup : Option BackupPath} {err : AtomicError}
    (h : j.good req.path req.contents) :
    Fallible.Keeps j.contract (fun _ => True) (installInPlace req found backup err) := by
  unfold installInPlace
  split
  · exact keeps_throw _
  · split
    · exact keeps_throw _
    · apply Keeps.bind (writeMarker_keeps _)
      intro _ _
      apply Keeps.bind (writeInPlace_keeps h).attempt
      intro result _
      split
      · apply Keeps.bind removeMarker_keeps
        intro _ _
        exact keeps_pure trivial
      · apply Keeps.bind removeMarker_keeps
        intro _ _
        exact keeps_throw _
      · exact keeps_throw _
  · apply Keeps.bind (writeInPlace_keeps h)
    intro _ _
    exact keeps_pure trivial

theorem install_keeps {backup : Option BackupPath} (h : j.good req.path req.contents) :
    Fallible.Keeps j.contract (fun _ => True) (install req existing backup) := by
  apply Keeps.bind (replaceContents_keeps h).attempt
  intro result _
  split
  · split
    · exact installInPlace_keeps h
    · exact keeps_throw _
  · exact keeps_throw _
  · exact keeps_pure trivial

theorem readExisting_keeps (path : Path) :
    Fallible.Keeps j.contract
      (fun existing => ∀ found, existing = some found → j.good path found.contents)
      (readExisting path) := by
  apply Keeps.bind (call_keeps (by trivial))
  intro node hnode
  split
  · exact keeps_pure (by simp)
  · apply keeps_pure
    intro found hfound
    rw [← Option.some.inj hfound]
    exact hnode _ rfl
  all_goals exact keeps_throw _

theorem readWithDigest_keeps (path : Path) :
    Fallible.Keeps j.contract (fun found => j.good path found.1) (readWithDigest path) := by
  apply Keeps.bind (readExisting_keeps path)
  intro existing hexisting
  split
  · exact keeps_pure (hexisting _ rfl)
  · exact keeps_throw _

omit [Sha256] in
theorem checkExpected_keeps (expectedPrev : Option Sha256Digest) (existing : Option Existing) :
    Fallible.Keeps j.contract (fun _ => True) (checkExpected expectedPrev existing) := by
  unfold checkExpected
  split
  · exact keeps_pure trivial
  · dsimp only
    split
    · exact keeps_pure trivial
    · exact keeps_throw _

/-- A write of good contents backs up what was there, in its own directory. -/
theorem writeAtomic_keeps (hgood : j.good req.path req.contents)
    (hkept : ∀ contents, j.good req.path contents → j.kept req.backupDir contents) :
    Fallible.Keeps j.contract
      (fun outcome => ∀ backup, outcome.backup = some backup → backup.dir = req.backupDir)
      (writeAtomic req) := by
  apply Keeps.bind (readExisting_keeps req.path)
  intro existing hexisting
  apply Keeps.bind (checkExpected_keeps req.expectedPrev existing)
  intro _ _
  apply Keeps.bind (backUp_keeps (fun found hfound => hkept _ (hexisting found hfound)))
  intro backup hbackup
  apply Keeps.bind (install_keeps hgood)
  intro _ _
  exact keeps_pure hbackup

/-- Path and backup directory of one target: the two judgements agree. -/
def Judgement.Linked (j : Judgement) (path dir : Path) : Prop :=
  ∀ contents, j.good path contents ↔ j.kept dir contents

theorem restoreBackupWith_keeps {backup : BackupPath} {target : Path}
    (h : j.Linked target backup.dir) (expectedPrev : Option Sha256Digest) (inPlace : InPlace) :
    Fallible.Keeps j.contract (fun _ => True)
      (restoreBackupWith backup target expectedPrev inPlace) := by
  apply Keeps.bind (call_keeps (by trivial))
  intro file hfile
  have hgood : j.good target file.contents := (h file.contents).mpr hfile
  have hkept : ∀ contents, j.good target contents → j.kept backup.dir contents := by
    intro contents hcontents
    exact (h contents).mp hcontents
  exact Fallible.Keeps.weaken (writeAtomic_keeps hgood hkept) (fun _ _ => trivial)

theorem readEntries_keeps (names : List BackupName) :
    Fallible.Keeps j.contract (fun entries => ∀ entry ∈ entries, entry.path.dir = dir)
      (readEntries dir names) := by
  induction names with
  | nil => exact keeps_pure (by simp)
  | cons name names ih =>
    apply Keeps.bind (call_keeps_any (by trivial))
    intro file _
    apply Keeps.bind ih
    intro entries hentries
    apply keeps_pure
    intro entry hentry
    rcases List.mem_cons.mp hentry with rfl | hrest
    · rfl
    · exact hentries entry hrest

theorem listBackups_keeps (dir : Path) :
    Fallible.Keeps j.contract (fun entries => ∀ entry ∈ entries, entry.path.dir = dir)
      (listBackups dir) := by
  apply Keeps.bind (call_keeps_any (by trivial))
  intro names _
  exact readEntries_keeps _

end Programs

end Detent.Guarantees
