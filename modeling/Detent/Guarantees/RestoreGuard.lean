import Detent.Guarantees.Attachment
import Detent.Guarantees.BackupIds
import Detent.Lib.Except

/-!
# The expected hash of a restore

`OpsEngine::restore` compares the expected hash with the target it detects, and
asks the monitor to restore a backup by its id. The monitor looks the id up among
the backups of all targets of the module and restores without a guard. So the hash
guards the file that is overwritten exactly when that file holds, at the restore,
what the detected target held at the read.
-/
namespace Detent.Guarantees.RestoreGuard
open Lib Source Source.Engine Source.Monitor

section Restores

variable [Sha256] (m : Setup) {host : Host} {out : Outside} {e : OpsEngine}

/-- A restore that reports success overwrote contents with the expected digest. -/
def RestoreGuarded (expected : Sha256Digest) (result : Except OpsError OpOutcome)
    (served : List Exchange) : Prop :=
  ∀ target newHash, result = .ok (.restored target newHash) →
    ∃ exchange module backup, served.getLast? = some exchange ∧
      exchange.request = .restore module backup ∧
      (held m exchange.before target).map Sha256.of = some expected

/-- What has to be true of the backup a call names, when its read found the detected
target and its request for the restore is served: it is listed as one of the detected
target, which nobody has changed since the read, or as one of another target, which
happens to hold what the read found. -/
def NamesWhatWasRead (backup : BackupId) (earlier served : List Exchange) : Prop :=
  ∀ read restore detected module row, served = earlier ++ [read, restore] →
    read.request = .readTarget detected → restore.request = .restore module backup →
    (listingOf m module restore.before.backups)[backup.get]? = some row →
      row.target = detected ∧ held m restore.before detected = held m read.before detected ∨
        row.target ≠ detected ∧ held m restore.before row.target = held m read.before detected

variable {m} {s s' : Session × Around} {id : String} {backup : BackupId}
  {expected : Sha256Digest} {target : TargetId} {newHash : Sha256Digest}

variable (m) in
/-- How a restore that succeeded went: the read found contents with the expected digest,
and the monitor restored the target of the row the backup names. -/
structure RestoreRun (backup : BackupId) (expected : Sha256Digest) (target : TargetId)
    (read restore : Exchange) (detected : TargetId) (contents : Bytes) (module : ModuleId)
    (row : Row) : Prop where
  reads : read.request = .readTarget detected
  found : held m read.before detected = some contents
  digest : Sha256.of contents = expected
  restores : restore.request = .restore module backup
  listed : (listingOf m module restore.before.backups)[backup.get]? = some row
  overwrites : row.target = target

theorem restoreRun_of_exec
    (h : Fallible.exec (engine (attached m host out))
      (Engine.restore e id backup (some expected)) s = (.ok (.restored target newHash), s')) :
    ∃ read restore detected contents module row, s'.2.served = s.2.served ++ [read, restore] ∧
      RestoreRun m backup expected target read restore detected contents module row := by
  unfold Engine.restore at h
  obtain ⟨found, -, h⟩ := exec_orThrow_bind_eq_ok h
  obtain ⟨module, -, h⟩ := exec_orThrow_bind_eq_ok h
  obtain ⟨wired, s₁, hwiring, h⟩ := Fallible.exec_bind_eq_ok _ h
  have h₁ := silent_served (wiring_uses e _ _) hwiring
  obtain ⟨contents, s₂, hread, h⟩ := Fallible.exec_bind_eq_ok _ h
  obtain ⟨-, response, hserved, hselect⟩ := mapped_served hread
  obtain rfl : response = .target contents := by
    cases response <;> first | cases hselect; rfl | cases hselect
  obtain ⟨hheld, hof⟩ := hserved.pass.readTarget
  have h₂ := hserved.served
  rw [h₁] at h₂
  rw [Fallible.exec_bind_ok _ (exec_noteHashes _ _ _)] at h
  -- the guard of the engine
  have hexpected : expected = contents.digest := by
    by_contra hne
    have hfilter : (some expected).filter (fun expected => expected ≠ contents.digest) =
        some expected := by
      simp [hne]
    rw [hfilter] at h
    cases h
  have hfilter : (some expected).filter (fun expected => expected ≠ contents.digest) = none := by
    simp [hexpected]
  rw [hfilter] at h
  obtain ⟨⟨found', digest'⟩, s₃, hrestore, h⟩ := Fallible.exec_bind_eq_ok _ h
  obtain ⟨-, answer, hserved', hselect'⟩ := mapped_served hrestore
  obtain rfl : answer = .restored found' digest' := by
    cases answer <;> first | cases hselect'; rfl | cases hselect'
  cases h
  -- the row of the monitor
  obtain ⟨mem, -, hpass⟩ := hserved'.pass
  obtain ⟨row, -, -, hrow, htarget, -⟩ := BackupIds.restore_answer m hpass
  refine ⟨{ request := .readTarget wired.target, before := (s₁.2.next out).world.disk
            after := s₂.2.world.disk, response := some (.target contents) },
    { request := .restore module backup, before := (s₂.2.next out).world.disk
      after := s₃.2.world.disk, response := some (.restored target newHash) },
    wired.target, contents.bytes, module, row, ?_, ⟨rfl, hheld, ?_, rfl, hrow, htarget⟩⟩
  · change s₃.2.served = _
    rw [hserved'.served]
    dsimp only
    rw [h₂, List.append_assoc]
    rfl
  · rw [← hof, hexpected]

/-- The expected hash guards the file that a restore overwrites exactly when the backup the
call names is, at the restore, one of a target that holds what the call read. -/
theorem restore_guarded_iff (hinj : Function.Injective (Sha256.of : Bytes → Sha256Digest))
    (h : Fallible.exec (engine (attached m host out))
      (Engine.restore e id backup (some expected)) s = (.ok (.restored target newHash), s')) :
    RestoreGuarded m expected (.ok (.restored target newHash)) s'.2.served ↔
      NamesWhatWasRead m backup s.2.served s'.2.served := by
  obtain ⟨read, restore, detected, contents, module, row, hserved, hrun⟩ := restoreRun_of_exec h
  have hlast : s'.2.served.getLast? = some restore := by simp [hserved]
  constructor
  · intro hguarded read' restore' detected' module' row' hserved' hread' hrestore' hrow'
    obtain ⟨rfl, rfl⟩ : read = read' ∧ restore = restore' := by
      simpa using List.append_cancel_left (hserved.symm.trans hserved')
    obtain rfl : detected = detected' := by
      simpa using hrun.reads.symm.trans hread'
    obtain rfl : module = module' := by
      simpa using hrun.restores.symm.trans hrestore'
    obtain rfl : row = row' := Option.some.inj (hrun.listed.symm.trans hrow')
    obtain ⟨exchange, _, _, hexchange, _, hmap⟩ := hguarded target newHash rfl
    obtain rfl : restore = exchange := Option.some.inj (hlast.symm.trans hexchange)
    obtain ⟨old, hold, hof⟩ := Option.map_eq_some_iff.mp hmap
    have hsame : held m restore.before row.target = held m read.before detected := by
      rw [hrun.overwrites, hold, hrun.found, hinj (hof.trans hrun.digest.symm)]
    by_cases hdetected : row.target = detected
    · rw [hdetected] at hsame
      exact .inl ⟨hdetected, hsame⟩
    · exact .inr ⟨hdetected, hsame⟩
  · intro hnames target' newHash' hresult
    cases hresult
    refine ⟨restore, module, backup, hlast, hrun.restores, ?_⟩
    have hsame : held m restore.before row.target = held m read.before detected := by
      rcases hnames read restore detected module row hserved hrun.reads hrun.restores hrun.listed with
        ⟨hdetected, hsame⟩ | ⟨-, hsame⟩
      · rw [hdetected, hsame]
      · exact hsame
    rw [← hrun.overwrites, hsame, hrun.found, Option.map_some, hrun.digest]

end Restores

section Runs

attribute [local instance] Sample.sha256

/-- A restore on the small monitor, whose file was written once. -/
def guardedRestore : Except OpsError OpOutcome × (Session × Around) :=
  Fallible.exec (engine (attached (Sample.setup 20) Sample.host (Sample.outside (fun _ w => w))))
    (Engine.restore (Sample.ops (Sample.setup 20)) "hosts" ⟨0⟩ (some (Sha256.of [98])))
    (Sample.start (Sample.serve 20 (Sample.world [97]) (.writeTarget ⟨0⟩ none [98] false)))

theorem restore_of_the_only_target :
    guardedRestore.1 = .ok (.restored ⟨0⟩ (Sha256.of [97])) ∧
      (RestoreGuarded (Sample.setup 20) (Sha256.of [98]) (.ok (.restored ⟨0⟩ (Sha256.of [97])))
          guardedRestore.2.2.served ↔
        NamesWhatWasRead (Sample.setup 20) ⟨0⟩ [] guardedRestore.2.2.served) := by
  have hoption : guardedRestore.1.toOption = some (.restored ⟨0⟩ (Sha256.of [97])) := by decide
  have hresult : guardedRestore.1 = .ok (.restored ⟨0⟩ (Sha256.of [97])) := eq_ok_of_toOption hoption
  exact ⟨hresult, restore_guarded_iff Sample.of_injective (Prod.ext hresult rfl)⟩

/-- A module with two files, of which it detects the first. -/
def twoFiles : DynModule where
  descriptor := { Sample.descriptor with
    targets := [{ path := "/etc/first", kind := .file, backendDetect := true },
      { path := "/etc/second", kind := .file, backendDetect := true }] }
  parseToModelJson source := .ok (String.ofList source)
  validateJson _ := .ok false
  applyJson _ model := .ok model.toList
  modelTargetJson _ := .ok none

def twoFilesSetup : Setup where
  allow :=
    { modules := [twoFiles.descriptor]
      targets := (TargetTable.empty.push ⟨0⟩ "/etc/first" .file "backups/hosts/0").push ⟨0⟩
        "/etc/second" .file "backups/hosts/1"
      checks := []
      bindings := []
      config := { keepBackups := 20, init := .systemd, activateMounts := false } }
  modules := [twoFiles]
  checksConfigured := false
  updateTagRefusal _ := none
  updater := false

/-- The first file holds `a`, the second `b`, and the only backup is one of the
second. -/
def twoFilesDisk : Disk where
  node path := if path = "/etc/first" then some (.file [97])
    else if path = "/etc/second" then some (.file [98]) else none
  backups dir := if dir = "backups/hosts/1" then
      { files := [{ name := { stamp := 1, short := "2e7d2c03" }, contents := [99], modified := 1 }]
        unique := List.nodup_singleton _ }
    else BackupDir.empty
  inPlace := none
  pending := none
  taken := []
  tick := 0

/-- A restore of that backup, with the hash of the first file. -/
def unguardedRestore : Except OpsError OpOutcome × (Session × Around) :=
  Fallible.exec (engine (attached twoFilesSetup Sample.host (Sample.outside (fun _ w => w))))
    (Engine.restore (Sample.ops twoFilesSetup) "hosts" ⟨0⟩ (some (Sha256.of [97])))
    (Sample.start { disk := twoFilesDisk, mem := some Sample.mem })

/-- The second file is overwritten though its contents never had the expected
hash. -/
theorem restore_of_the_other_file : ¬ RestoreGuarded twoFilesSetup (Sha256.of [97])
    unguardedRestore.1 unguardedRestore.2.2.served := by
  intro hguarded
  have hoption : unguardedRestore.1.toOption = some (.restored ⟨1⟩ (Sha256.of [99])) := by
    decide
  have hresult : unguardedRestore.1 = .ok (.restored ⟨1⟩ (Sha256.of [99])) := eq_ok_of_toOption hoption
  obtain ⟨exchange, _, _, hlast, -, hheld⟩ := hguarded ⟨1⟩ (Sha256.of [99]) hresult
  have hother : (unguardedRestore.2.2.served.getLast?.map
      (fun exchange => held twoFilesSetup exchange.before ⟨1⟩)) = some (some [98]) := by
    decide
  rw [hlast, Option.map_some, Option.some_inj] at hother
  rw [hother] at hheld
  revert hheld
  decide

end Runs

end Detent.Guarantees.RestoreGuard
