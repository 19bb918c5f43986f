import Mathlib.Tactic.IntervalCases
import Detent.Source.Channel

/-!
# Which responses fit a frame

Most responses are small whatever the request: `Small` bounds them and
`truncate` bounds the details in them. Three kinds carry data from outside at full
length: the contents of a target, the list of a module's backups or of mount
units, and the texts of parsers, validators and hooks. `Room` says, for a request
and the state before it, that this data leaves room in the frame.
-/
namespace Detent.Guarantees.Answers
open Lib Source Source.Atomic Source.Monitor Source.Channel
open Fallible (Ends.exec EndsIn ends_perform ends_throw)
open Prog (returns_bind run_bind run_pure)

/-! ## Sizes -/

theorem numberLen_le (cap n : Nat) : numberLen cap n ≤ cap := Nat.min_le_right _ _

@[simp] theorem u16Len_le (n : Nat) : u16Len n ≤ 3 := numberLen_le 3 n
@[simp] theorem u32Len_le (n : Nat) : u32Len n ≤ 5 := numberLen_le 5 n
@[simp] theorem u64Len_le (n : Nat) : u64Len n ≤ 10 := numberLen_le 10 n

theorem bytesLen_le (n : Nat) : bytesLen n ≤ n + 10 := by
  have := u64Len_le n
  unfold bytesLen
  omega

/-- Below two mebibytes a length takes at most three bytes, and near the limit of a
frame it takes exactly three. -/
theorem bytesLen_fits (k n : Nat) (hk : k ≤ 1000) :
    k + bytesLen n ≤ maxFrame ↔ k + 3 + n ≤ maxFrame := by
  unfold bytesLen u64Len numberLen maxFrame
  by_cases hsmall : n < 128 ^ 2
  · have hlog : Nat.log 128 n < 2 := Nat.log_lt_of_lt_pow' (by decide) hsmall
    omega
  · by_cases hlarge : n < 128 ^ 3
    · have hlog : Nat.log 128 n = 2 :=
        (Nat.log_eq_iff (Or.inl (by decide))).mpr ⟨by omega, by omega⟩
      rw [hlog]
      omega
    · omega

/-- The response fits a frame. -/
def Fits (response : Response) : Prop := responseLen response ≤ maxFrame

instance (response : Response) : Decidable (Fits response) :=
  inferInstanceAs (Decidable (_ ≤ _))

/-- A response far below the limit. -/
theorem fits_of_le {response : Response} (h : responseLen response ≤ 1024) : Fits response :=
  Nat.le_trans h (by decide)

/-- A text that leaves room for the rest of an error. -/
def ShortText (text : String) : Prop := 5 + text.utf8ByteSize ≤ maxFrame

instance (text : String) : Decidable (ShortText text) := inferInstanceAs (Decidable (_ ≤ _))

/-- An error whose text, if it has one, leaves room for the rest. -/
def ShortError : ProtoError → Prop
  | .unsupported text | .unavailable text | .io text => ShortText text
  | _ => True

theorem text_fits (text : String) : 1 + (1 + textLen text) ≤ maxFrame ↔ ShortText text := by
  have h := bytesLen_fits 2 text.utf8ByteSize (by omega)
  unfold ShortText textLen
  omega

/-- An error fits exactly when its text leaves room. -/
theorem error_fits (err : ProtoError) : Fits (.error err) ↔ ShortError err := by
  cases err with
  | unsupported text | unavailable text | io text => exact text_fits text
  | versionMismatch expected got =>
    have h₁ := u16Len_le expected
    have h₂ := u16Len_le got
    refine ⟨fun _ => trivial, fun _ => fits_of_le ?_⟩
    simp only [responseLen, errorLen]
    omega
  | unknownId kind id =>
    have h := u32Len_le id
    refine ⟨fun _ => trivial, fun _ => fits_of_le ?_⟩
    simp only [responseLen, errorLen]
    omega
  | conflict expected actual =>
    have h := bytesLen_le 64
    refine ⟨fun _ => trivial, fun _ => fits_of_le ?_⟩
    cases actual <;> simp only [responseLen, errorLen, optionLen, digestLen] <;> omega
  | commitPending commit | commitExpired commit =>
    have h := u32Len_le commit.get
    refine ⟨fun _ => trivial, fun _ => fits_of_le ?_⟩
    simp only [responseLen, errorLen]
    omega
  | _ =>
    refine ⟨fun _ => trivial, fun _ => fits_of_le ?_⟩
    simp [responseLen, errorLen]

/-! ## Texts the monitor writes itself -/

theorem utf8ByteSize_takeBytes (limit : Nat) (text : Text) :
    (String.ofList (takeBytes limit text)).utf8ByteSize ≤ limit := by
  induction text generalizing limit with
  | nil => simp [takeBytes]
  | cons c cs ih =>
    rw [takeBytes]
    split
    next hfits =>
      have hrest := ih (limit - c.utf8Size)
      rw [String.ofList_cons, String.utf8ByteSize_append, String.utf8ByteSize_singleton]
      omega
    · simp

/-- A truncated detail takes at most 522 bytes. -/
theorem textLen_truncate (detail : String) : textLen (truncate detail) ≤ 522 := by
  have h := utf8ByteSize_takeBytes detailLimit detail.toList
  have hbytes := bytesLen_le (truncate detail).utf8ByteSize
  unfold textLen
  unfold truncate at hbytes ⊢
  unfold detailLimit at h hbytes ⊢
  omega

/-- The operations named in the errors of file programs. -/
def ShortOp : AtomicError → Prop
  | .io op _ => op.utf8ByteSize ≤ 8
  | _ => True

/-- The error of a file program fits, as a response. -/
theorem shortError_atomic {err : AtomicError} (h : ShortOp err) : ShortError (atomicToProto err) := by
  cases err with
  | conflict expected actual => trivial
  | symlink =>
    change ShortText "target is a symlink"
    decide
  | notRegularFile =>
    change ShortText "target is not a regular file"
    decide
  | io op kind =>
    have hkind : (": " ++ kind.text).utf8ByteSize ≤ 40 := by cases kind <;> decide
    change op.utf8ByteSize ≤ 8 at h
    change ShortText (op ++ ": " ++ kind.text)
    unfold ShortText maxFrame
    rw [String.append_assoc, String.utf8ByteSize_append]
    omega

section Terse

variable [Sha256]

/-- Every error of the program names a short operation. -/
abbrev Terse {α : Type} (x : FileM α) : Prop := Fallible.Ends (fun _ => True) ShortOp x

omit [Sha256] in
theorem Terse.then {α β : Type} {x : FileM α} {f : α → FileM β} (hx : Terse x)
    (hf : ∀ a, Terse (f a)) : Terse (x >>= f) :=
  Fallible.Ends.bind hx (fun a _ => hf a)

omit [Sha256] in
theorem call_terse {β : Type} {op : String} (file : FileOp β) (h : op.utf8ByteSize ≤ 8) :
    Terse (call op file) := by
  refine (ends_perform _).bind (fun r _ => ?_)
  cases r with
  | ok value => trivial
  | error kind => exact h

theorem readExisting_terse (path : Path) : Terse (readExisting path) := by
  refine (call_terse _ (by decide)).then (fun node => ?_)
  split <;> trivial

theorem readWithDigest_terse (path : Path) : Terse (readWithDigest path) := by
  refine (readExisting_terse path).then (fun found => ?_)
  cases found with
  | some found => trivial
  | none => exact ends_throw (R := ShortOp) (by decide : "openat".utf8ByteSize ≤ 8)

omit [Sha256] in
theorem createBackupFile_terse (dir : Path) (short : String) (now attempt left : Nat) :
    Terse (createBackupFile dir short now attempt left) := by
  induction left generalizing attempt with
  | zero => exact ends_throw (R := ShortOp) (by decide : "openat".utf8ByteSize ≤ 8)
  | succ left ih =>
    refine Terse.then (ends_perform _) (fun r => ?_)
    split
    · trivial
    · exact ih (attempt + 1)
    · exact ends_throw (R := ShortOp) (by decide : "openat".utf8ByteSize ≤ 8)

omit [Sha256] in
theorem writeBackup_terse (dir : Path) (contents : Bytes) (digest : Sha256Digest) (now : Nat) :
    Terse (writeBackup dir contents digest now) := by
  refine (createBackupFile_terse dir _ now 0 nameAttempts).then (fun name => ?_)
  refine Terse.then (ends_perform _) (fun r => ?_)
  cases r with
  | ok value => exact (call_terse _ (by decide)).then (fun _ => trivial)
  | error kind =>
    refine Terse.then (ends_perform _) (fun _ => ?_)
    exact ends_throw (R := ShortOp) (by decide : "write".utf8ByteSize ≤ 8)

omit [Sha256] in
theorem unlinkBackups_terse (dir : Path) (names : List BackupName) :
    Terse (unlinkBackups dir names) := by
  induction names with
  | nil => trivial
  | cons name names ih => exact (call_terse _ (by decide)).then (fun _ => ih)

omit [Sha256] in
theorem rotateBackups_terse (dir : Path) (keep : Nat) (newest : BackupName) :
    Terse (rotateBackups dir keep newest) := by
  refine (call_terse _ (by decide)).then (fun names => ?_)
  split
  · trivial
  · exact (unlinkBackups_terse dir _).then (fun _ => call_terse _ (by decide))

omit [Sha256] in
theorem backUp_terse (req : WriteRequest) (existing : Option Existing) :
    Terse (backUp req existing) := by
  unfold backUp
  split
  · trivial
  · split
    · refine Terse.then (ends_perform _) (fun now => ?_)
      refine (writeBackup_terse _ _ _ now).then (fun path => ?_)
      exact (rotateBackups_terse _ _ _).then (fun _ => trivial)
    · trivial

omit [Sha256] in
theorem replaceContents_terse (path : Path) (contents : Bytes) (existing : Option Existing) :
    Terse (replaceContents path contents existing) :=
  (call_terse _ (by decide)).then (fun _ => (call_terse _ (by decide)).then (fun _ =>
    (call_terse _ (by decide)).then (fun _ => (call_terse _ (by decide)).then (fun _ => trivial))))

omit [Sha256] in
theorem writeInPlace_terse (path : Path) (contents : Bytes) : Terse (writeInPlace path contents) :=
  (call_terse _ (by decide)).then (fun _ => (call_terse _ (by decide)).then (fun _ =>
    call_terse _ (by decide)))

omit [Sha256] in
theorem removeMarker_terse : Terse removeMarker :=
  (call_terse _ (by decide)).then (fun _ => call_terse _ (by decide))

omit [Sha256] in
theorem writeMarker_terse (record : InPlaceMarker) : Terse (Atomic.writeMarker record) :=
  (call_terse _ (by decide)).then (fun _ => (call_terse _ (by decide)).then (fun _ =>
    call_terse _ (by decide)))

theorem installInPlace_terse (req : WriteRequest) (found : Existing) (backup : Option BackupPath)
    {err : AtomicError} (h : ShortOp err) : Terse (installInPlace req found backup err) := by
  unfold installInPlace
  split
  · exact ends_throw h
  · split
    · exact ends_throw h
    · refine (writeMarker_terse _).then (fun _ => ?_)
      refine (writeInPlace_terse _ _).attempt.bind (fun r hr => ?_)
      split
      · exact removeMarker_terse.then (fun _ => trivial)
      · exact removeMarker_terse.then (fun _ => ends_throw hr)
      · exact ends_throw hr
  · exact (writeInPlace_terse _ _).then (fun _ => trivial)

theorem install_terse (req : WriteRequest) (existing : Option Existing)
    (backup : Option BackupPath) : Terse (install req existing backup) := by
  refine (replaceContents_terse _ _ _).attempt.bind (fun r hr => ?_)
  split
  · split
    · exact installInPlace_terse _ _ _ hr
    · exact ends_throw hr
  · exact ends_throw hr
  · trivial

theorem writeAtomic_terse (req : WriteRequest) : Terse (writeAtomic req) := by
  refine (readExisting_terse _).then (fun existing => ?_)
  have hcheck : Terse (checkExpected req.expectedPrev existing) := by
    unfold checkExpected
    split
    · trivial
    · dsimp only
      split <;> trivial
  refine hcheck.then (fun _ => ?_)
  refine (backUp_terse req existing).then (fun backup => ?_)
  exact (install_terse req existing backup).then (fun _ => trivial)

theorem readEntries_terse (dir : Path) (names : List BackupName) :
    Terse (readEntries dir names) := by
  induction names with
  | nil => trivial
  | cons name names ih =>
    exact (call_terse _ (by decide)).then (fun file => ih.then (fun _ => trivial))

theorem restoreBackupWith_terse (backup : BackupPath) (target : Path)
    (expectedPrev : Option Sha256Digest) (inPlace : InPlace) :
    Terse (restoreBackupWith backup target expectedPrev inPlace) :=
  (call_terse _ (by decide)).then (fun _ => writeAtomic_terse _)

theorem targetRows_terse (targets : List TargetEntry) : Terse (targetRows targets) := by
  induction targets with
  | nil => trivial
  | cons target targets ih =>
    have hlist : Terse (Atomic.listBackups target.backupDir) :=
      (call_terse _ (by decide)).then (fun _ => readEntries_terse _ _)
    exact hlist.then (fun _ => ih.then (fun _ => trivial))

end Terse

section Room

variable [Sha256] (m : Setup) (host : Host) (d : Disk)

/-- What a hook answers leaves room: on success by `fits`, else by its text. -/
def HookRoom {β : Type} (fits : β → Prop) : Except HookError β → Prop
  | .ok value => fits value
  | .error err => ShortError (hookToProto err)

/-- What a module or a validator refuses with leaves room. -/
def RefusalRoom : Except ProtoError Unit → Prop
  | .ok () => True
  | .error err => ShortError err

/-- The contents a `ReadTarget` finds leave room. -/
def ReadRoom (id : TargetId) : Prop :=
  match m.allow.target id with
  | none => True
  | some entry =>
    match ((readWithDigest entry.path).run.run (sys host) d).1 with
    | .ok (bytes, _) => 69 + u16Len id.get + bytes.length ≤ maxFrame
    | .error _ => True

/-- The refusal of a candidate by the gate or by a validator leaves room. -/
def WriteRoom (id : TargetId) (bytes : Bytes) : Prop :=
  match m.allow.target id with
  | none => True
  | some entry =>
    match (previousContents entry.path).run (sys host) d with
    | (.error _, _) => True
    | (.ok previous, d) =>
      RefusalRoom ((revalidate m entry.module entry.path previous bytes).run (sys host) d).1

/-- The refusal of the gate, or what the check runner answers, leaves room. -/
def CheckRoom (id : CheckId) (bytes : Bytes) : Prop :=
  match m.allow.check id with
  | none => True
  | some entry =>
    let judged := (entry.targets.filterMap m.allow.target).filter (fun target => target.kind = .file)
    let (found, d) := (judgedContents judged).run (sys host) d
    match gateContent m entry.module (if found.isEmpty then [[]] else found) bytes with
    | .error err => ShortError err
    | .ok () => HookRoom (fun _ => True) (host.runCheck d.tick id bytes)

def ServiceRoom (id : BindingId) (action : ServiceAction) : Prop :=
  match m.allow.binding id with
  | none => True
  | some entry =>
    match action.toCore with
    | none => HookRoom (fun status => 1 + unitStatusLen status ≤ maxFrame)
        (host.hook d.tick (.serviceStatus id))
    | some core => core ∈ entry.binding.actions →
        HookRoom (fun _ => True) (host.hook d.tick (.service id action))

/-- The backups of the module leave room. -/
def BackupsRoom (module : ModuleId) : Prop :=
  match ((collectBackups m module).run (sys host) d).1 with
  | .ok rows => 1 + listLen backupLen (listing rows) ≤ maxFrame
  | .error _ => True

def MountRoom (target : TargetId) : Prop :=
  match m.allow.target target with
  | none => True
  | some entry =>
    (m.allow.module entry.module).all (fun module => !module.addedMounts) = false →
      m.allow.config.activateMounts = true →
        HookRoom (fun units => 2 + listLen mountLen (units.map (fun unit =>
            { unit with detail := truncate unit.detail })) ≤ maxFrame)
          (host.hook d.tick (.startAddedMounts target))

def ReloadRoom (module : ModuleId) : Prop :=
  match m.allow.module module with
  | none => True
  | some descriptor => descriptor.reloadUnitFiles = true →
      HookRoom (fun _ => True) (host.hook d.tick .reloadUnitFiles)

def UpdateRoom (tag : String) : Prop :=
  match m.updateTagRefusal tag with
  | some text => ShortText text
  | none => m.updater = true → HookRoom (fun _ => True) (host.hook d.tick (.startUpdate tag))

/-- What a request reads from outside leaves room in the frame of its response. -/
def RequestRoom : Request → Prop
  | .readTarget id => ReadRoom m host d id
  | .writeTarget id _ bytes _ => WriteRoom m host d id bytes
  | .runCheck id bytes => CheckRoom m host d id bytes
  | .service id action => ServiceRoom m host d id action
  | .listBackups module => BackupsRoom m host d module
  | .mount target => MountRoom m host d target
  | .reloadUnitFiles module => ReloadRoom m host d module
  | .startUpdate tag => UpdateRoom m host d tag
  | _ => True

omit [Sha256] in
theorem unknown_fits (kind : IdKind) (id : Nat) : Fits (unknown kind id) :=
  (error_fits _).mpr trivial

theorem readTarget_fits (id : TargetId) :
    Fits ((readTarget m id).run (sys host) d).1 ↔ ReadRoom m host d id := by
  unfold readTarget ReadRoom
  cases m.allow.target id with
  | none => exact iff_of_true (unknown_fits _ _) trivial
  | some entry =>
    dsimp only
    rw [run_bind]
    rcases hread : (readWithDigest entry.path).run.run (sys host) d with ⟨r, d'⟩
    have hterse := Ends.exec (sys host) (readWithDigest_terse entry.path) hread
    cases r with
    | ok found =>
      obtain ⟨bytes, digest⟩ := found
      have h := bytesLen_fits (1 + u16Len id.get + digestLen) bytes.length (by
        have h₁ := u16Len_le id.get
        have h₂ := bytesLen_le 64
        unfold digestLen
        omega)
      have hdigest : digestLen = 65 := rfl
      simp only [run_pure, Fits, responseLen, contentsLen]
      omega
    | error err =>
      refine iff_of_true ?_ trivial
      dsimp only
      split
      · rename_i hok
        cases hok
      · exact (error_fits _).mpr trivial
      · rename_i herr
        cases herr
        exact (error_fits _).mpr (shortError_atomic hterse)

omit [Sha256] in
theorem written_fits (receipt : WriteReceipt) : Fits (.written receipt) := by
  have h := u16Len_le receipt.target.get
  have hdigest : digestLen = 65 := rfl
  apply fits_of_le
  simp only [responseLen, receiptLen]
  cases receipt.prevDigest <;> simp only [optionLen] <;> omega

theorem previousContents_terse (path : Path) :
    (previousContents path).Returns (EndsIn (fun _ => True) ShortOp) := by
  refine Prog.Returns.bind (readWithDigest_terse path) (fun r hr => ?_)
  split
  · trivial
  · trivial
  · exact hr

theorem writeTarget_fits (mem : Mem) (id : TargetId) (expectedPrev : Option Sha256Digest)
    (bytes : Bytes) (journal : Bool) :
    Fits ((writeTarget m mem id expectedPrev bytes journal).run (sys host) d).1.1 ↔
      WriteRoom m host d id bytes := by
  unfold writeTarget WriteRoom
  cases m.allow.target id with
  | none => exact iff_of_true (unknown_fits _ _) trivial
  | some entry =>
    dsimp only
    rw [run_bind]
    rcases hprevious : (previousContents entry.path).run (sys host) d with ⟨r, d₁⟩
    have hterse := (previousContents_terse entry.path).run hprevious
    cases r with
    | error err => exact iff_of_true ((error_fits _).mpr (shortError_atomic hterse)) trivial
    | ok previous =>
      dsimp only
      rw [run_bind]
      rcases (revalidate m entry.module entry.path previous bytes).run (sys host) d₁ with ⟨v, d₂⟩
      cases v with
      | error err => exact error_fits err
      | ok value =>
        refine iff_of_true ?_ trivial
        dsimp only
        rw [run_bind]
        rcases hwrite : (writeAtomic (writeRequest m entry expectedPrev bytes)).run.run (sys host) d₂
          with ⟨w, d₃⟩
        have hterse := Ends.exec (sys host) (writeAtomic_terse _) hwrite
        cases w with
        | error err => exact (error_fits _).mpr (shortError_atomic hterse)
        | ok outcome => exact written_fits _

omit [Sha256] in
theorem checked_fits (id : CheckId) (outcome : CheckOutcome) :
    Fits (.checked { outcome with check := id, detail := truncate outcome.detail }) := by
  have h₁ := u16Len_le id.get
  have h₂ := textLen_truncate outcome.detail
  apply fits_of_le
  simp only [responseLen, checkOutcomeLen]
  cases outcome.exitCode with
  | none =>
    simp only [optionLen]
    omega
  | some code =>
    have h₃ : i32Len code ≤ 5 := u32Len_le _
    simp only [optionLen]
    omega

theorem runCheck_fits (id : CheckId) (bytes : Bytes) :
    Fits ((runCheck m id bytes).run (sys host) d).1 ↔ CheckRoom m host d id bytes := by
  unfold runCheck CheckRoom
  cases m.allow.check id with
  | none => exact iff_of_true (unknown_fits _ _) trivial
  | some entry =>
    dsimp only
    rw [run_bind]
    rcases (judgedContents ((entry.targets.filterMap m.allow.target).filter
      (fun target => target.kind = .file))).run (sys host) d with ⟨found, d₁⟩
    dsimp only
    cases gateContent m entry.module (if found.isEmpty then [[]] else found) bytes with
    | error err => exact error_fits err
    | ok value =>
      dsimp only
      rw [run_bind]
      cases hcheck : host.runCheck d₁.tick id bytes with
      | ok outcome =>
        have hanswer : ((Prog.perform (SysOp.runCheck id bytes)).run (sys host) d₁).1 = .ok outcome :=
          hcheck
        rw [hanswer]
        exact iff_of_true (checked_fits id outcome) trivial
      | error err =>
        have hanswer : ((Prog.perform (SysOp.runCheck id bytes)).run (sys host) d₁).1 = .error err :=
          hcheck
        rw [hanswer]
        exact error_fits _

omit [Sha256] in
/-- A handler that answers with what a hook returns. -/
theorem hook_fits {β : Type} (op : HookOp β) {next : Except HookError β → Prog SysOp Response}
    (fits : β → Prop) (d : Disk)
    (hok : ∀ value d, Fits ((next (.ok value)).run (sys host) d).1 ↔ fits value)
    (herror : ∀ err, next (.error err) = pure (.error (hookToProto err))) :
    Fits ((hook op >>= next).run (sys host) d).1 ↔ HookRoom fits (host.hook d.tick op) := by
  rw [run_bind]
  change Fits (Prog.run (sys host) (next (host.hook d.tick op)) _).1 ↔ _
  cases host.hook d.tick op with
  | ok value => exact hok value _
  | error err =>
    rw [herror]
    exact error_fits _

omit [Sha256] in
/-- A handler that answers a hook's value with a small response. -/
theorem hook_fits_small {β : Type} (op : HookOp β)
    {next : Except HookError β → Prog SysOp Response} (d : Disk)
    (hok : ∀ value d, Fits ((next (.ok value)).run (sys host) d).1)
    (herror : ∀ err, next (.error err) = pure (.error (hookToProto err))) :
    Fits ((hook op >>= next).run (sys host) d).1 ↔
      HookRoom (fun _ => True) (host.hook d.tick op) :=
  hook_fits host op (fun _ => True) d (fun value d => iff_of_true (hok value d) trivial) herror

omit [Sha256] in
theorem serviced_fits (id : BindingId) (outcome : ServiceOutcome) :
    Fits (.serviced { outcome with binding := id, detail := truncate outcome.detail }) := by
  have h₁ := u16Len_le id.get
  have h₂ := textLen_truncate outcome.detail
  apply fits_of_le
  simp only [responseLen, serviceOutcomeLen]
  omega

omit [Sha256] in
theorem service_fits (id : BindingId) (action : ServiceAction) :
    Fits ((service m id action).run (sys host) d).1 ↔ ServiceRoom m host d id action := by
  unfold service ServiceRoom
  cases m.allow.binding id with
  | none => exact iff_of_true (unknown_fits _ _) trivial
  | some entry =>
    dsimp only
    cases action.toCore with
    | none => exact hook_fits host _ _ d (fun _ _ => Iff.rfl) (fun _ => rfl)
    | some core =>
      dsimp only
      by_cases hallowed : core ∈ entry.binding.actions
      · rw [if_pos hallowed, forall_prop_of_true hallowed]
        exact hook_fits_small host _ d (fun outcome _ => serviced_fits id outcome) (fun _ => rfl)
      · rw [if_neg hallowed]
        exact iff_of_true ((error_fits _).mpr trivial) (fun h => absurd h hallowed)

omit [Sha256] in
theorem reloadUnitFiles_fits (module : ModuleId) :
    Fits ((reloadUnitFiles m module).run (sys host) d).1 ↔ ReloadRoom m host d module := by
  unfold reloadUnitFiles ReloadRoom
  cases m.allow.module module with
  | none => exact iff_of_true (unknown_fits _ _) trivial
  | some descriptor =>
    dsimp only
    by_cases hreload : descriptor.reloadUnitFiles = true
    · rw [if_pos hreload, forall_prop_of_true hreload]
      refine hook_fits_small host _ d (fun detail _ => fits_of_le ?_) (fun _ => rfl)
      have h := textLen_truncate detail
      simp only [run_pure, responseLen]
      omega
    · rw [if_neg hreload]
      exact iff_of_true ((error_fits _).mpr trivial) (fun h => absurd h hreload)

omit [Sha256] in
theorem mount_fits (target : TargetId) :
    Fits ((mount m target).run (sys host) d).1 ↔ MountRoom m host d target := by
  unfold mount MountRoom
  cases m.allow.target target with
  | none => exact iff_of_true (unknown_fits _ _) trivial
  | some entry =>
    dsimp only
    cases (m.allow.module entry.module).all (fun module => !module.addedMounts) with
    | true => exact iff_of_true ((error_fits _).mpr trivial) nofun
    | false =>
      rw [if_neg Bool.false_ne_true, forall_prop_of_true rfl]
      by_cases hactive : m.allow.config.activateMounts = true
      · rw [if_pos hactive, forall_prop_of_true hactive]
        refine hook_fits host _ _ d (fun units _ => ?_) (fun _ => rfl)
        exact Iff.rfl
      · rw [if_neg hactive]
        exact iff_of_true (by decide : Fits (.mounted false [])) (fun h => absurd h hactive)

omit [Sha256] in
theorem startUpdate_fits (tag : String) :
    Fits ((startUpdate m tag).run (sys host) d).1 ↔ UpdateRoom m host d tag := by
  unfold startUpdate UpdateRoom
  cases m.updateTagRefusal tag with
  | some text => exact error_fits (.io text)
  | none =>
    dsimp only
    by_cases hupdater : m.updater = true
    · rw [if_pos hupdater, forall_prop_of_true hupdater]
      refine hook_fits_small host _ d (fun started _ => ?_) (fun _ => rfl)
      cases started with
      | alreadyRunning => exact (error_fits _).mpr trivial
      | started detail =>
        have h := textLen_truncate detail
        apply fits_of_le
        simp only [run_pure, responseLen]
        omega
    · rw [if_neg hupdater]
      exact iff_of_true ((error_fits _).mpr (by decide : ShortText "this build has no updater"))
        (fun h => absurd h hupdater)

theorem collectBackups_terse (module : ModuleId) :
    (collectBackups m module).Returns (EndsIn (fun _ => True) ShortError) := by
  unfold collectBackups
  split
  · trivial
  · refine Prog.Returns.bind (targetRows_terse _) (fun r hr => ?_)
    cases r with
    | ok rows => trivial
    | error err => exact shortError_atomic hr

theorem listBackups_fits (module : ModuleId) :
    Fits ((Monitor.listBackups m module).run (sys host) d).1 ↔ BackupsRoom m host d module := by
  unfold Monitor.listBackups BackupsRoom
  rw [run_bind]
  rcases hrows : (collectBackups m module).run (sys host) d with ⟨r, d₁⟩
  have hterse := (collectBackups_terse m module).run hrows
  cases r with
  | ok rows => exact Iff.rfl
  | error err => exact iff_of_true ((error_fits _).mpr hterse) trivial

theorem restore_fits (module : ModuleId) (backup : BackupId) :
    Fits ((restore m module backup).run (sys host) d).1 := by
  unfold restore
  rw [run_bind]
  rcases hrows : (collectBackups m module).run (sys host) d with ⟨r, d₁⟩
  have hterse := (collectBackups_terse m module).run hrows
  cases r with
  | error err => exact (error_fits _).mpr hterse
  | ok rows =>
    dsimp only
    cases rows[backup.get]? with
    | none => exact unknown_fits _ _
    | some row =>
      dsimp only
      rw [run_bind]
      rcases hrestore : (restoreBackupWith row.entry.path row.path none .marker).run.run (sys host) d₁
        with ⟨w, d₂⟩
      have hterse := Ends.exec (sys host) (restoreBackupWith_terse _ _ _ _) hrestore
      cases w with
      | error err => exact (error_fits _).mpr (shortError_atomic hterse)
      | ok outcome =>
        have h := u16Len_le row.target.get
        have hdigest : digestLen = 65 := rfl
        apply fits_of_le
        simp only [run_pure, responseLen]
        omega

/-- The response of a handler that may fail the monitor, when there is one, fits. -/
def ResultFits : Except MonitorError Response → Prop
  | .ok response => Fits response
  | .error _ => True

/-- Every response the commit handlers compute fits. -/
def AlwaysFits (p : Prog SysOp (Except MonitorError Response × Mem)) : Prop :=
  p.Returns (fun result => ResultFits result.1)

omit [Sha256] in
theorem commit_fits (commit : CommitId) (timeoutS rollbackTargets : Nat) :
    Fits (.confirmTimerStarted commit timeoutS rollbackTargets) ∧
      Fits (.rolledBack commit rollbackTargets) ∧ Fits (.committed commit) := by
  have h₁ := u32Len_le commit.get
  have h₂ := u16Len_le timeoutS
  have h₃ := u16Len_le rollbackTargets
  refine ⟨fits_of_le ?_, fits_of_le ?_, fits_of_le ?_⟩ <;> simp only [responseLen] <;> omega

omit [Sha256] in
theorem startConfirmTimer_fits (mem : Mem) (commit : CommitId) (timeoutS : Nat)
    (service : Option PendingService) :
    AlwaysFits (startConfirmTimer mem commit timeoutS service) := by
  unfold startConfirmTimer
  split
  · exact (error_fits _).mpr trivial
  · refine returns_bind (fun instant => returns_bind (fun now =>
      returns_bind (fun r => ?_)))
    cases r with
    | error err => trivial
    | ok value => exact (commit_fits commit _ _).1

theorem confirmCommit_fits (mem : Mem) (commit : CommitId) :
    AlwaysFits (confirmCommit m mem commit) := by
  unfold confirmCommit
  split
  next pending _ =>
    split
    · refine returns_bind (fun now => ?_)
      split
      · refine returns_bind (fun result => ?_)
        split
        · exact (error_fits _).mpr trivial
        · trivial
      · refine returns_bind (fun _ => returns_bind (fun r => ?_))
        cases r with
        | ok value => exact (commit_fits pending.commit 0 0).2.2
        | error err => trivial
    · exact unknown_fits _ _
  next => exact unknown_fits _ _

theorem rollbackCommit_fits (mem : Mem) (commit : CommitId) :
    AlwaysFits (rollbackCommit m mem commit) := by
  unfold rollbackCommit
  split
  · split
    · refine returns_bind (fun r => ?_)
      cases r with
      | ok restored => exact (commit_fits commit 0 _).2.1
      | error err => trivial
    · exact unknown_fits _ _
  · exact unknown_fits _ _

omit [Sha256] in
theorem AlwaysFits.run {p : Prog SysOp (Except MonitorError Response × Mem)} (h : AlwaysFits p)
    (d : Disk) : ResultFits (p.run (sys host) d).1.1 := by
  rcases hrun : p.run (sys host) d with ⟨result, d'⟩
  unfold AlwaysFits at h
  exact h.run hrun

omit [Sha256] in
theorem answer_fits (mem : Mem) (p : Prog SysOp Response) (d : Disk) :
    ResultFits ((answer mem p).run (sys host) d).1.1 ↔ Fits (p.run (sys host) d).1 := by
  unfold answer
  rw [run_bind]
  exact Iff.rfl

/-- **The response `dispatch` computes for a greeted worker fits a frame exactly
when what the request reads from outside leaves room.** -/
theorem dispatch_fits (mem : Mem) (greeted : mem.greeted = true) (request : Request) :
    ResultFits ((dispatch m mem request).run (sys host) d).1.1 ↔ RequestRoom m host d request := by
  unfold dispatch
  rw [if_pos greeted]
  cases request with
  | readTarget id => exact (answer_fits host mem _ d).trans (readTarget_fits m host d id)
  | writeTarget id expectedPrev bytes journal =>
    dsimp only
    rw [run_bind]
    exact writeTarget_fits m host d mem id expectedPrev bytes journal
  | runCheck id bytes => exact (answer_fits host mem _ d).trans (runCheck_fits m host d id bytes)
  | service id action => exact (answer_fits host mem _ d).trans (service_fits m host d id action)
  | listBackups module => exact (answer_fits host mem _ d).trans (listBackups_fits m host d module)
  | mount target => exact (answer_fits host mem _ d).trans (mount_fits m host d target)
  | reloadUnitFiles module =>
    exact (answer_fits host mem _ d).trans (reloadUnitFiles_fits m host d module)
  | startUpdate tag => exact (answer_fits host mem _ d).trans (startUpdate_fits m host d tag)
  | restore module backup =>
    exact iff_of_true ((answer_fits host mem _ d).mpr (restore_fits m host d module backup)) trivial
  | startConfirmTimer commit timeoutS service =>
    exact iff_of_true ((startConfirmTimer_fits mem commit timeoutS service).run host d) trivial
  | confirmCommit commit => exact iff_of_true ((confirmCommit_fits m mem commit).run host d) trivial
  | rollbackCommit commit =>
    exact iff_of_true ((rollbackCommit_fits m mem commit).run host d) trivial
  | hello proto => exact iff_of_true ((error_fits _).mpr trivial) trivial
  | shutdown => exact iff_of_true (by decide : Fits .shuttingDown) trivial
  | pendingCommit =>
    refine iff_of_true (fits_of_le ?_ : Fits (.pending (mem.pending.map (·.commit)))) trivial
    cases mem.pending with
    | none => decide
    | some pending =>
      have h := u32Len_le pending.commit.get
      simp only [Option.map_some, responseLen, optionLen]
      omega
  | replaceBinary | stageBegin | stageUpdate => exact iff_of_true ((error_fits _).mpr (by decide :
      ShortText "the monitor installs no release; use StartUpdate")) trivial

end Room

end Detent.Guarantees.Answers
