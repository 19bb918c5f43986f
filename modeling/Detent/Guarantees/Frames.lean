import Detent.Source.Atomic

/-!
# What a program of the monitor can touch

Each call on files writes at most one part of the state: a target, a backup
directory, or one of the two markers. A program confined to some parts leaves the
others alone, when it ends and when it crashes. The confinement of the programs
of `Atomic` is read off their definitions here, once.
-/
namespace Detent.Guarantees
open Lib Source Source.Atomic
open Fallible (exec uses_bind uses_perform)

/-- The part of the state a call may write. -/
inductive Part where
  | nothing
  | node (path : Path)
  | backups (dir : Path)
  | inPlace
  | pending
  deriving DecidableEq

/-- The part a call writes. -/
def part : {β : Type} → FileOp β → Part
  | _, .renameTemp path _ | _, .openTruncate path | _, .writeTruncated path _ => .node path
  | _, .createBackup backup | _, .fillBackup backup _ | _, .unlinkBackup backup =>
    .backups backup.dir
  | _, .createInPlace | _, .fillInPlace _ | _, .unlinkInPlace => .inPlace
  | _, .openPending | _, .fillPending _ | _, .unlinkPending => .pending
  | _, .readNode _ | _, .createTemp _ | _, .fillTemp _ | _, .fsync | _, .backupNames _
  | _, .readBackup _ | _, .readInPlace | _, .readPending => .nothing

/-- The effects that write at most the given parts. -/
def Inside (parts : Part → Prop) (β : Type) : SysOp β → Prop
  | .file op => part op = .nothing ∨ parts (part op)
  | _ => True

/-- A program confined to some parts. -/
abbrev Confined (parts : Part → Prop) {ε α : Type} (x : ExceptT ε (Prog SysOp) α) : Prop :=
  Fallible.Uses (Inside parts) x

variable {host : Host} {β : Type} {op : FileOp β}

/-- `f'` agrees with `f` outside `parts`. -/
structure Agree (parts : Part → Prop) (f f' : Files) : Prop where
  node : ∀ path, ¬ parts (.node path) → f'.node path = f.node path
  backups : ∀ dir, ¬ parts (.backups dir) → f'.backups dir = f.backups dir
  inPlace : ¬ parts .inPlace → f'.inPlace = f.inPlace
  pending : ¬ parts .pending → f'.pending = f.pending
  taken : (∀ dir, ¬ parts (.backups dir)) → f'.taken = f.taken

theorem Agree.refl (parts : Part → Prop) (f : Files) : Agree parts f f :=
  ⟨fun _ _ => rfl, fun _ _ => rfl, fun _ => rfl, fun _ => rfl, fun _ => rfl⟩

variable {f : Files}

theorem Agree.trans {parts : Part → Prop} {g k : Files} (hfg : Agree parts f g)
    (hgk : Agree parts g k) : Agree parts f k where
  node path hp := (hgk.node path hp).trans (hfg.node path hp)
  backups dir hd := (hgk.backups dir hd).trans (hfg.backups dir hd)
  inPlace hi := (hgk.inPlace hi).trans (hfg.inPlace hi)
  pending hp := (hgk.pending hp).trans (hfg.pending hp)
  taken ht := (hgk.taken ht).trans (hfg.taken ht)

variable {parts' : Part → Prop} {f' : Files}

theorem Agree.weaken {parts : Part → Prop} {g : Files} (h : Agree parts f g)
    (himp : ∀ part, parts part → parts' part) : Agree parts' f g where
  node path hp := h.node path (fun hpart => hp (himp _ hpart))
  backups dir hd := h.backups dir (fun hpart => hd (himp _ hpart))
  inPlace hi := h.inPlace (fun hpart => hi (himp _ hpart))
  pending hp := h.pending (fun hpart => hp (himp _ hpart))
  taken ht := h.taken (fun dir hpart => ht dir (himp _ hpart))

theorem Agree.eq_of_nothing (h : Agree (fun _ => False) f f') : f' = f := by
  cases f
  cases f'
  have hnode := funext (fun path => h.node path id)
  have hbackups := funext (fun dir => h.backups dir id)
  have hinPlace := h.inPlace id
  have hpending := h.pending id
  have htaken := h.taken (fun _ => id)
  simp_all

theorem Agree.of_nothing {parts : Part → Prop} {g : Files} (h : Agree (· = .nothing) f g) :
    Agree parts f g where
  node path _ := h.node path (by simp)
  backups dir _ := h.backups dir (by simp)
  inPlace _ := h.inPlace (by simp)
  pending _ := h.pending (by simp)
  taken _ := h.taken (by simp)

theorem agree_setNode (f : Files) (path : Path) (node : Node) {parts : Part → Prop}
    (h : parts (.node path)) : Agree parts f (f.setNode path node) where
  node other ho := Function.update_of_ne (fun heq : other = path => ho (heq ▸ h)) _ _
  backups _ _ := rfl
  inPlace _ := rfl
  pending _ := rfl
  taken _ := rfl

theorem agree_setBackups (f : Files) (dir : Path) (files : BackupDir) (taken : List BackupPath)
    {parts : Part → Prop} (h : parts (.backups dir)) :
    Agree parts f { f.setBackups dir files with taken } where
  node _ _ := rfl
  backups other ho := Function.update_of_ne (fun heq : other = dir => ho (heq ▸ h)) _ _
  inPlace _ := rfl
  pending _ := rfl
  taken ht := absurd h (ht dir)

theorem agree_inPlace (f : Files) (inPlace : Option (MarkerFile InPlaceMarker))
    {parts : Part → Prop} (h : parts .inPlace) : Agree parts f { f with inPlace } where
  node _ _ := rfl
  backups _ _ := rfl
  inPlace hi := absurd h hi
  pending _ := rfl
  taken _ := rfl

theorem agree_pending (f : Files) (pending : Option (MarkerFile PendingCommitMarker))
    {parts : Part → Prop} (h : parts .pending) : Agree parts f { f with pending } where
  node _ _ := rfl
  backups _ _ := rfl
  inPlace _ := rfl
  pending hp := absurd h hp
  taken _ := rfl

/-- A call that succeeds changes at most its part. -/
theorem effect_agree {tick : Nat} {value : β} (h : op.effect host tick f = .ok (value, f')) :
    Agree (· = part op) f f' := by
  cases op <;> simp only [FileOp.effect] at h <;> (try split at h) <;> cases h
  all_goals first
    | exact Agree.refl _ _
    | exact agree_setNode _ _ _ rfl
    | exact agree_setBackups _ _ _ _ rfl
    | exact agree_inPlace _ _ rfl
    | exact agree_pending _ _ rfl

/-- A call that is cut short changes at most its part. -/
theorem cutShort_agree {tick written : Nat} (h : op.cutShort host tick written f = some f') :
    Agree (· = part op) f f' := by
  cases op <;> simp only [FileOp.cutShort] at h <;> cases h
  · exact agree_setNode _ _ _ rfl
  · exact agree_setBackups _ _ _ _ rfl
  · exact agree_inPlace _ _ rfl
  · exact agree_pending _ _ rfl

/-- A call, failed or not, changes at most its part. -/
theorem perform_agree (host : Host) (op : FileOp β) (d : Disk) :
    Agree (· = part op) d.toFiles (op.perform host d).2.toFiles := by
  unfold FileOp.perform
  split
  · cases hcut : op.cutShort host d.tick _ d.toFiles with
    | none => exact Agree.refl _ _
    | some f => exact cutShort_agree hcut
  · split
    · rename_i heff
      exact effect_agree heff
    · exact Agree.refl _ _

/-- The part of a confined call is one of the parts, or none. -/
theorem agree_inside {parts : Part → Prop} (he : Inside parts _ (.file op))
    (h : Agree (· = part op) f f') : Agree parts f f' := by
  rcases he with hnothing | hpart
  · rw [hnothing] at h
    exact h.of_nothing
  · exact h.weaken (fun _ heq => heq ▸ hpart)

theorem apply_agree {parts : Part → Prop} {e : SysOp β} (he : Inside parts β e) (d : Disk) :
    Agree parts d.toFiles ((sys host).apply e d).2.toFiles := by
  cases e with
  | file op => exact agree_inside he (perform_agree host op d)
  | hook | runCheck | systemTime | instant => exact Agree.refl _ _

theorem torn_agree {parts : Part → Prop} {e : SysOp β} {d d' : Disk} (he : Inside parts β e)
    (h : (sys host).torn e d d') : Agree parts d.toFiles d'.toFiles := by
  cases e with
  | file op =>
    obtain ⟨-, written, hcut⟩ := h
    exact agree_inside he (cutShort_agree hcut)
  | hook | runCheck | systemTime | instant => cases h

theorem apply_tick (host : Host) (e : SysOp β) (d : Disk) : ((sys host).apply e d).2.tick = d.tick + 1 := by
  cases e with
  | file op =>
    change (op.perform host d).2.tick = d.tick + 1
    unfold FileOp.perform
    split
    · rfl
    · split <;> rfl
  | hook | runCheck | systemTime | instant => rfl

theorem torn_tick {e : SysOp β} {d d' : Disk} (h : (sys host).torn e d d') :
    d'.tick = d.tick + 1 := by
  cases e with
  | file op => exact h.1
  | hook | runCheck | systemTime | instant => cases h

section Programs

variable {parts : Part → Prop} {α ε : Type} {p : Prog SysOp α} {x : ExceptT ε (Prog SysOp) α}
  {d d' : Disk}

/-- A confined program leaves the other parts alone when it crashes. -/
theorem cut_agree (hp : p.Uses (Inside parts)) (h : p.Cut (sys host) d d') :
    Agree parts d.toFiles d'.toFiles :=
  hp.cut_invariant (I := fun t => Agree parts d.toFiles t.toFiles)
    (fun _ _ t he ht => ht.trans (apply_agree he t))
    (fun _ _ _ _ he ht htorn => ht.trans (torn_agree he htorn)) (Agree.refl parts d.toFiles) h

/-- A confined program leaves the other parts alone when it ends. -/
theorem run_agree {a : α} (hp : p.Uses (Inside parts)) (h : p.run (sys host) d = (a, d')) :
    Agree parts d.toFiles d'.toFiles := by
  have hend := Prog.cut_end (sys host) p d
  rw [h] at hend
  exact cut_agree hp hend

theorem exec_agree {r : Except ε α} (hx : Confined parts x)
    (h : exec (sys host) x d = (r, d')) : Agree parts d.toFiles d'.toFiles :=
  run_agree hx h

/-- A program that writes nothing leaves the files as they are. -/
theorem run_reads {a : α} (hp : p.Uses (Inside (fun _ => False)))
    (h : p.run (sys host) d = (a, d')) : d'.toFiles = d.toFiles :=
  (run_agree hp h).eq_of_nothing

theorem exec_reads {r : Except ε α} (hx : Confined (fun _ => False) x)
    (h : exec (sys host) x d = (r, d')) : d'.toFiles = d.toFiles :=
  run_reads hx h

/-- A crash of a program that writes nothing leaves the files as they are. -/
theorem cut_reads (hx : Confined (fun _ => False) x) (h : Fallible.Cut (sys host) x d d') :
    d'.toFiles = d.toFiles :=
  (cut_agree hx h).eq_of_nothing

theorem uses_any (p : Prog SysOp α) : p.Uses (fun _ _ => True) := by
  induction p with
  | ret a => trivial
  | eff e next ih => exact ⟨trivial, ih⟩

theorem cut_tick_le (h : p.Cut (sys host) d d') : d.tick ≤ d'.tick := by
  refine (uses_any p).cut_invariant (I := fun t => d.tick ≤ t.tick) ?_ ?_ (Nat.le_refl d.tick) h
  · intro β e t _ ht
    have := apply_tick host e t
    omega
  · intro β e t t' _ ht htorn
    have := torn_tick htorn
    omega

theorem run_tick_le {a : α} (h : p.run (sys host) d = (a, d')) : d.tick ≤ d'.tick := by
  have hend := Prog.cut_end (sys host) p d
  rw [h] at hend
  exact cut_tick_le hend

end Programs

section Atomic

variable {parts : Part → Prop}

theorem confined_weaken {ε α : Type} {x : ExceptT ε (Prog SysOp) α} (h : Confined parts x)
    (himp : ∀ part, parts part → parts' part) : Confined parts' x :=
  Prog.Uses.weaken h (fun _ e he => by
    cases e with
    | file op => exact he.imp_right (himp _)
    | _ => trivial)

theorem call_confined {label : String} (h : part op = .nothing ∨ parts (part op)) :
    Confined parts (call label op) :=
  uses_bind (uses_perform h) (fun r => by cases r <;> trivial)

theorem checkExpected_confined (expectedPrev : Option Sha256Digest) (existing : Option Existing) :
    Confined parts (checkExpected expectedPrev existing) := by
  unfold checkExpected
  cases expectedPrev with
  | none => trivial
  | some expected =>
    dsimp only
    split <;> trivial

variable {dir : Path}

theorem createBackupFile_confined (h : parts (.backups dir)) (short : String)
    (now attempt left : Nat) : Confined parts (createBackupFile dir short now attempt left) := by
  induction left generalizing attempt with
  | zero => trivial
  | succ left ih =>
    refine uses_bind (uses_perform (.inr h)) (fun r => ?_)
    match r with
    | .ok () => trivial
    | .error .alreadyExists => exact ih (attempt + 1)
    | .error .notFound | .error .readOnlyFilesystem | .error .permissionDenied | .error .other =>
      trivial

theorem writeBackup_confined (h : parts (.backups dir)) (contents : Bytes) (digest : Sha256Digest)
    (now : Nat) : Confined parts (writeBackup dir contents digest now) := by
  refine uses_bind (createBackupFile_confined h _ _ _ _) (fun name => ?_)
  refine uses_bind (uses_perform (.inr h)) (fun r => ?_)
  cases r with
  | ok value => exact uses_bind (call_confined (.inl rfl)) (fun _ => trivial)
  | error kind => exact uses_bind (uses_perform (.inr h)) (fun _ => trivial)

theorem unlinkBackups_confined (h : parts (.backups dir)) (names : List BackupName) :
    Confined parts (unlinkBackups dir names) := by
  induction names with
  | nil => trivial
  | cons name names ih => exact uses_bind (call_confined (.inr h)) (fun _ => ih)

theorem rotateBackups_confined (h : parts (.backups dir)) (keep : Nat) (newest : BackupName) :
    Confined parts (rotateBackups dir keep newest) := by
  refine uses_bind (call_confined (.inl rfl)) (fun names => ?_)
  split
  · trivial
  · exact uses_bind (unlinkBackups_confined h _) (fun _ => call_confined (.inl rfl))

theorem replaceContents_confined {path : Path} (h : parts (.node path)) (contents : Bytes)
    (existing : Option Existing) : Confined parts (replaceContents path contents existing) := by
  refine uses_bind (call_confined (.inl rfl)) (fun _ => ?_)
  refine uses_bind (call_confined (.inl rfl)) (fun _ => ?_)
  refine uses_bind (call_confined (.inr h)) (fun _ => ?_)
  exact uses_bind (call_confined (.inl rfl)) (fun _ => trivial)

theorem writeMarker_confined (h : parts .inPlace) (record : InPlaceMarker) :
    Confined parts (writeMarker record) :=
  uses_bind (call_confined (.inr h)) (fun _ =>
    uses_bind (call_confined (.inr h)) (fun _ => call_confined (.inl rfl)))

theorem removeMarker_confined (h : parts .inPlace) : Confined parts removeMarker :=
  uses_bind (call_confined (.inr h)) (fun _ => call_confined (.inl rfl))

theorem writeInPlace_confined {path : Path} (h : parts (.node path)) (contents : Bytes) :
    Confined parts (writeInPlace path contents) :=
  uses_bind (call_confined (.inr h)) (fun _ =>
    uses_bind (call_confined (.inr h)) (fun _ => call_confined (.inl rfl)))

variable {req : WriteRequest}

/-- Taking a backup writes only the backup directory. -/
theorem backUp_confined (h : parts (.backups req.backupDir)) (existing : Option Existing) :
    Confined parts (backUp req existing) := by
  unfold backUp
  cases existing with
  | none => trivial
  | some found =>
    dsimp only
    split
    · refine uses_bind (uses_perform trivial) (fun now => ?_)
      refine uses_bind (writeBackup_confined h _ _ _) (fun backup => ?_)
      exact uses_bind (rotateBackups_confined h _ _) (fun _ => trivial)
    · trivial

variable [Sha256]

theorem readExisting_confined (path : Path) : Confined parts (readExisting path) :=
  uses_bind (call_confined (.inl rfl)) (fun node => by
    match node with
    | none | some (.file _) | some .symlink | some .special => trivial)

theorem readWithDigest_confined (path : Path) : Confined parts (readWithDigest path) :=
  uses_bind (readExisting_confined path) (fun found => by cases found <;> trivial)

theorem installInPlace_confined (hnode : parts (.node req.path)) (hmarker : parts .inPlace)
    (found : Existing) (backup : Option BackupPath) (err : AtomicError) :
    Confined parts (installInPlace req found backup err) := by
  unfold installInPlace
  split
  · trivial
  · split
    · trivial
    · refine uses_bind (writeMarker_confined hmarker _) (fun _ => ?_)
      refine uses_bind
        (Fallible.uses_attempt (writeInPlace_confined hnode _)) (fun result => ?_)
      split
      · exact uses_bind (removeMarker_confined hmarker) (fun _ => trivial)
      · exact uses_bind (removeMarker_confined hmarker) (fun _ => trivial)
      · trivial
  · exact uses_bind (writeInPlace_confined hnode _) (fun _ => trivial)

/-- Replacing the contents writes only the target and the in-place marker. -/
theorem install_confined (hnode : parts (.node req.path)) (hmarker : parts .inPlace)
    (existing : Option Existing) (backup : Option BackupPath) :
    Confined parts (install req existing backup) := by
  refine uses_bind
    (Fallible.uses_attempt (replaceContents_confined hnode _ _)) (fun result => ?_)
  match result, existing with
  | .ok preserved, _ => trivial
  | .error err, none => trivial
  | .error err, some found =>
    dsimp only
    split
    · exact installInPlace_confined hnode hmarker found backup err
    · trivial

theorem installReporting_confined (hnode : parts (.node req.path)) (hmarker : parts .inPlace)
    (existing : Option Existing) (backup : Option BackupPath) :
    Confined parts (installReporting req existing backup) :=
  uses_bind (install_confined hnode hmarker _ _) (fun _ => trivial)

/-- The parts `write_atomic` writes. -/
def writeParts (req : WriteRequest) (part : Part) : Prop :=
  part = .node req.path ∨ part = .backups req.backupDir ∨ part = .inPlace

theorem writeAtomic_confined (req : WriteRequest) : Confined (writeParts req) (writeAtomic req) := by
  refine uses_bind (readExisting_confined _) (fun existing => ?_)
  refine uses_bind (checkExpected_confined _ _) (fun _ => ?_)
  refine uses_bind (backUp_confined (.inr (.inl rfl)) _) (fun backup => ?_)
  exact installReporting_confined (.inl rfl) (.inr (.inr rfl)) _ _

/-- The parts a restore of `backup` over `target` writes. -/
def restoreParts (backup : BackupPath) (target : Path) (part : Part) : Prop :=
  part = .node target ∨ part = .backups backup.dir ∨ part = .inPlace

theorem restoreBackupWith_confined (backup : BackupPath) (target : Path)
    (expectedPrev : Option Sha256Digest) (inPlace : InPlace) :
    Confined (restoreParts backup target)
      (restoreBackupWith backup target expectedPrev inPlace) :=
  uses_bind (call_confined (.inl rfl)) (fun file =>
    writeAtomic_confined (restoreRequest backup target file.contents expectedPrev inPlace))

theorem readEntries_confined (dir : Path) (names : List BackupName) :
    Confined parts (readEntries dir names) := by
  induction names with
  | nil => trivial
  | cons name names ih =>
    refine uses_bind (call_confined (.inl rfl)) (fun _ => ?_)
    exact uses_bind ih (fun _ => trivial)

theorem listBackups_confined (dir : Path) : Confined parts (listBackups dir) :=
  uses_bind (call_confined (.inl rfl)) (fun _ => readEntries_confined _ _)

end Atomic

end Detent.Guarantees
