import Detent.Guarantees.MountTurns

/-!
# Mount units and their commit

The record holds what the last start started. A commit is followed as long as
nothing else is on it: while the record, read for the contents of the commit's last
write, holds exactly the units started since that write, a rollback stops those and
no others.
-/
namespace Detent.Guarantees.MountUnits
open Lib Source Source.Atomic Source.Monitor Source.Mounts
open MountTurns
open List (append_nil)

section Follow

variable [Sha256] (rs : RunnerSetup) (m : Setup) (host : Host) (fstab : Path)

/-- A run, and the units started since the last write of the file that the journal
records, since the last one the pending commit records, and since the last
confirmation of a commit with mounts. -/
structure Chronicle where
  world : MountWorld
  sinceJournal : List MountUnit
  sincePending : List MountUnit
  sinceConfirm : List MountUnit

/-- The units a step started, and those it stopped. -/
def started (w w' : MountWorld) : List MountUnit :=
  w'.runner.started.drop w.runner.started.length

def stopped (w w' : MountWorld) : List MountUnit :=
  w'.runner.stopped.drop w.runner.stopped.length

def Chronicle.next (c : Chronicle) (label : Happening) (w' : MountWorld) : Chronicle where
  world := w'
  sinceJournal :=
    if records m fstab label then [] else c.sinceJournal ++ started c.world w'
  sincePending :=
    if arms c.world label then c.sinceJournal else c.sincePending ++ started c.world w'
  sinceConfirm :=
    if confirms m c.world label then [] else c.sinceConfirm ++ started c.world w'

structure ChronicleStep (c : Chronicle) (label : Happening) (c' : Chronicle) : Prop where
  step : MountStep rs m host c.world label c'.world
  next : c' = c.next m fstab label c'.world

/-- The last write of the file among some entries. -/
def lastWrite (entries : List RollbackEntry) : Option RollbackEntry :=
  (entries.filter (fun entry => entry.path = fstab)).getLast?

/-- The last writes of the file that the journal and the pending commit record. -/
def openWrites (w : MountWorld) : List RollbackEntry :=
  match w.mem with
  | none => []
  | some mem => (lastWrite fstab mem.journal).toList ++
      (mem.pending.bind (fun pending => lastWrite fstab pending.entries)).toList

/-- A recorded write of the file finds no unit on record for its contents. -/
def WritesAnew (w : MountWorld) : Happening → Prop
  | .done (.request (.writeTarget id _ bytes true)) _ =>
    (m.allow.target id).any (fun entry => entry.path = fstab) = true →
      onRecord w.runner (some (Sha256.of bytes)) = []
  | _ => True

/-- A start finds no unit on record for an open write, and starts units only for
the contents of that write. -/
def StartsOnce (w : MountWorld) : Happening → Prop
  | .done (.request (.mount target)) _ => ∀ plan,
    planStart rs m.allow target w.disk.tick w.disk.toFiles w.runner.active = .ok plan →
    ∀ entry ∈ openWrites fstab w, onRecord w.runner entry.newDigest = [] ∧
      (plan.toStart = [] ∨ entry.newDigest = some plan.digest)
  | _ => True

/-- A commit with mounts is resolved only while no unit is on record for a later
write of the file. -/
def ResolvesFirst (w : MountWorld) (label : Happening) : Prop :=
  ∀ mem pending entry, w.mem = some mem → mem.pending = some pending →
    Resolves pending.commit label → startsMounts m pending.entries = true →
    lastWrite fstab mem.journal = some entry → onRecord w.runner entry.newDigest = []

/-- The condition on a step: no unit comes under a write it was not started for,
and none of those started for an open write goes off the record. -/
structure Alone (c : Chronicle) (label : Happening) : Prop where
  writes : WritesAnew m fstab c.world label
  starts : StartsOnce rs m fstab c.world label
  resolves : ResolvesFirst m fstab c.world label

/-- The record, read for the last write of the file, holds the units `since`. -/
def Follows (entries : List RollbackEntry) (since : List MountUnit) (r : Runner) : Prop :=
  ∀ entry, lastWrite fstab entries = some entry → onRecord r entry.newDigest = since

/-- The marker on disk is that of the pending commit. -/
def MarkerAgrees (mem : Mem) (marker : Option (MarkerFile PendingCommitMarker)) : Prop :=
  match mem.pending with
  | none => marker = none
  | some pending => ∃ record, marker = some (.whole record) ∧ record.entries = pending.entries

/-- What holds in every state. -/
structure Tracked (c : Chronicle) : Prop where
  record : ∀ record, c.world.runner.record = some record → WellFormed fstab record ∧
    ∀ unit ∈ record.units, unit ∈ c.sinceConfirm
  journal : ∀ mem, c.world.mem = some mem → Follows fstab mem.journal c.sinceJournal c.world.runner
  marker : ∀ record, c.world.disk.pending = some (.whole record) →
    Follows fstab record.entries c.sincePending c.world.runner
  agrees : ∀ mem, c.world.mem = some mem → MarkerAgrees mem c.world.disk.pending

variable {rs m host fstab} {c c' : Chronicle} {label : Happening} {mem : Mem} {w' : MountWorld}
  {entries : List RollbackEntry} {since : List MountUnit} {r : Runner}
  {expectedPrev : Option Sha256Digest} {w : MountWorld} {r' : Runner} {receipt : WriteReceipt}
  {response : Option Response}

omit [Sha256] in
theorem started_same (h : w'.runner.started = w.runner.started) : started w w' = [] := by
  simp [started, h]

omit [Sha256] in
theorem lastWrite_snoc (entries : List RollbackEntry) (entry : RollbackEntry) :
    lastWrite fstab (entries ++ [entry]) =
      if entry.path = fstab then some entry else lastWrite fstab entries := by
  by_cases hpath : entry.path = fstab
  all_goals simp [lastWrite, hpath]

omit [Sha256] in
theorem Follows.cleared (h : Follows fstab entries since r) (hrecord : r'.record = none)
    (hempty : ∀ entry, lastWrite fstab entries = some entry → onRecord r entry.newDigest = []) :
    Follows fstab entries since r' := by
  intro entry hentry
  rw [onRecord_none hrecord, ← h entry hentry, hempty entry hentry]

omit [Sha256] in
/-- A step that starts nothing and neither records, arms nor confirms. -/
theorem quiet_tracked (h : Tracked fstab c) (hmem : c.world.mem = some mem)
    (runner : w'.runner = c.world.runner) (marker : w'.disk.pending = c.world.disk.pending)
    (goes : ∀ mem', w'.mem = some mem' → mem'.journal = mem.journal ∧ mem'.pending = mem.pending)
    (ends : w'.mem = none → mem.pending = none) (plain : records m fstab label = false)
    (confirming : confirms m c.world label = false)
    (arming : arms c.world label = true → w'.mem = none) :
    Tracked fstab (c.next m fstab label w') := by
  have hstarted : started c.world w' = [] := started_same (by rw [runner])
  constructor
  · intro record hrecord
    simp only [Chronicle.next, hstarted, confirming, append_nil]
    exact h.record record (runner ▸ hrecord)
  · intro mem' hmem'
    obtain ⟨hjournal, -⟩ := goes mem' hmem'
    simp only [Chronicle.next, hstarted, plain, append_nil]
    rw [hjournal, runner]
    exact h.journal mem hmem
  · intro record hrecord
    have hmarker : c.world.disk.pending = some (.whole record) := marker ▸ hrecord
    by_cases harms : arms c.world label = true
    · have hagrees := h.agrees mem hmem
      simp only [MarkerAgrees, ends (arming harms), hmarker] at hagrees
      cases hagrees
    · simp only [Chronicle.next, hstarted, harms, append_nil]
      rw [runner]
      exact h.marker record hmarker
  · intro mem' hmem'
    obtain ⟨-, hpending⟩ := goes mem' hmem'
    change MarkerAgrees mem' w'.disk.pending
    rw [MarkerAgrees, hpending, marker]
    exact h.agrees mem hmem

theorem record_follows {mem' : Mem} {id : TargetId} {bytes : Bytes} {journal : Bool}
    (haccepted : Accepted m mem mem' id bytes journal receipt)
    (hwrites : journal = true → (m.allow.target id).any (fun entry => entry.path = fstab) = true →
      onRecord r (some (Sha256.of bytes)) = []) (h : Follows fstab mem.journal since r) :
    Follows fstab mem'.journal
      (if records m fstab (.done (.request (.writeTarget id expectedPrev bytes journal))
        (some (.written receipt))) then [] else since) r := by
  obtain ⟨entry, outcome, hentry, hdigest, hbacked, rfl⟩ := haccepted
  have hany : (m.allow.target id).any (fun entry => entry.path = fstab) =
      decide (entry.path = fstab) := by
    rw [hentry]
    rfl
  cases journal with
  | false =>
    cases hbackup : outcome.backup <;> simpa [Mem.record, hbackup, records] using h
  | true =>
    cases hbackup : outcome.backup with
    | none =>
      simp only [records, hbacked, hbackup, Option.isSome_none, Bool.false_and, Bool.false_eq_true,
        if_false]
      simpa [Mem.record, hbackup] using h
    | some backup =>
      simp only [records, hbacked, hbackup, Option.isSome_some, Bool.true_and, hany]
      intro last hlast
      simp only [Mem.record, hbackup, if_true] at hlast
      rw [lastWrite_snoc] at hlast
      by_cases hpath : entry.path = fstab
      · simp only [hpath, if_true] at hlast
        cases hlast
        simp only [hpath, decide_true, if_true]
        rw [hdigest]
        exact hwrites rfl (hany.trans (decide_eq_true hpath))
      · simp only [hpath, if_false] at hlast
        simp only [hpath, decide_false, Bool.false_eq_true, if_false]
        split at hlast
        · cases hlast
        · exact h last hlast

omit [Sha256] in
theorem record_pending (mem : Mem) (journal : Bool) (id : TargetId) (path : Path)
    (outcome : WriteOutcome) : (mem.record journal id path outcome).pending = mem.pending := by
  unfold Mem.record
  split
  · split <;> rfl
  · rfl

theorem wrote_tracked {id : TargetId} {bytes : Bytes} {journal : Bool} {mem' : Mem}
    (h : Tracked fstab c) (hmem : c.world.mem = some mem)
    (hwrites : WritesAnew m fstab c.world (.done
      (.request (.writeTarget id expectedPrev bytes journal)) (some (.written receipt))))
    (haccepted : Accepted m mem mem' id bytes journal receipt) (goes : w'.mem = some mem')
    (runner : w'.runner = c.world.runner) (marker : w'.disk.pending = c.world.disk.pending) :
    Tracked fstab (c.next m fstab (.done (.request (.writeTarget id expectedPrev bytes journal))
      (some (.written receipt))) w') := by
  have hstarted : started c.world w' = [] := started_same (by rw [runner])
  have hpending : mem'.pending = mem.pending := by
    obtain ⟨entry, outcome, -, -, -, rfl⟩ := haccepted
    exact record_pending _ _ _ _ _
  constructor
  · intro record hrecord
    simp only [Chronicle.next, hstarted, append_nil]
    exact h.record record (runner ▸ hrecord)
  · intro found hfound
    obtain rfl : mem' = found := Option.some.inj (goes.symm.trans hfound)
    simp only [Chronicle.next, hstarted, append_nil]
    rw [runner]
    refine record_follows haccepted ?_ (h.journal mem hmem)
    rintro rfl hpath
    exact hwrites hpath
  · intro record hrecord
    simp only [Chronicle.next, hstarted, append_nil]
    rw [runner]
    exact h.marker record (marker ▸ hrecord)
  · intro found hfound
    obtain rfl : mem' = found := Option.some.inj (goes.symm.trans hfound)
    change MarkerAgrees mem' w'.disk.pending
    rw [MarkerAgrees, hpending, marker]
    exact h.agrees mem hmem

omit [Sha256] in
/-- After a start the record holds what was started for the contents of the write. -/
theorem Follows.start {record : Record} (h : Follows fstab entries since r)
    (hrecord : r'.record = some record)
    (honce : ∀ entry, lastWrite fstab entries = some entry → onRecord r entry.newDigest = [] ∧
      (record.units = [] ∨ entry.newDigest = some record.digest)) :
    Follows fstab entries (since ++ record.units) r' := by
  intro entry hentry
  obtain ⟨hempty, hunits⟩ := honce entry hentry
  rw [← h entry hentry, hempty, List.nil_append, onRecord, hrecord]
  rcases hunits with hnone | hdigest
  · simp [hnone]
  · simp [hdigest]

theorem mounted_tracked (honly : OnlyFstab m.allow fstab) {target : TargetId} (h : Tracked fstab c)
    (hmem : c.world.mem = some mem)
    (hstarts : StartsOnce rs m fstab c.world (.done (.request (.mount target)) response))
    (goes : w'.mem = some mem)
    (runner : w'.runner =
      (startAdded rs m.allow target c.world.disk.tick c.world.disk.toFiles c.world.runner).2)
    (marker : w'.disk.pending = c.world.disk.pending) :
    Tracked fstab (c.next m fstab (.done (.request (.mount target)) response) w') := by
  rcases startAdded_cases rs m.allow target c.world.disk.tick c.world.disk.toFiles c.world.runner
    with hsame | ⟨plan, hplan, hrecorded⟩
  · refine quiet_tracked h hmem (runner.trans hsame) marker ?_ ?_ rfl rfl ?_
    · intro mem' hmem'
      obtain rfl : mem = mem' := Option.some.inj (goes.symm.trans hmem')
      exact ⟨rfl, rfl⟩
    · intro hnone
      rw [goes] at hnone
      cases hnone
    · nofun
  · rw [hrecorded] at runner
    obtain ⟨hpath, -, hnames⟩ := planStart_ok honly hplan
    have hstarted : started c.world w' = plan.toStart := by
      simp [started, runner]
    have hrecord : w'.runner.record =
        some { path := plan.path, digest := plan.digest, units := plan.toStart } := by
      rw [runner]
    have hjournal : ∀ entry, lastWrite fstab mem.journal = some entry →
        entry ∈ openWrites fstab c.world := by
      intro entry hentry
      simp [openWrites, hmem, hentry]
    have hopen : ∀ record, c.world.disk.pending = some (.whole record) →
        ∀ entry, lastWrite fstab record.entries = some entry → entry ∈ openWrites fstab c.world := by
      intro record hwhole entry hentry
      have hagrees := h.agrees mem hmem
      rw [hwhole, MarkerAgrees] at hagrees
      cases hpending : mem.pending with
      | none =>
        rw [hpending] at hagrees
        cases hagrees
      | some pending =>
        rw [hpending] at hagrees
        obtain ⟨found, hfound, hentries⟩ := hagrees
        cases hfound
        rw [hentries] at hentry
        simp [openWrites, hmem, hpending, hentry]
    constructor
    · intro record hfound
      obtain rfl := Option.some.inj (hrecord.symm.trans hfound)
      refine ⟨⟨hpath, hnames⟩, ?_⟩
      intro unit hunit
      simp only [Chronicle.next, hstarted, confirms]
      exact List.mem_append_right _ hunit
    · intro found hfound
      obtain rfl : mem = found := Option.some.inj (goes.symm.trans hfound)
      simp only [Chronicle.next, hstarted, records]
      exact (h.journal mem hmem).start hrecord
        (fun entry hentry => hstarts plan hplan entry (hjournal entry hentry))
    · intro record hwhole
      have hold : c.world.disk.pending = some (.whole record) := marker ▸ hwhole
      simp only [Chronicle.next, hstarted, arms]
      exact (h.marker record hold).start hrecord
        (fun entry hentry => hstarts plan hplan entry (hopen record hold entry hentry))
    · intro found hfound
      obtain rfl : mem = found := Option.some.inj (goes.symm.trans hfound)
      change MarkerAgrees mem w'.disk.pending
      rw [marker]
      exact h.agrees mem hmem

omit [Sha256] in
theorem armed_tracked (h : Tracked fstab c) (hmem : c.world.mem = some mem)
    (arming : arms c.world label = true) (none_pending : mem.pending = none)
    (goes : ∀ mem', w'.mem = some mem' → mem'.journal = [] ∧ ∃ pending record,
      mem'.pending = some pending ∧ w'.disk.pending = some (.whole record) ∧
      record.entries = pending.entries)
    (marker : ∀ record, w'.disk.pending = some (.whole record) →
      record.entries = mem.journal ∨ c.world.disk.pending = some (.whole record))
    (runner : w'.runner = c.world.runner) (confirming : confirms m c.world label = false) :
    Tracked fstab (c.next m fstab label w') := by
  have hstarted : started c.world w' = [] := started_same (by rw [runner])
  constructor
  · intro record hrecord
    simp only [Chronicle.next, hstarted, confirming, append_nil]
    exact h.record record (runner ▸ hrecord)
  · intro mem' hmem'
    obtain ⟨hjournal, -⟩ := goes mem' hmem'
    rw [hjournal]
    nofun
  · intro record hwhole
    simp only [Chronicle.next, arming, if_true]
    rw [runner]
    rcases marker record hwhole with hentries | hold
    · rw [hentries]
      exact h.journal mem hmem
    · have hagrees := h.agrees mem hmem
      simp only [MarkerAgrees, none_pending, hold] at hagrees
      cases hagrees
  · intro mem' hmem'
    obtain ⟨-, pending, record, hpending, hwhole, hentries⟩ := goes mem' hmem'
    change MarkerAgrees mem' w'.disk.pending
    rw [MarkerAgrees, hpending]
    exact ⟨record, hwhole, hentries⟩

omit [Sha256] in
/-- A commit is resolved: the record is off, or the commit had no mounts. -/
theorem resolved_tracked {pending : Pending} (h : Tracked fstab c) (hmem : c.world.mem = some mem)
    (was : mem.pending = some pending)
    (goes : ∀ mem', w'.mem = some mem' → mem'.journal = mem.journal ∧ mem'.pending = none ∧
      Resolves pending.commit label) (marker : w'.disk.pending = none)
    (runner : (startsMounts m pending.entries = true ∧ w'.runner.record = none) ∨
      w'.runner.record = c.world.runner.record) (hstarted : started c.world w' = [])
    (hresolves : ResolvesFirst m fstab c.world label) (plain : records m fstab label = false)
    (confirming : w'.runner.record ≠ none → confirms m c.world label = false) :
    Tracked fstab (c.next m fstab label w') := by
  constructor
  · intro record hrecord
    have hrecord : w'.runner.record = some record := hrecord
    simp only [Chronicle.next, hstarted, confirming (by simp [hrecord]), append_nil]
    rcases runner with ⟨-, hnone⟩ | hsame
    · rw [hnone] at hrecord
      cases hrecord
    · exact h.record record (hsame ▸ hrecord)
  · intro mem' hmem'
    obtain ⟨hjournal, -, hresolved⟩ := goes mem' hmem'
    simp only [Chronicle.next, hstarted, plain, append_nil]
    rw [hjournal]
    rcases runner with ⟨hstarts, hnone⟩ | hsame
    · refine (h.journal mem hmem).cleared hnone ?_
      intro entry hentry
      exact hresolves mem pending entry hmem was hresolved hstarts hentry
    · intro entry hentry
      have hfollows := h.journal mem hmem entry hentry
      simp only [onRecord, hsame] at hfollows ⊢
      exact hfollows
  · intro record hwhole
    have hwhole : w'.disk.pending = some (.whole record) := hwhole
    rw [marker] at hwhole
    cases hwhole
  · intro mem' hmem'
    obtain ⟨-, hpending, -⟩ := goes mem' hmem'
    change MarkerAgrees mem' w'.disk.pending
    rw [MarkerAgrees, hpending]
    exact marker

/-- A rollback takes everything off the record, or the commit had no mounts. -/
theorem rolledBack_record (hsound : Sound rs host) {tick : Nat} {f : Files} :
    ((startsMounts m entries = true ∧ (rolledBack rs m entries tick f r).record = none) ∨
        (rolledBack rs m entries tick f r).record = r.record) ∧
      (rolledBack rs m entries tick f r).started = r.started := by
  unfold rolledBack
  split
  · next hstarts =>
    have hstop : (stopStarted rs m.allow tick f r).2.record = none ∧
        (stopStarted rs m.allow tick f r).2.started = r.started := stopStarted_record hsound
    exact ⟨.inl ⟨hstarts, hstop.1⟩, hstop.2⟩
  · exact ⟨.inr rfl, rfl⟩

/-- Every program of a running monitor keeps the invariant. -/
theorem moved_tracked (hsound : Sound rs host) (honly : OnlyFstab m.allow fstab)
    (h : Tracked fstab c) (hmem : c.world.mem = some mem) (halone : Alone rs m fstab c label)
    (hmoved : Moved rs m fstab c.world mem label w') : Tracked fstab (c.next m fstab label w') := by
  obtain ⟨hwrites, hstarts, hresolves⟩ := halone
  cases hmoved with
  | quiet runner marker goes ends plain confirming arming =>
    exact quiet_tracked h hmem runner marker goes ends plain confirming arming
  | wrote label_eq accepted goes runner marker =>
    subst label_eq
    exact wrote_tracked h hmem hwrites accepted goes runner marker
  | mounted label_eq goes runner marker =>
    subst label_eq
    exact mounted_tracked honly h hmem hstarts goes runner marker
  | armed arming none_pending goes marker runner plain confirming =>
    exact armed_tracked h hmem arming none_pending goes marker runner confirming
  | @confirmed pending commit was named label_eq goes marker runner =>
    subst label_eq
    have hcases : (startsMounts m pending.entries = true ∧ w'.runner.record = none) ∨
        w'.runner.record = c.world.runner.record := by
      rw [runner, confirmed]
      split
      · next hstarts => exact .inl ⟨hstarts, rfl⟩
      · exact .inr rfl
    refine resolved_tracked h hmem was ?_ marker hcases ?_ hresolves rfl ?_
    · intro mem' hmem'
      obtain rfl := Option.some.inj (goes.symm.trans hmem')
      exact ⟨rfl, rfl, named⟩
    · refine started_same ?_
      rw [runner, confirmed]
      split <;> rfl
    · intro hrecord
      simp only [confirms, hmem, was, Option.any_some]
      rw [runner, confirmed] at hrecord
      split at hrecord
      · exact absurd rfl hrecord
      · next hstarts => simpa using hstarts
  | undone was goes marker runner plain confirming =>
    obtain ⟨hcases, hstarted⟩ := rolledBack_record hsound
    rw [← runner] at hcases hstarted
    exact resolved_tracked h hmem was goes marker hcases (started_same hstarted) hresolves plain
      (fun _ => confirming)

omit [Sha256] in
/-- A step without a program, and a restart that finds no commit. -/
theorem still_tracked (h : Tracked fstab c) (runner : w'.runner = c.world.runner)
    (marker : w'.disk.pending = c.world.disk.pending)
    (goes : ∀ mem', w'.mem = some mem' →
      c.world.mem = some mem' ∨ (mem' = Mem.new ∧ c.world.disk.pending = none))
    (plain : records m fstab label = false) (arming : arms c.world label = false)
    (confirming : confirms m c.world label = false) : Tracked fstab (c.next m fstab label w') := by
  have hstarted : started c.world w' = [] := started_same (by rw [runner])
  constructor
  · intro record hrecord
    simp only [Chronicle.next, hstarted, confirming, append_nil]
    exact h.record record (runner ▸ hrecord)
  · intro mem' hmem'
    simp only [Chronicle.next, hstarted, plain, append_nil]
    rw [runner]
    rcases goes mem' hmem' with hold | ⟨rfl, -⟩
    · exact h.journal mem' hold
    · nofun
  · intro record hwhole
    simp only [Chronicle.next, hstarted, arming, append_nil]
    rw [runner]
    exact h.marker record (marker ▸ hwhole)
  · intro mem' hmem'
    change MarkerAgrees mem' w'.disk.pending
    rw [marker]
    rcases goes mem' hmem' with hold | ⟨rfl, hnone⟩
    · exact h.agrees mem' hold
    · exact hnone

theorem restart_tracked (hsound : Sound rs host) {mem' : Option Mem} {d' : Disk}
    (h : Tracked fstab c)
    (hrun : (startStep m).run (withRunner rs m.allow host) (c.world.disk, c.world.runner) =
      ((response, mem'), d', r')) :
    Tracked fstab (c.next m fstab (.done .restart response)
      { disk := d', mem := mem', runner := r' }) := by
  obtain ⟨hnew, ⟨hmarker, rfl, hends⟩ | ⟨record, tick, f, hwhole, hmarker, rfl, -⟩⟩ :=
    start_run hsound hrun
  · refine still_tracked h rfl hmarker ?_ rfl rfl rfl
    intro found hfound
    refine .inr ⟨hnew found hfound, ?_⟩
    rcases hends with hnone | hnone
    · rw [show mem' = some found from hfound] at hnone
      cases hnone
    · exact hnone
  · obtain ⟨hcases, hsame⟩ :
        ((startsMounts m record.entries = true ∧
            (rolledBack rs m record.entries tick f c.world.runner).record = none) ∨
          (rolledBack rs m record.entries tick f c.world.runner).record = c.world.runner.record) ∧
        (rolledBack rs m record.entries tick f c.world.runner).started = c.world.runner.started :=
      rolledBack_record hsound
    have hstarted : started c.world
        { disk := d', mem := mem', runner := rolledBack rs m record.entries tick f c.world.runner } =
        [] := started_same hsame
    constructor
    · intro found hfound
      rcases hcases with ⟨-, hnone⟩ | hrecord
      · rw [show (rolledBack rs m record.entries tick f c.world.runner).record = some found from
          hfound] at hnone
        cases hnone
      · simp only [Chronicle.next, hstarted, confirms, append_nil]
        exact h.record found (hrecord ▸ hfound)
    · intro found hfound
      obtain rfl := hnew found hfound
      nofun
    · intro found hfound
      rw [show d'.pending = some (.whole found) from hfound] at hmarker
      cases hmarker
    · intro found hfound
      obtain rfl := hnew found hfound
      exact hmarker

theorem step_tracked (hsound : Sound rs host) (honly : OnlyFstab m.allow fstab)
    (h : Tracked fstab c) (halone : Alone rs m fstab c label)
    (hstep : ChronicleStep rs m host fstab c label c') : Tracked fstab c' := by
  obtain ⟨hstep, hnext⟩ := hstep
  rw [hnext]
  generalize c'.world = w' at hstep
  cases hmem : c.world.mem with
  | some mem =>
    cases label with
    | done event response => exact moved_tracked hsound honly h hmem halone (done_moved hsound hmem hstep)
    | killed =>
      cases hstep
      exact still_tracked h rfl rfl nofun rfl rfl rfl
    | edit path node =>
      cases hstep
      exact still_tracked h rfl rfl (fun mem' hmem' => .inl hmem') rfl rfl rfl
  | none =>
    cases hstep with
    | killed => exact still_tracked h rfl rfl nofun rfl rfl rfl
    | edit path node => exact still_tracked h rfl rfl (fun mem' hmem' => .inl hmem') rfl rfl rfl
    | done hprogram hrun =>
      rw [hmem] at hprogram
      rcases program_cases m hprogram with ⟨_, _, -, hsome, -⟩ | ⟨_, -, hsome, -⟩ |
        ⟨_, -, hsome, -⟩ | ⟨rfl, -, rfl⟩
      · cases hsome
      · cases hsome
      · cases hsome
      · exact restart_tracked hsound h hrun

/-! ## The units a rollback stops -/

/-- The step rolls back a commit with these entries: the pending one of a running
monitor, or the one whose marker a monitor finds when it starts with no write in place
cut short, whose repair would change the files before the rollback. -/
inductive RollsBack (w : MountWorld) (entries : List RollbackEntry) : Happening → MountWorld → Prop
  | running {mem : Mem} {pending : Pending} {event : Event} {response : Option Response}
      {w' : MountWorld} (hmem : w.mem = some mem) (hpending : mem.pending = some pending)
      (hentries : pending.entries = entries)
      (hgone : ∀ mem', w'.mem = some mem' → mem'.pending ≠ some pending)
      (hconfirm : ∀ commit, response ≠ some (.committed commit)) :
      RollsBack w entries (.done event response) w'
  | starting {record : PendingCommitMarker} {mem' : Mem} {response : Option Response}
      {w' : MountWorld} (hdown : w.mem = none) (hmarker : w.disk.pending = some (.whole record))
      (hentries : record.entries = entries) (hwhole : w.disk.inPlace = none)
      (hserves : w'.mem = some mem') : RollsBack w entries (.done .restart response) w'

/-- The commit a rollback undoes is the one of the marker. -/
theorem rollsBack_runner (hsound : Sound rs host)
    (hagrees : ∀ mem, w.mem = some mem → MarkerAgrees mem w.disk.pending)
    (hstep : MountStep rs m host w label w') (hrolls : RollsBack w entries label w') :
    (∃ record, w.disk.pending = some (.whole record) ∧ record.entries = entries) ∧
      ∃ tick, w'.runner = rolledBack rs m entries tick w.disk.toFiles w.runner := by
  cases hrolls with
  | @running mem pending event response w' hmem hpending hentries hgone hconfirm =>
    subst hentries
    have hmarker := hagrees mem hmem
    rw [MarkerAgrees, hpending] at hmarker
    refine ⟨hmarker, ?_⟩
    have hmoved : Moved rs m "" w mem (.done event response) w' := done_moved hsound hmem hstep
    cases hmoved with
    | quiet runner marker goes ends plain confirming arming =>
      cases hmem' : w'.mem with
      | none =>
        rw [ends hmem'] at hpending
        cases hpending
      | some mem' => exact absurd ((goes mem' hmem').2.trans hpending) (hgone mem' hmem')
    | wrote label_eq accepted goes runner marker =>
      obtain ⟨entry, outcome, -, -, -, rfl⟩ := accepted
      exact absurd ((record_pending _ _ _ _ _).trans hpending) (hgone _ goes)
    | mounted label_eq goes runner marker => exact absurd hpending (hgone mem goes)
    | armed arming none_pending goes marker runner plain confirming =>
      rw [none_pending] at hpending
      cases hpending
    | confirmed was named label_eq goes marker runner =>
      cases label_eq
      exact absurd rfl (hconfirm _)
    | undone was goes marker runner plain confirming =>
      obtain rfl := Option.some.inj (was.symm.trans hpending)
      exact ⟨_, runner⟩
  | starting hdown hmarker hentries hwhole hserves =>
    refine ⟨⟨_, hmarker, hentries⟩, ?_⟩
    cases hstep with
    | done hprogram hrun =>
      rcases program_cases m hprogram with ⟨_, _, hevent, -⟩ | ⟨_, hevent, -⟩ | ⟨_, hevent, -⟩ |
        ⟨-, -, rfl⟩
      · cases hevent
      · cases hevent
      · cases hevent
      · obtain ⟨-, ⟨-, -, hnone | hnone⟩ | ⟨record, tick, f, hfound, -, hrunner, hfiles⟩⟩ :=
          start_run hsound hrun
        · cases hnone.symm.trans hserves
        · cases hnone.symm.trans hmarker
        · cases hmarker.symm.trans hfound
          rw [hfiles hwhole, hentries] at hrunner
          exact ⟨tick, hrunner⟩

/-- A rollback stops the units on record for what the file holds, if the commit has
mounts, and nothing otherwise. -/
theorem rolledBack_stopped (hsound : Sound rs host) (honly : OnlyFstab m.allow fstab) {tick : Nat}
    (hrecord : ∀ record, w.runner.record = some record → WellFormed fstab record)
    (hrunner : w'.runner = rolledBack rs m entries tick w.disk.toFiles w.runner) :
    stopped w w' =
      if startsMounts m entries then onRecord w.runner (digestAt w.disk.toFiles fstab) else [] := by
  unfold stopped
  rw [hrunner, rolledBack]
  split
  · rw [stopStarted_stopped hsound honly hrecord, List.drop_left]
  · exact List.drop_length

omit [Sha256] in
theorem onRecord_subset {digest : Option Sha256Digest} {unit : MountUnit}
    (h : unit ∈ onRecord r digest) : ∃ record, r.record = some record ∧ unit ∈ record.units := by
  unfold onRecord at h
  split at h
  · next record hrecord =>
    split at h
    · exact ⟨record, hrecord, h⟩
    · cases h
  · cases h

omit [Sha256] in
theorem startsMounts_of_lastWrite (honly : OnlyFstab m.allow fstab) {entry : RollbackEntry}
    (h : lastWrite fstab entries = some entry) : startsMounts m entries = true := by
  have hmem := List.mem_of_getLast? h
  obtain ⟨hmem, hpath⟩ := List.mem_filter.mp hmem
  unfold startsMounts
  rw [List.any_eq_true]
  refine ⟨entry, hmem, ?_⟩
  rw [of_decide_eq_true hpath]
  exact honly.starts

/-- Units follow their commit: in every run of such steps from a host without a
record, a rollback while the file has the contents of the commit's last write stops
the units started since that write, and no rollback stops a unit that was started
before the last confirmation and not since. -/
theorem units_follow_commit (hsound : Sound rs host) (honly : OnlyFstab m.allow fstab)
    {c₀ c₁ : Chronicle} {labels : List Happening} {w' : MountWorld} {entries : List RollbackEntry}
    (hdown : c₀.world.mem = none) (hmarker : c₀.world.disk.pending = none)
    (hrecord : c₀.world.runner.record = none)
    (hrun : Run (Guarded (Alone rs m fstab) (ChronicleStep rs m host fstab)) c₀ labels c₁)
    (hstep : MountStep rs m host c₁.world label w') (hrolls : RollsBack c₁.world entries label w') :
    (∀ entry digest, lastWrite fstab entries = some entry → entry.newDigest = some digest →
      digestAt c₁.world.disk.toFiles fstab = some digest →
      stopped c₁.world w' = c₁.sincePending) ∧
    ∀ unit ∈ stopped c₁.world w', unit ∈ c₁.sinceConfirm := by
  have hinit : Tracked fstab c₀ := by
    constructor
    · intro record hsome
      rw [hrecord] at hsome
      cases hsome
    · intro mem hsome
      rw [hdown] at hsome
      cases hsome
    · intro record hsome
      rw [hmarker] at hsome
      cases hsome
    · intro mem hsome
      rw [hdown] at hsome
      cases hsome
  have htracked : Tracked fstab c₁ := hrun.invariant (I := Tracked fstab)
    (fun _ _ _ h ⟨halone, hstep⟩ => step_tracked hsound honly h halone hstep) hinit
  obtain ⟨⟨record, hwhole, rfl⟩, tick, hrunner⟩ := rollsBack_runner hsound htracked.agrees hstep hrolls
  have hstopped := rolledBack_stopped hsound honly (fun found h => (htracked.record found h).1) hrunner
  rw [hstopped]
  constructor
  · intro entry digest hentry hdigest hcontents
    rw [if_pos (startsMounts_of_lastWrite honly hentry), hcontents,
      ← htracked.marker record hwhole entry hentry, hdigest]
  · intro unit hunit
    split at hunit
    · obtain ⟨found, hfound, hmem⟩ := onRecord_subset hunit
      exact (htracked.record found hfound).2 unit hmem
    · cases hunit

end Follow

section Runs

/-- The comment line the file holds at first, and the entry the write adds. -/
def comment : Bytes := [35, 10]

def line : Bytes := [97, 32, 47, 115, 114, 118, 32, 98, 32, 99, 32, 48, 32, 48, 10]

@[reducible] def sha256 : Sha256 where
  of bytes :=
    if bytes = comment then
      { hex := "32c4858e22cc2c967b42150fa550562a2c839c2cebcaab91cabdf6f4da020022" }
    else if bytes = line then
      { hex := "58ff2968e3e1467864fee2f638c2d3f0f27bf0a6e4cd350d67aa52529f18016e" }
    else Sample.sha256.of bytes

attribute [local instance] sha256

def srv : MountUnit := { mountpoint := "/srv", unit := "srv.mount" }

/-- The units the `mounts` module gives for these two contents. -/
def runner : RunnerSetup where
  added previous current :=
    if some previous = ofUtf8 comment ∧ some current = ofUtf8 line then [srv] else []
  shelter := ["/etc", "/usr", "/boot", "/var/lib/detent", "/usr/local/bin"]
  errorText _ := "file error"
  invalidNameText name := "invalid unit name: " ++ name
  fault _ _ := none

def fstab : Path := "/etc/fstab"

def descriptor : ModuleDescriptor where
  id := "mounts"
  targets := [{ path := fstab, kind := .file, backendDetect := true }]
  services := []
  checks := []
  commitConfirm := true
  reloadUnitFiles := true
  addedMounts := true

def setup : Setup where
  allow :=
    { modules := [descriptor]
      targets := TargetTable.empty.push ⟨0⟩ fstab .file "backups/mounts/0"
      checks := []
      bindings := []
      config := { keepBackups := 20, init := .systemd, activateMounts := true } }
  modules := [{ Sample.module with descriptor }]
  checksConfigured := false
  updateTagRefusal _ := none
  updater := false

/-- The end of a program, from a world. -/
def ending (w : MountWorld) (p : Prog SysOp Ending) : Ending × Disk × Runner :=
  p.run (withRunner runner setup.allow Sample.host) (w.disk, w.runner)

def after (w : MountWorld) (p : Prog SysOp Ending) : MountWorld where
  disk := (ending w p).2.1
  mem := (ending w p).1.2
  runner := (ending w p).2.2

def label (w : MountWorld) (event : Event) (p : Prog SysOp Ending) : Happening :=
  .done event (ending w p).1.1

/-- The chronicle after a program. -/
def step (c : Chronicle) (event : Event) (p : Prog SysOp Ending) : Chronicle :=
  c.next setup fstab (label c.world event p) (after c.world p)

/-- The host after boot: the file holds the comment and nothing was mounted. -/
def booted : MountWorld where
  disk :=
    { Sample.disk [] with
      node := fun other => if other = fstab then some (.file comment) else none }
  mem := none
  runner := { record := none, active := [], started := [], stopped := [] }

/-- The entry of a journaled write of the line. -/
def entry : RollbackEntry where
  target := 0
  path := fstab
  backup := { dir := "backups/mounts/0", name := { stamp := 4, short := "32c4858e" } }
  newDigest := some (Sha256.of line)

def journaled : Mem := { greeted := true, journal := [entry], pending := none }

def commit : Pending where
  commit := ⟨1⟩
  deadline := 60000000014
  entries := [entry]
  service := none

def waiting : Mem := { greeted := true, journal := [], pending := some commit }

def hello : Prog SysOp Ending := serveStep setup Mem.new (.hello protoVersion)
def write : Prog SysOp Ending := serveStep setup Sample.mem (.writeTarget ⟨0⟩ none line true)
def mount : Prog SysOp Ending := serveStep setup journaled (.mount ⟨0⟩)
def arm : Prog SysOp Ending := serveStep setup journaled (.startConfirmTimer ⟨1⟩ 60 none)
def mountAgain : Prog SysOp Ending := serveStep setup waiting (.mount ⟨0⟩)
def undo : Prog SysOp Ending := serveStep setup waiting (.rollbackCommit ⟨1⟩)

/-- The chronicles of a boot, a write, a start and an armed commit. -/
def fresh : Chronicle := { world := booted, sinceJournal := [], sincePending := [], sinceConfirm := [] }
def serving : Chronicle := step fresh .restart (startStep setup)
def greeted : Chronicle := step serving (.request (.hello protoVersion)) hello
def written : Chronicle := step greeted (.request (.writeTarget ⟨0⟩ none line true)) write
def mounted : Chronicle := step written (.request (.mount ⟨0⟩)) mount
def armed : Chronicle := step mounted (.request (.startConfirmTimer ⟨1⟩ 60 none)) arm

/-- A second start before the commit is resolved. -/
def remounted : Chronicle := step armed (.request (.mount ⟨0⟩)) mountAgain

theorem chronicle_step {c : Chronicle} {event : Event} {p : Prog SysOp Ending}
    (h : program setup c.world.mem event = some p) :
    ChronicleStep runner setup Sample.host fstab c (label c.world event p) (step c event p) :=
  ⟨.done h rfl, rfl⟩

theorem serve_step {c : Chronicle} {mem : Mem} {request : Request} (h : c.world.mem = some mem) :
    ChronicleStep runner setup Sample.host fstab c
      (label c.world (.request request) (serveStep setup mem request))
      (step c (.request request) (serveStep setup mem request)) :=
  chronicle_step (by rw [h]; rfl)

theorem sound : Sound runner Sample.host :=
  ⟨fun _ => rfl, fun _ => rfl, fun _ => rfl, fun _ => rfl⟩

theorem onlyFstab : OnlyFstab setup.allow fstab where
  starts := by decide
  declared := by decide
  only := by
    intro target found hfound _ _
    have hmem : found ∈ setup.allow.targets.entries := List.mem_of_getElem? hfound
    cases List.mem_singleton.mp hmem
    rfl

/-- Without a pending commit nothing is taken off the record. -/
theorem alone_of_none {c : Chronicle} {happening : Happening} {mem : Mem}
    (hmem : c.world.mem = none ∨ c.world.mem = some mem) (hnone : mem.pending = none)
    (hwrites : WritesAnew setup fstab c.world happening)
    (hstarts : StartsOnce runner setup fstab c.world happening) :
    Alone runner setup fstab c happening where
  writes := hwrites
  starts := hstarts
  resolves := by
    intro found pending last hfound hpending
    rcases hmem with hdown | hmem
    · rw [hdown] at hfound
      cases hfound
    · rw [hmem] at hfound
      cases hfound
      rw [hnone] at hpending
      cases hpending

theorem mount_alone (hmem : written.world.mem = some journaled) : Alone runner setup fstab written
    (label written.world (.request (.mount ⟨0⟩)) mount) := by
  have hrecord : written.world.runner.record = none := by decide
  have hdigest : digestAt written.world.disk.toFiles fstab = some (Sha256.of line) := by
    decide
  refine alone_of_none (.inr hmem) rfl trivial ?_
  intro plan hplan last hlast
  have hopen : openWrites fstab written.world = [entry] := by
    simp only [openWrites, hmem]
    rfl
  rw [hopen, List.mem_singleton] at hlast
  refine ⟨onRecord_none hrecord _, .inr ?_⟩
  rw [hlast, ← (planStart_ok onlyFstab hplan).2.1, hdigest]
  rfl

/-- The steps up to the armed commit. -/
def armedLabels : List Happening :=
  [label fresh.world .restart (startStep setup),
    label serving.world (.request (.hello protoVersion)) hello,
    label greeted.world (.request (.writeTarget ⟨0⟩ none line true)) write,
    label written.world (.request (.mount ⟨0⟩)) mount,
    label mounted.world (.request (.startConfirmTimer ⟨1⟩ 60 none)) arm]

theorem armed_run : Run (Guarded (Alone runner setup fstab)
    (ChronicleStep runner setup Sample.host fstab)) fresh armedLabels armed := by
  have hserving : serving.world.mem = some Mem.new := by decide
  have hgreeted : greeted.world.mem = some Sample.mem := by decide
  have hwritten : written.world.mem = some journaled := by decide
  have hmounted : mounted.world.mem = some journaled := by decide
  have hrecord : greeted.world.runner.record = none := by decide
  have hwrite : WritesAnew setup fstab greeted.world
      (label greeted.world (.request (.writeTarget ⟨0⟩ none line true)) write) :=
    fun _ => onRecord_none hrecord _
  refine .cons ⟨?_, chronicle_step rfl⟩ (.cons ⟨?_, serve_step hserving⟩
    (.cons ⟨?_, serve_step hgreeted⟩ (.cons ⟨mount_alone hwritten, serve_step hwritten⟩
      (.cons ⟨?_, serve_step hmounted⟩ (.nil _)))))
  · have hdown : fresh.world.mem = none ∨ fresh.world.mem = some Mem.new := .inl rfl
    exact alone_of_none hdown rfl trivial trivial
  · exact alone_of_none (.inr hserving) rfl trivial trivial
  · exact alone_of_none (.inr hgreeted) rfl hwrite trivial
  · exact alone_of_none (.inr hmounted) rfl trivial trivial

theorem undo_rollsBack {c : Chronicle} (hmem : c.world.mem = some waiting)
    (hafter : (after c.world undo).mem = some { waiting with pending := none })
    (hanswer : (ending c.world undo).1.1 = some (.rolledBack ⟨1⟩ 1)) :
    MountStep runner setup Sample.host c.world
        (label c.world (.request (.rollbackCommit ⟨1⟩)) undo) (after c.world undo) ∧
      RollsBack c.world [entry] (label c.world (.request (.rollbackCommit ⟨1⟩)) undo)
        (after c.world undo) := by
  refine ⟨(serve_step hmem).step, .running hmem rfl rfl ?_ ?_⟩
  · intro mem' hmem'
    rw [hafter] at hmem'
    cases hmem'
    simp
  · intro commit
    rw [hanswer]
    simp

/-- One start in the window: the rollback stops what it started. -/
theorem single_start_stopped :
    armed.sincePending = [srv] ∧ stopped armed.world (after armed.world undo) = [srv] := by
  have harmed : armed.world.mem = some waiting := by decide
  have hpending : armed.sincePending = [srv] := by decide
  have hdigest : digestAt armed.world.disk.toFiles fstab = some (Sha256.of line) := by decide
  obtain ⟨hstep, hrolls⟩ := undo_rollsBack harmed (by decide) (by decide)
  refine ⟨hpending, ?_⟩
  rw [← hpending]
  exact (units_follow_commit sound onlyFstab rfl rfl rfl armed_run hstep hrolls).1 entry _ rfl rfl
    hdigest

/-- Two starts in the window: the second records nothing over the first, and the
rollback stops nothing. -/
theorem second_start_forgets_first :
    Run (ChronicleStep runner setup Sample.host fstab) fresh
      (armedLabels ++ [label armed.world (.request (.mount ⟨0⟩)) mountAgain]) remounted ∧
    RollsBack remounted.world [entry]
      (label remounted.world (.request (.rollbackCommit ⟨1⟩)) undo) (after remounted.world undo) ∧
    MountStep runner setup Sample.host remounted.world
      (label remounted.world (.request (.rollbackCommit ⟨1⟩)) undo) (after remounted.world undo) ∧
    digestAt remounted.world.disk.toFiles fstab = entry.newDigest ∧
    remounted.sincePending = [srv] ∧ stopped remounted.world (after remounted.world undo) = [] := by
  have harmed : armed.world.mem = some waiting := by decide
  have hremounted : remounted.world.mem = some waiting := by decide
  obtain ⟨hstep, hrolls⟩ := undo_rollsBack hremounted (by decide) (by decide)
  exact ⟨armed_run.of_guarded.snoc (serve_step harmed), hrolls, hstep, by decide,
    by decide, by decide⟩

end Runs

end Detent.Guarantees.MountUnits
