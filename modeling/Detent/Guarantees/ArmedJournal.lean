import Detent.Guarantees.MemoryTurns

/-!
# The journal a commit arms

The monitor keeps the journaled writes that made a backup until a commit is armed.
`Happened` is what a worker sees of it: the writes that were accepted and the
commits that were armed. `sinceBoundary` reads off that history which entries the
next commit is to arm; the journal in memory is always that list, as long as no
journaled write without a backup is accepted outside a commit while entries are
waiting.
-/
namespace Detent.Guarantees.ArmedJournal
open Lib Source Source.Atomic Source.Monitor

/-- A write the monitor accepted. `replaced`: there was a file before it. -/
structure AcceptedWrite where
  target : TargetId
  path : Option Path
  journal : Bool
  whilePending : Bool
  replaced : Bool
  backup : Option BackupPath
  newDigest : Sha256Digest

/-- What counts for the journal. -/
inductive Happened where
  | wrote (write : AcceptedWrite)
  | armed
  | started

/-- The rollback entry of a journaled write that made a backup. -/
def AcceptedWrite.entry (write : AcceptedWrite) : Option RollbackEntry :=
  match write.journal, write.path, write.backup with
  | true, some path, some backup =>
    some { target := write.target.get, path, backup, newDigest := some write.newDigest }
  | _, _, _ => none

/-- The entries since the last commit boundary, from the history, newest first:
a commit that was armed, or the last journaled write outside a commit. -/
def sinceBoundary : List Happened → List RollbackEntry
  | .wrote write :: earlier =>
    if write.journal && !write.whilePending then write.entry.toList
    else sinceBoundary earlier ++ write.entry.toList
  | _ => []

section Chronicles

variable (m : Setup)

/-- What a step adds to the history. -/
def happened (w : World) (w' : World) : Label → List Happened
  | .done (.request (.writeTarget id _ _ journal)) (some (.written receipt)) =>
    [.wrote { target := id, path := (m.allow.target id).map (·.path), journal
              whilePending := (w.mem.bind (·.pending)).isSome, replaced := !receipt.created
              backup := if receipt.backedUp then w'.disk.taken.getLast? else none
              newDigest := receipt.newDigest }]
  | .done (.request (.startConfirmTimer ..)) (some (.confirmTimerStarted ..)) => [.armed]
  | .done .restart _ => [.started]
  | _ => []

/-- The world, and the history of the monitor, newest first. -/
structure Chronicle where
  world : World
  log : List Happened

variable [Sha256] (host : Host)

/-- One step of a run, written down. -/
structure ChronicleStep (c : Chronicle) (label : Label) (c' : Chronicle) : Prop where
  world : Step m host c.world label c'.world
  log : c'.log = happened m c.world c'.world label ++ c.log

/-- No journaled write without a backup is accepted outside a commit while entries
wait for one. -/
def NoneLeftOver (c : Chronicle) : Label → Prop
  | .done (.request (.writeTarget _ _ _ true)) (some (.written receipt)) =>
    receipt.backedUp = true ∨ (c.world.mem.bind (·.pending)).isSome = true ∨
      sinceBoundary c.log = []
  | _ => True

/-- The journal in memory is what the history says. -/
def JournalIsSinceBoundary (c : Chronicle) : Prop :=
  ∀ mem, c.world.mem = some mem → mem.journal = sinceBoundary c.log

variable {m host} {c c' : Chronicle} {label : Label}

omit [Sha256] in
theorem record_journal (mem : Mem) (journal : Bool) (id : TargetId) (path : Path)
    (outcome : WriteOutcome) :
    (mem.record journal id path outcome).journal = match outcome.backup with
      | some backup =>
        if journal then (if mem.pending.isNone then [] else mem.journal) ++
          [{ target := id.get, path, backup, newDigest := some outcome.newDigest }]
        else mem.journal
      | none => mem.journal := by
  unfold Mem.record
  cases outcome.backup with
  | none => rfl
  | some backup => cases journal <;> rfl

/-- What a request that was answered adds to the history and to the journal. -/
theorem turn_journal {w w' : World} {mem mem' : Mem} {request : Request} {response : Response}
    {log : List Happened} (hmem : w.mem = some mem)
    (hturn : Turn m mem w.disk.toFiles w'.disk.toFiles request response mem')
    (hjournal : mem.journal = sinceBoundary log)
    (hnone : NoneLeftOver { world := w, log } (.done (.request request) (some response))) :
    mem'.journal =
      sinceBoundary (happened m w w' (.done (.request request) (some response)) ++ log) := by
  cases hturn with
  | same hsame hpending hother =>
    have hnothing : happened m w w' (.done (.request request) (some response)) = [] := by
      cases request <;> first | rfl | (cases response <;> first | rfl | cases hother)
    rw [hnothing, hsame, hjournal]
    rfl
  | resolved hpending hother =>
    have hnothing : happened m w w' (.done (.request request) (some response)) = [] := by
      cases request <;> first | rfl | (cases response <;> first | rfl | cases hother)
    rw [hnothing]
    exact hjournal
  | armed hpending hmarker => rfl
  | @wrote id expectedPrev bytes journal entry previous outcome hentry hwrote =>
    rw [record_journal, hjournal]
    have hpending : w.mem.bind (·.pending) = mem.pending := by rw [hmem, Option.bind_some]
    have htaken : ∀ backup, outcome.backup = some backup →
        w'.disk.taken.getLast? = some backup := by
      intro backup hbackup
      rcases hwrote.backed with ⟨hno, -⟩ | ⟨contents, name, -, -, hsome, htook⟩
      · rw [hno] at hbackup
        cases hbackup
      · rw [htook.taken, List.getLast?_concat, ← hsome, hbackup]
    cases journal with
    | false =>
      cases outcome.backup <;> simp [happened, sinceBoundary, AcceptedWrite.entry]
    | true =>
      have hnone' : (receipt id outcome).backedUp = true ∨ mem.pending.isSome = true ∨
          sinceBoundary log = [] := by
        rw [← hpending]
        exact hnone
      cases hbackup : outcome.backup with
      | some backup =>
        cases hcommit : mem.pending <;>
          simp [happened, sinceBoundary, AcceptedWrite.entry, hpending, hcommit, receipt, hbackup,
            htaken backup hbackup, hentry]
      | none =>
        cases hcommit : mem.pending with
        | some pending =>
          simp [happened, sinceBoundary, AcceptedWrite.entry, hpending, hcommit, receipt, hbackup]
        | none =>
          simp only [receipt, hbackup, hcommit, Option.isSome_none, Bool.false_eq_true,
            false_or] at hnone'
          simp [happened, sinceBoundary, AcceptedWrite.entry, hpending, hcommit, receipt, hbackup,
            hnone']

/-- Every step keeps the journal what the history says. -/
theorem step_journal (hjournal : JournalIsSinceBoundary c)
    (hstep : Guarded NoneLeftOver (ChronicleStep m host) c label c') :
    JournalIsSinceBoundary c' := by
  obtain ⟨hnone, hworld, hlog⟩ := hstep
  intro mem' hmem'
  rw [hlog]
  generalize hw' : c'.world = w' at hworld hmem'
  cases hworld with
  | edit path node => exact hjournal mem' hmem'
  | crash hprogram hcut => cases hmem'
  | done hprogram hrun =>
    rcases program_cases m hprogram with ⟨request, mem, rfl, hmem, rfl⟩ |
      ⟨mem, rfl, hmem, rfl⟩ | ⟨mem, rfl, hmem, rfl⟩ | ⟨rfl, hmem, rfl⟩
    · cases hmem'
      obtain ⟨response, rfl, hturn⟩ := serveStep_turn m hrun
      exact turn_journal hmem hturn (hjournal mem hmem) hnone
    · cases hmem'
      rcases deadlineStep_mem m hrun with rfl | ⟨pending, -, rfl⟩
      · exact hjournal _ hmem
      · exact hjournal mem hmem
    · cases leave_response m hrun
      cases hmem'
    · cases hmem'
      rw [startStep_mem m hrun]
      rfl

/-- Along every run in which nothing is left over, the entries a commit arms are
the journaled writes with a backup since the last boundary, in memory and on
disk. -/
theorem armed_since_boundary {c₁ c₂ : Chronicle} {labels : List Label} {commit : CommitId}
    {timeoutS secs count : Nat} {service : Option PendingService}
    (hstart : ∀ mem, c.world.mem = some mem → mem.journal = []) (hlog : c.log = [])
    (hrun : Run (Guarded NoneLeftOver (ChronicleStep m host)) c labels c₁)
    (harm : ChronicleStep m host c₁ (.done (.request (.startConfirmTimer commit timeoutS service))
      (some (.confirmTimerStarted commit secs count))) c₂) :
    (∃ mem pending, c₂.world.mem = some mem ∧ mem.pending = some pending ∧
      pending.commit = commit ∧ pending.entries = sinceBoundary c₁.log) ∧
    ∃ record, c₂.world.disk.pending = some (.whole record) ∧ record.commit = commit.get ∧
      record.entries = sinceBoundary c₁.log := by
  have hinit : JournalIsSinceBoundary c := by
    intro mem hmem
    rw [hstart mem hmem, hlog]
    rfl
  have hjournal : JournalIsSinceBoundary c₁ :=
    hrun.invariant (I := JournalIsSinceBoundary) (fun _ _ _ h hstep => step_journal h hstep) hinit
  obtain ⟨hworld, -⟩ := harm
  obtain ⟨mem, hmem, hrun⟩ := step_request m hworld
  have husual : Usual (.confirmTimerStarted commit secs count) := trivial
  obtain ⟨after, hafter, hdispatch⟩ := serveStep_answered m (by simp) husual hrun
  cases dispatch_turn m hdispatch with
  | same _ _ hother | resolved _ hother => cases hother
  | armed hpending hmarker =>
    rw [← hjournal mem hmem]
    exact ⟨⟨_, _, hafter, rfl, rfl, rfl⟩, _, by rw [hmarker], rfl, rfl⟩

end Chronicles

section Runs

attribute [local instance] Sample.sha256

def start : Chronicle := { world := Sample.world [97], log := [] }

/-- What a running monitor answers. -/
def respond (keepBackups : Nat) (w : World) (request : Request) : Option (Option Response) :=
  w.mem.map (fun mem =>
    ((serveStep (Sample.setup keepBackups) mem request).run (sys Sample.host) w.disk).1.1)

/-- A request that was answered, written down. -/
def next (keepBackups : Nat) (c : Chronicle) (request : Request) (response : Response) :
    Chronicle :=
  let world := match c.world.mem with
    | some mem => c.world.after Sample.host (serveStep (Sample.setup keepBackups) mem request)
    | none => c.world
  { world
    log := happened (Sample.setup keepBackups) c.world world
      (.done (.request request) (some response)) ++ c.log }

theorem next_step {keepBackups : Nat} {c : Chronicle} {request : Request} {response : Response}
    (h : respond keepBackups c.world request = some (some response)) :
    ChronicleStep (Sample.setup keepBackups) Sample.host c
      (.done (.request request) (some response)) (next keepBackups c request response) := by
  obtain ⟨mem, hmem, hresponse⟩ := Option.map_eq_some_iff.mp h
  refine ⟨?_, rfl⟩
  unfold next
  rw [hmem]
  exact step_of_serve hmem hresponse

/-- A write of `new`, journaled or not. -/
def write (new : Bytes) (journal : Bool) : Request := .writeTarget ⟨0⟩ none new journal

def receiptOf (old new : Bytes) : Response :=
  .written { target := ⟨0⟩, prevDigest := some (Sha256.of old), newDigest := Sha256.of new
             created := false, backedUp := true, ownerPreserved := true }

def arm (commit : CommitId) : Request := .startConfirmTimer commit 60 none

/-- `b` is journaled and armed; while that commit is pending `c` is journaled and `d` is
written unjournaled; then the commit is confirmed. -/
def wroteB : Chronicle := next 20 start (write [98] true) (receiptOf [97] [98])

def armedB : Chronicle := next 20 wroteB (arm ⟨1⟩) (.confirmTimerStarted ⟨1⟩ 60 1)

def wroteC : Chronicle := next 20 armedB (write [99] true) (receiptOf [98] [99])

def wroteD : Chronicle := next 20 wroteC (write [100] false) (receiptOf [99] [100])

def confirmed : Chronicle := next 20 wroteD (.confirmCommit ⟨1⟩) (.committed ⟨1⟩)

def armedC : Chronicle := next 20 confirmed (arm ⟨2⟩) (.confirmTimerStarted ⟨2⟩ 60 1)

/-- The second commit arms the write of `c` alone: `b` is behind the boundary, `d` was not
journaled. -/
theorem journaled_write_armed :
    (sinceBoundary confirmed.log).map (·.newDigest) = [some (Sha256.of [99])] ∧
    (∃ mem pending, armedC.world.mem = some mem ∧ mem.pending = some pending ∧
      pending.commit = ⟨2⟩ ∧ pending.entries = sinceBoundary confirmed.log) ∧
    ∃ record, armedC.world.disk.pending = some (.whole record) ∧
      record.commit = 2 ∧ record.entries = sinceBoundary confirmed.log := by
  refine ⟨by decide +kernel, ?_⟩
  have hmem : ∀ mem, start.world.mem = some mem → mem.journal = [] := by
    rintro mem hmem
    cases hmem
    rfl
  have hwrote : ∀ c : Chronicle, ∀ old new,
      NoneLeftOver c (.done (.request (write new true)) (some (receiptOf old new))) :=
    fun _ _ _ => .inl rfl
  have harm : NoneLeftOver wroteB
      (.done (.request (arm ⟨1⟩)) (some (.confirmTimerStarted ⟨1⟩ 60 1))) := trivial
  have hunjournaled : NoneLeftOver wroteC
      (.done (.request (write [100] false)) (some (receiptOf [99] [100]))) := trivial
  have hconfirm : NoneLeftOver wroteD
      (.done (.request (.confirmCommit ⟨1⟩)) (some (.committed ⟨1⟩))) := trivial
  exact armed_since_boundary hmem rfl
    (.cons ⟨hwrote start [97] [98], next_step (by decide +kernel)⟩
      (.cons ⟨harm, next_step (by decide +kernel)⟩
        (.cons ⟨hwrote armedB [98] [99], next_step (by decide +kernel)⟩
          (.cons ⟨hunjournaled, next_step (by decide +kernel)⟩
            (.cons ⟨hconfirm, next_step (by decide +kernel)⟩ (.nil confirmed))))))
    (next_step (by decide +kernel))

/-- One journaled write of `b` over `a`. -/
def writeLabel (keepBackups : Nat) : Label :=
  .done (.request (.writeTarget ⟨0⟩ none [98] true)) (some (.written
    { target := ⟨0⟩, prevDigest := some (Sha256.of [97]), newDigest := Sha256.of [98]
      created := false, backedUp := 0 < keepBackups, ownerPreserved := true }))

def written (keepBackups : Nat) : Chronicle where
  world := Sample.serve keepBackups (Sample.world [97]) (.writeTarget ⟨0⟩ none [98] true)
  log := happened (Sample.setup keepBackups) (Sample.world [97])
    (Sample.serve keepBackups (Sample.world [97]) (.writeTarget ⟨0⟩ none [98] true))
    (writeLabel keepBackups)

def armLabel (count : Nat) : Label :=
  .done (.request (.startConfirmTimer ⟨1⟩ 60 none)) (some (.confirmTimerStarted ⟨1⟩ 60 count))

/-- A commit armed after the write, from the memory `mem`. -/
def armedAfter (keepBackups : Nat) (mem : Mem) : Chronicle where
  world := (written keepBackups).world.after Sample.host
    (serveStep (Sample.setup keepBackups) mem (.startConfirmTimer ⟨1⟩ 60 none))
  log := .armed :: (written keepBackups).log

/-- The journaled writes over an existing file since the last boundary. -/
def replacedSince : List Happened → List AcceptedWrite
  | .wrote write :: earlier =>
    if write.journal && !write.whilePending then [write].filter (·.replaced)
    else replacedSince earlier ++ [write].filter (fun write => write.journal && write.replaced)
  | _ => []

/-- Without backups a journaled write over an existing file is not armed. -/
theorem unbacked_write_not_armed :
    ChronicleStep (Sample.setup 0) Sample.host start (writeLabel 0) (written 0) ∧
    ChronicleStep (Sample.setup 0) Sample.host (written 0) (armLabel 0) (armedAfter 0 Sample.mem) ∧
    (replacedSince (written 0).log).length = 1 ∧
    (armedAfter 0 Sample.mem).world.mem.map (fun mem => mem.pending.map (·.entries.length)) =
      some (some 0) := by
  refine ⟨⟨Sample.serve_step rfl (by decide), (List.append_nil _).symm⟩,
    ⟨step_of_serve (by decide) (by decide), rfl⟩, ?_, ?_⟩
  · decide
  · decide

end Runs

end Detent.Guarantees.ArmedJournal
