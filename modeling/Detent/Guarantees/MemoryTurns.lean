import Detent.Guarantees.Handlers

/-!
# The memory of the monitor

Every way a step of the serve loop can change the journal and the pending commit:
an accepted write, an armed commit, a resolved one. Everything else leaves both
alone.
-/
namespace Detent.Guarantees
open Lib Source Source.Atomic Source.Monitor
open Prog (run_bind_eq)

/-- The answers that accept a write or arm a commit. -/
def accepts : Request → Response → Bool
  | .writeTarget .., .written _ => true
  | .startConfirmTimer .., .confirmTimerStarted .. => true
  | _, _ => false

section Turns

variable [Sha256] (m : Setup) {host : Host} {d d' : Disk} {mem mem' : Mem} {request : Request}
  {response : Response}

/-- What an answered request did to the memory, from the files `f` to `f'`. -/
inductive Turn (mem : Mem) (f f' : Files) : Request → Response → Mem → Prop
  | same {request : Request} {response : Response} {mem' : Mem}
      (hjournal : mem'.journal = mem.journal) (hpending : mem'.pending = mem.pending)
      (hother : accepts request response = false) : Turn mem f f' request response mem'
  | wrote {id : TargetId} {expectedPrev : Option Sha256Digest} {bytes : Bytes} {journal : Bool}
      {entry : TargetEntry} {previous : Option Bytes} {outcome : WriteOutcome}
      (hentry : m.allow.target id = some entry)
      (hwrote : Wrote (writeRequest m entry expectedPrev bytes) previous outcome f f') :
      Turn mem f f' (.writeTarget id expectedPrev bytes journal) (.written (receipt id outcome))
        (mem.record journal id entry.path outcome)
  | armed {commit : CommitId} {timeoutS secs count : Nat} {service : Option PendingService}
      {deadline deadlineUnixMs : Nat} (hpending : mem.pending = none)
      (hmarker : f' = { f with pending := some (.whole
        { commit := commit.get, deadlineUnixMs, entries := mem.journal, service }) }) :
      Turn mem f f' (.startConfirmTimer commit timeoutS service) (.confirmTimerStarted commit secs count)
        { mem with
          journal := []
          pending := some { commit, deadline, entries := mem.journal, service } }
  | resolved {request : Request} {response : Response} {pending : Pending}
      (hpending : mem.pending = some pending) (hother : accepts request response = false) :
      Turn mem f f' request response { mem with pending := none }

/-- An answer that leaves the memory alone. -/
theorem answer_turn {p : Prog SysOp Response} (hother : ∀ response, accepts request response = false)
    (h : (answer mem p).run (sys host) d = ((.ok response, mem'), d')) :
    Turn m mem d.toFiles d'.toFiles request response mem' := by
  obtain ⟨_, -, rfl, -⟩ := answer_run h
  exact .same rfl rfl (hother _)

omit [Sha256] in
theorem pendingMarker_ok {record : PendingCommitMarker}
    (h : (Monitor.writeMarker record).run (sys host) d = (.ok (), d')) :
    d'.toFiles = { d.toFiles with pending := some (.whole record) } := by
  obtain ⟨opened, d₁, hopen, h⟩ := run_bind_eq _ h
  cases opened with
  | error kind => cases h
  | ok _ =>
    obtain ⟨filled, d₂, hfill, h⟩ := run_bind_eq _ h
    cases filled with
    | error kind => cases h
    | ok _ =>
      obtain ⟨synced, d₃, hsync, h⟩ := run_bind_eq _ h
      cases synced with
      | error kind => cases h
      | ok _ =>
        cases h
        have h₁ := (perform_ok hopen).1
        have h₂ := (perform_ok hfill).1
        have h₃ := (perform_ok hsync).1
        injection h₁ with h₁
        injection h₂ with h₂
        injection h₃ with h₃
        rw [← (Prod.mk.inj h₃).2, ← (Prod.mk.inj h₂).2, ← (Prod.mk.inj h₁).2]

variable {commit : CommitId} {answer : Option Response}

theorem startConfirmTimer_turn {timeoutS : Nat} {service : Option PendingService}
    (h : (startConfirmTimer mem commit timeoutS service).run (sys host) d =
      ((.ok response, mem'), d')) :
    Turn m mem d.toFiles d'.toFiles (.startConfirmTimer commit timeoutS service) response mem' := by
  unfold startConfirmTimer at h
  split at h
  · cases h
    exact .same rfl rfl rfl
  · next hnone =>
    obtain ⟨now, d₁, hnow, h⟩ := run_bind_eq _ h
    obtain ⟨wall, d₂, hwall, h⟩ := run_bind_eq _ h
    obtain ⟨r, d₃, hmarker, h⟩ := run_bind_eq _ h
    cases r with
    | error err => cases h
    | ok _ =>
      cases h
      have hfiles := pendingMarker_ok hmarker
      cases hnow
      cases hwall
      exact .armed hnone hfiles

theorem enforceDeadline_mem {result : Except MonitorError Unit}
    (h : (enforceDeadline m mem).run (sys host) d = ((result, mem'), d')) :
    mem' = mem ∨ ∃ pending, mem.pending = some pending ∧ mem' = { mem with pending := none } := by
  unfold enforceDeadline at h
  split at h
  · cases h
    exact .inl rfl
  · next pending hpending =>
    obtain ⟨now, d₁, -, h⟩ := run_bind_eq _ h
    split at h
    · obtain ⟨r, d₂, -, h⟩ := run_bind_eq _ h
      cases r with
      | ok | error =>
        cases h
        exact .inr ⟨pending, hpending, rfl⟩
    · cases h
      exact .inl rfl

theorem confirmCommit_turn
    (h : (confirmCommit m mem commit).run (sys host) d = ((.ok response, mem'), d')) :
    Turn m mem d.toFiles d'.toFiles (.confirmCommit commit) response mem' := by
  unfold confirmCommit at h
  split at h
  · next pending hpending =>
    split at h
    · obtain ⟨now, d₁, -, h⟩ := run_bind_eq _ h
      split at h
      · obtain ⟨⟨r, after⟩, d₂, hdeadline, h⟩ := run_bind_eq _ h
        cases r with
        | error err => cases h
        | ok _ =>
          cases h
          rcases enforceDeadline_mem m hdeadline with rfl | ⟨pending, hpending, rfl⟩
          · exact .same rfl rfl rfl
          · exact .resolved hpending rfl
      · obtain ⟨forgot, d₂, -, h⟩ := run_bind_eq _ h
        obtain ⟨r, d₃, -, h⟩ := run_bind_eq _ h
        cases r with
        | error err => cases h
        | ok _ =>
          cases h
          exact .resolved hpending rfl
    · cases h
      exact .same rfl rfl rfl
  · cases h
    exact .same rfl rfl rfl

theorem rollbackCommit_turn
    (h : (rollbackCommit m mem commit).run (sys host) d = ((.ok response, mem'), d')) :
    Turn m mem d.toFiles d'.toFiles (.rollbackCommit commit) response mem' := by
  unfold rollbackCommit at h
  split at h
  · next pending hpending =>
    split at h
    · obtain ⟨r, d₁, -, h⟩ := run_bind_eq _ h
      cases r with
      | error err => cases h
      | ok restored =>
        cases h
        exact .resolved hpending rfl
    · cases h
      exact .same rfl rfl rfl
  · cases h
    exact .same rfl rfl rfl

theorem writeTarget_turn {id : TargetId} {expectedPrev : Option Sha256Digest} {bytes : Bytes}
    {journal : Bool}
    (h : (writeTarget m mem id expectedPrev bytes journal).run (sys host) d =
      ((response, mem'), d')) :
    Turn m mem d.toFiles d'.toFiles (.writeTarget id expectedPrev bytes journal) response mem' := by
  rcases writeTarget_cases h with ⟨-, rfl, err, rfl⟩ | ⟨entry, d₁, r, hentry, hd₁, -, hexec, hcases⟩
  · exact .same rfl rfl rfl
  · rcases hcases with ⟨err, -, rfl, rfl⟩ | ⟨outcome, rfl, rfl, rfl⟩
    · exact .same rfl rfl rfl
    · obtain ⟨previous, hwrote⟩ := writeAtomic_ok hexec
      rw [hd₁] at hwrote
      exact .wrote hentry hwrote

theorem greet_turn (f f' : Files) :
    Turn m mem f f' request (greet m mem request).1 (greet m mem request).2 := by
  obtain ⟨hpending, hjournal⟩ := greet_mem m mem request
  refine .same hjournal hpending ?_
  unfold greet
  cases request with
  | hello proto => split <;> rfl
  | _ => rfl

theorem dispatch_turn
    (h : (dispatch m mem request).run (sys host) d = ((.ok response, mem'), d')) :
    Turn m mem d.toFiles d'.toFiles request response mem' := by
  by_cases hgreeted : mem.greeted = true
  · unfold dispatch at h
    rw [if_pos hgreeted] at h
    cases request with
    | writeTarget id expectedPrev bytes journal =>
      obtain ⟨⟨found, after⟩, d₁, hwrite, h⟩ := run_bind_eq _ h
      cases h
      exact writeTarget_turn m hwrite
    | startConfirmTimer commit timeoutS service => exact startConfirmTimer_turn m h
    | confirmCommit commit => exact confirmCommit_turn m h
    | rollbackCommit commit => exact rollbackCommit_turn m h
    | _ => exact answer_turn m (fun _ => rfl) h
  · rw [dispatch_ungreeted m hgreeted] at h
    cases h
    exact greet_turn m _ _

theorem serveStep_turn
    (h : (serveStep m mem request).run (sys host) d = ((answer, some mem'), d')) :
    ∃ response, answer = some response ∧ Turn m mem d.toFiles d'.toFiles request response mem' := by
  obtain ⟨response, rfl, hdispatch⟩ := serveStep_stays m h
  exact ⟨response, rfl, dispatch_turn m hdispatch⟩

/-- A deadline check that the monitor survives resolves a commit or nothing. -/
theorem deadlineStep_mem (h : (deadlineStep m mem).run (sys host) d = ((answer, some mem'), d')) :
    mem' = mem ∨ ∃ pending, mem.pending = some pending ∧ mem' = { mem with pending := none } := by
  obtain ⟨⟨result, after⟩, d₁, hdeadline, h⟩ := run_bind_eq _ h
  cases result with
  | error err => cases leave_response m h
  | ok _ =>
    cases h
    exact enforceDeadline_mem m hdeadline

theorem startStep_mem (h : (startStep m).run (sys host) d = ((answer, some mem'), d')) :
    mem' = Mem.new := by
  obtain ⟨result, d₁, -, h⟩ := run_bind_eq _ h
  cases result with
  | error err => cases h
  | ok recovered =>
    cases h
    rfl

end Turns

end Detent.Guarantees
