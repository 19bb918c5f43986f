import Detent.Guarantees.Answers
import Detent.Guarantees.Handlers

/-!
# One response for every request

A turn of the serve loop that receives a request computes a response and sends
it. The send fails when the response is larger than a frame, and the loop then
leaves as it does for a hostile frame, with nothing sent; and it leaves when the
commit marker cannot be written or removed. `served_iff` states when a turn is
served; over whole runs of the loop, `all_served_iff_all_servable`.
-/
namespace Detent.Guarantees.OneResponse
open Lib Source Source.Monitor Source.Channel Answers

/-- The ends of the loop: a shutdown the worker asked for, a channel that is closed
or fails, a handshake error, or a malformed or oversize frame from the worker. -/
def Expected (turn : Channel.Turn) (sent : Option Response) : Exit → Prop
  | .ok .shutdown => turn.received = .ok (some .shutdown)
  | .ok .peerClosed =>
    turn.received = .error .closed ∨ turn.written = some .closed ∨ turn.written = some .timeout
  | .ok .protocolMismatch => ∃ response, sent = some response ∧ Response.fatal response = true
  | .ok .protocolViolation =>
    ∃ err, turn.received = .error err ∧ err.isProtocolViolation = true
  | .error (.channel err) => turn.received = .error err ∨ turn.written = some .io
  | .error (.monitor _) => False

/-- A turn that sent one response for a request and none without one, unless the
worker no longer reads, and whose end, if it is the last turn, is an expected one. -/
structure Served (turn : Channel.Turn) (last : TurnEnd) : Prop where
  answered : ∀ request, turn.received = .ok (some request) →
    last.sent.isSome = true ∨ turn.written.isSome = true
  silent : (∀ request, turn.received ≠ .ok (some request)) → last.sent = none
  expected : ∀ exit, last.next = .error exit → Expected turn last.sent exit

section Marker

variable [Sha256] (m : Setup) (host : Host)

/-- `write_marker` from `d` meets no call that fails. -/
def MarkerWritten (d : Disk) (record : PendingCommitMarker) : Prop :=
  host.fault d.tick FileOp.openPending = none ∧
    host.fault (d.tick + 1) (FileOp.fillPending record) = none ∧
    host.fault (d.tick + 2) FileOp.fsync = none

/-- `clear_marker` from `d` removes the marker, or finds that there is none. -/
def MarkerRemoved (d : Disk) : Prop :=
  ∀ kind written, host.fault d.tick FileOp.unlinkPending = some (kind, written) → kind = .notFound

section Effects

omit [Sha256]

variable {α : Type}

theorem run_instant (f : Nat → Prog SysOp α) (d : Disk) :
    (Prog.perform .instant >>= f).run (sys host) d =
      (f (host.instant d.tick)).run (sys host) { d with tick := d.tick + 1 } := rfl

theorem run_systemTime (f : Nat → Prog SysOp α) (d : Disk) :
    (Prog.perform .systemTime >>= f).run (sys host) d =
      (f (host.systemTime d.tick)).run (sys host) { d with tick := d.tick + 1 } := rfl

theorem run_file {β : Type} (op : FileOp β) (f : Except ErrorKind β → Prog SysOp α) (d : Disk) :
    (Prog.perform (.file op) >>= f).run (sys host) d =
      (f (op.perform host d).1).run (sys host) (op.perform host d).2 := rfl

theorem writeMarker_ok_iff (d : Disk) (record : PendingCommitMarker) :
    ((Monitor.writeMarker record).run (sys host) d).1 = .ok () ↔ MarkerWritten host d record := by
  unfold MarkerWritten Monitor.writeMarker
  rw [run_file]
  cases hopen : host.fault d.tick FileOp.openPending with
  | some failure => simp [FileOp.perform, hopen]
  | none =>
    simp only [FileOp.perform, FileOp.effect, hopen, run_file]
    cases hfill : host.fault (d.tick + 1) (FileOp.fillPending record) with
    | some failure => simp
    | none =>
      simp only [FileOp.perform, FileOp.effect, run_file]
      cases hsync : host.fault (d.tick + 2) FileOp.fsync with
      | some | none => simp

theorem clearMarker_ok_iff (d : Disk) :
    (clearMarker.run (sys host) d).1 = .ok () ↔ MarkerRemoved host d := by
  unfold MarkerRemoved clearMarker
  rw [run_file]
  cases hunlink : host.fault d.tick FileOp.unlinkPending with
  | none => cases hpending : d.pending <;> simp [FileOp.perform, FileOp.effect, hunlink, hpending]
  | some failure =>
    obtain ⟨kind, written⟩ := failure
    cases kind <;> simp [FileOp.perform, hunlink]

end Effects

/-- What `undo` does before it removes the marker. -/
def unwind (pending : Pending) : Prog SysOp Nat := do
  let _ ← stopStartedMounts m pending.entries
  let restored ← rollBack pending.entries
  let _ ← replayReload m pending.entries
  let _ ← replayService m pending.service
  return restored

/-- A rollback of `pending` from `d` can remove the marker. -/
def UndoKept (pending : Pending) (d : Disk) : Prop :=
  MarkerRemoved host ((unwind m pending).run (sys host) d).2

theorem undo_ok_iff (pending : Pending) (d : Disk) :
    (∃ restored, ((undo m pending).run (sys host) d).1 = .ok restored) ↔ UndoKept m host pending d := by
  unfold UndoKept unwind undo
  simp only [Prog.run_bind, Prog.run_pure]
  rw [← clearMarker_ok_iff]
  rcases clearMarker.run (sys host) _ with ⟨r, d'⟩
  cases r with
  | ok | error => simp

/-- The deadline check from `d` can remove the marker of a commit that has expired. -/
def DeadlineKept (mem : Mem) (d : Disk) : Prop :=
  ∀ pending, mem.pending = some pending → pending.deadline ≤ host.instant d.tick →
    UndoKept m host pending { d with tick := d.tick + 1 }

theorem enforceDeadline_ok_iff (mem : Mem) (d : Disk) :
    ((enforceDeadline m mem).run (sys host) d).1.1 = .ok () ↔ DeadlineKept m host mem d := by
  unfold DeadlineKept enforceDeadline
  cases hpending : mem.pending with
  | none => simp
  | some pending =>
    simp only [Option.some.injEq, forall_eq', ← undo_ok_iff]
    rw [run_instant]
    by_cases hexpired : pending.deadline ≤ host.instant d.tick
    · rw [if_pos hexpired, Prog.run_bind, forall_prop_of_true hexpired]
      rcases (undo m pending).run (sys host) _ with ⟨r, d'⟩
      cases r with
      | ok | error => simp
    · rw [if_neg hexpired]
      exact iff_of_true rfl (fun h => absurd h hexpired)

/-- The marker of a confirmed commit can be removed. -/
def ConfirmKept (pending : Pending) (d : Disk) : Prop :=
  MarkerRemoved host ((forgetStartedMounts m pending.entries).run (sys host) d).2

/-- A request from `d` can write and remove the marker where it has to. -/
def RequestKept (mem : Mem) (d : Disk) : Request → Prop
  | .startConfirmTimer commit timeoutS service => mem.pending = none →
    MarkerWritten host { d with tick := d.tick + 1 + 1 }
      { commit := commit.get
        deadlineUnixMs := host.systemTime (d.tick + 1) / 1000000 +
          min (max timeoutS 1) maxConfirmTimeoutS * 1000
        entries := mem.journal, service }
  | .confirmCommit commit => ∀ pending, mem.pending = some pending → pending.commit = commit →
    if pending.deadline ≤ host.instant d.tick then
      DeadlineKept m host mem { d with tick := d.tick + 1 }
    else ConfirmKept m host pending { d with tick := d.tick + 1 }
  | .rollbackCommit commit => ∀ pending, mem.pending = some pending → pending.commit = commit →
    UndoKept m host pending d
  | _ => True

omit [Sha256] in
/-- A handler that answers, whatever it meets. -/
theorem answer_ok (mem : Mem) (p : Prog SysOp Response) (d : Disk) :
    ∃ response, ((answer mem p).run (sys host) d).1.1 = .ok response := by
  unfold answer
  rw [Prog.run_bind]
  exact ⟨_, rfl⟩

theorem startConfirmTimer_ok_iff (mem : Mem) (d : Disk) (commit : CommitId) (timeoutS : Nat)
    (service : Option PendingService) :
    (∃ response, ((startConfirmTimer mem commit timeoutS service).run (sys host) d).1.1 =
      .ok response) ↔ RequestKept m host mem d (.startConfirmTimer commit timeoutS service) := by
  unfold RequestKept startConfirmTimer
  cases hpending : mem.pending with
  | some pending => simp
  | none =>
    dsimp only
    rw [forall_prop_of_true rfl, ← writeMarker_ok_iff, run_instant, run_systemTime, Prog.run_bind]
    dsimp only
    rcases (Monitor.writeMarker _).run _ _ with ⟨r, d'⟩
    cases r with
    | ok | error => simp

theorem confirmCommit_ok_iff (mem : Mem) (d : Disk) (commit : CommitId) :
    (∃ response, ((confirmCommit m mem commit).run (sys host) d).1.1 = .ok response) ↔
      RequestKept m host mem d (.confirmCommit commit) := by
  unfold RequestKept confirmCommit
  cases hpending : mem.pending with
  | none => simp
  | some pending =>
    simp only [Option.some.injEq, forall_eq']
    by_cases hcommit : pending.commit = commit
    · rw [if_pos hcommit, forall_prop_of_true hcommit]
      rw [run_instant]
      by_cases hexpired : pending.deadline ≤ host.instant d.tick
      · rw [if_pos hexpired, if_pos hexpired, ← enforceDeadline_ok_iff, Prog.run_bind]
        rcases (enforceDeadline m mem).run _ _ with ⟨⟨r, mem'⟩, d'⟩
        cases r with
        | ok | error => simp
      · rw [if_neg hexpired, if_neg hexpired, ConfirmKept, ← clearMarker_ok_iff, confirmPending]
        simp only [Prog.run_bind]
        rcases clearMarker.run (sys host) _ with ⟨r, d'⟩
        cases r with
        | ok | error => simp
    · rw [if_neg hcommit]
      simp [hcommit]

theorem rollbackCommit_ok_iff (mem : Mem) (d : Disk) (commit : CommitId) :
    (∃ response, ((rollbackCommit m mem commit).run (sys host) d).1.1 = .ok response) ↔
      RequestKept m host mem d (.rollbackCommit commit) := by
  unfold RequestKept rollbackCommit
  cases hpending : mem.pending with
  | none => simp
  | some pending =>
    simp only [Option.some.injEq, forall_eq']
    by_cases hcommit : pending.commit = commit
    · rw [if_pos hcommit, forall_prop_of_true hcommit, ← undo_ok_iff, Prog.run_bind]
      rcases (undo m pending).run _ _ with ⟨r, d'⟩
      cases r with
      | ok | error => simp
    · rw [if_neg hcommit]
      simp [hcommit]

/-- A greeted worker's request is answered exactly when the marker can be kept. -/
theorem dispatch_ok_iff (mem : Mem) (d : Disk) (greeted : mem.greeted = true) (request : Request) :
    (∃ response, ((dispatch m mem request).run (sys host) d).1.1 = .ok response) ↔
      RequestKept m host mem d request := by
  unfold dispatch
  rw [if_pos greeted]
  cases request with
  | startConfirmTimer commit timeoutS service =>
    exact startConfirmTimer_ok_iff m host mem d commit timeoutS service
  | confirmCommit commit => exact confirmCommit_ok_iff m host mem d commit
  | rollbackCommit commit => exact rollbackCommit_ok_iff m host mem d commit
  | writeTarget target expectedPrev bytes journal =>
    dsimp only
    rw [Prog.run_bind]
    exact iff_of_true ⟨_, rfl⟩ trivial
  | _ => exact iff_of_true (answer_ok host mem _ d) trivial

end Marker

section Turns

variable [Sha256] (m : Setup) (wire : Postcard) (host : Host) (lockHeld : Bool)

/-- What a request reads from outside leaves room in a frame; before the handshake
that is the table of ids the monitor announces. -/
def Room (mem : Mem) (d : Disk) (request : Request) : Prop :=
  if !lockHeld && mem.greeted && request.changesState then True
  else if mem.greeted then RequestRoom m host d request
  else request = .hello protoVersion → 1 + helloLen m.allow.helloAck ≤ maxFrame

theorem serveRequest_fits (mem : Mem) (d : Disk) (request : Request) :
    ResultFits ((serveRequest m lockHeld mem request).run (sys host) d).1.1 ↔
      Room m host lockHeld mem d request := by
  unfold serveRequest Room
  by_cases hlock : (!lockHeld && mem.greeted && request.changesState) = true
  · rw [if_pos hlock, if_pos hlock]
    exact iff_of_true ((error_fits _).mpr trivial) trivial
  · rw [if_neg hlock, if_neg hlock]
    by_cases hgreeted : mem.greeted = true
    · rw [if_pos hgreeted]
      exact dispatch_fits m host d mem hgreeted request
    · rw [if_neg hgreeted]
      unfold dispatch
      rw [if_neg hgreeted]
      by_cases hhello : request = .hello protoVersion
      · rw [hhello, forall_prop_of_true rfl]
        exact Iff.rfl
      · refine iff_of_true ?_ (fun h => absurd h hhello)
        cases request with
        | hello proto =>
          have hproto : proto ≠ protoVersion := fun h => hhello (by rw [h])
          simp only [greet, hproto, if_false]
          exact (error_fits _).mpr trivial
        | _ => exact (error_fits _).mpr trivial

/-- A request can write and remove the commit marker where it has to. -/
def Kept (mem : Mem) (d : Disk) (request : Request) : Prop :=
  (!lockHeld && mem.greeted && request.changesState) = true ∨ mem.greeted = false ∨
    RequestKept m host mem d request

theorem serveRequest_ok_iff (mem : Mem) (d : Disk) (request : Request) :
    (∃ response, ((serveRequest m lockHeld mem request).run (sys host) d).1.1 = .ok response) ↔
      Kept m host lockHeld mem d request := by
  unfold serveRequest Kept
  by_cases hlock : (!lockHeld && mem.greeted && request.changesState) = true
  · rw [if_pos hlock]
    exact iff_of_true ⟨_, rfl⟩ (.inl hlock)
  · rw [if_neg hlock]
    cases hgreeted : mem.greeted with
    | true =>
      rw [dispatch_ok_iff m host mem d hgreeted]
      refine ⟨fun hkept => .inr (.inr hkept), ?_⟩
      rintro (hlocked | hungreeted | hkept)
      · rw [hgreeted] at hlock
        exact absurd hlocked hlock
      · cases hungreeted
      · exact hkept
    | false =>
      refine iff_of_true ?_ (.inr (.inl rfl))
      unfold dispatch
      rw [if_neg (by rw [hgreeted]; decide)]
      exact ⟨_, rfl⟩

/-- A request after which the loop goes on: a first greeting, or after it anything but a
second one or a shutdown. -/
def goesOn (mem : Mem) (request : Request) : Bool :=
  if mem.greeted then
    match request with
    | .hello _ | .shutdown => false
    | _ => true
  else request == .hello protoVersion

variable {request : Request} {response : Response}

omit [Sha256] in
theorem goesOn_greeted {mem : Mem} (hgreeted : mem.greeted = true)
    (hhello : ∀ proto, request ≠ .hello proto) (hshutdown : request ≠ .shutdown) :
    goesOn mem request = true := by
  unfold goesOn
  rw [if_pos hgreeted]
  split
  · exact absurd rfl (hhello _)
  · exact absurd rfl hshutdown
  · rfl

theorem serveRequest_goesOn {mem : Mem} {d : Disk}
    (h : ((serveRequest m lockHeld mem request).run (sys host) d).1.1 = .ok response) :
    (request = .shutdown ∨ Response.fatal response = true) ↔ goesOn mem request = false := by
  by_cases hgreeted : mem.greeted = true
  · by_cases hhello : ∃ proto, request = .hello proto
    · -- a second greeting is refused
      obtain ⟨proto, rfl⟩ := hhello
      rw [serveRequest, if_neg (by simp [Request.changesState]), dispatch, if_pos hgreeted] at h
      obtain rfl := Except.ok.inj h
      exact iff_of_true (.inr rfl) (by rw [goesOn, if_pos hgreeted])
    · by_cases hshutdown : request = .shutdown
      · subst hshutdown
        exact iff_of_true (.inl rfl) (by rw [goesOn, if_pos hgreeted])
      · have hplain : ∀ proto, request ≠ .hello proto := fun proto heq => hhello ⟨proto, heq⟩
        have husual : Usual response := by
          unfold serveRequest at h
          split at h
          · obtain rfl := Except.ok.inj h
            exact id
          · exact (dispatch_usual m hgreeted hplain).run (h := sys host) (s := d) rfl response h
        rw [goesOn_greeted hgreeted hplain hshutdown, husual.not_fatal]
        simp [hshutdown]
  · rw [serveRequest, if_neg (by simp [hgreeted])] at h
    unfold dispatch at h
    unfold goesOn
    rw [if_neg hgreeted] at h ⊢
    obtain rfl := Except.ok.inj h
    cases request with
    | hello proto =>
      by_cases hproto : proto = protoVersion
      all_goals simp [hproto, Response.fatal]
    | _ => exact iff_of_true (.inr rfl) rfl

omit [Sha256] in
theorem send_oversize (h : ¬ Fits response) (written : Option WriteFailure) :
    ∃ len, send wire written response = .error (.oversize len) := by
  unfold send
  dsimp only
  rw [wire.length_eq, if_pos (Nat.lt_of_not_le h)]
  exact ⟨_, rfl⟩

omit [Sha256] in
theorem send_fitting (h : Fits response) (written : Option WriteFailure) :
    send wire written response = match written with
      | none => .ok ()
      | some failure => .error failure.toChannel := by
  unfold send
  dsimp only
  rewrite [wire.length_eq, if_neg (Nat.not_lt_of_le h)]
  cases written <;> rfl

/-- The end of a turn keeps what was sent, and leaves if the marker of an expired commit
cannot be removed. -/
theorem endTurn_eq (sent : Option Response) (mem : Mem) (d : Disk) :
    ∃ next, ((endTurn m sent mem).run (sys host) d).1 = { sent, next } ∧
      ((∃ mem', next = .ok mem') ∧ DeadlineKept m host mem d ∨
        (∃ err, next = .error (.error (.monitor err))) ∧ ¬ DeadlineKept m host mem d) := by
  unfold endTurn
  rw [Prog.run_bind, ← enforceDeadline_ok_iff]
  rcases (enforceDeadline m mem).run (sys host) d with ⟨⟨r, mem'⟩, d'⟩
  cases r with
  | ok value => exact ⟨_, rfl, .inl ⟨⟨mem', rfl⟩, rfl⟩⟩
  | error err => exact ⟨_, rfl, .inr ⟨⟨err, rfl⟩, nofun⟩⟩

theorem served_endTurn_iff (turn : Channel.Turn) (sent : Option Response) (mem : Mem) (d : Disk)
    (hsent : (∃ request, turn.received = .ok (some request)) ↔ sent.isSome = true) :
    Served turn ((endTurn m sent mem).run (sys host) d).1 ↔ DeadlineKept m host mem d := by
  obtain ⟨next, heq, ⟨⟨mem', rfl⟩, hkept⟩ | ⟨⟨err, rfl⟩, hlost⟩⟩ := endTurn_eq m host sent mem d
  · rw [heq]
    refine iff_of_true ⟨fun request hrequest => .inl (hsent.mp ⟨request, hrequest⟩), ?_, nofun⟩ hkept
    intro hnone
    cases sent with
    | none => rfl
    | some response =>
      obtain ⟨request, hrequest⟩ := hsent.mpr rfl
      exact absurd hrequest (hnone request)
  · rw [heq]
    exact iff_of_false (fun served => served.expected _ rfl) hlost

omit [Sha256] in
/-- A turn that computed no response, because the marker failed, is not served. -/
theorem not_served_monitor (turn : Channel.Turn) (err : MonitorError) :
    ¬ Served turn { sent := none, next := .error (.error (.monitor err)) } :=
  fun served => served.expected _ rfl

omit [Sha256] in
/-- A turn whose response the worker did not take. -/
theorem served_failure (turn : Channel.Turn) (failure : WriteFailure)
    (h : turn.written = some failure) :
    Served turn { sent := none, next := .error (finishSendError failure.toChannel) } := by
  constructor
  · exact fun _ _ => Or.inr (by rw [h]; rfl)
  · exact fun _ => rfl
  · intro exit hexit
    cases hexit
    cases failure with
    | closed => exact Or.inr (Or.inl h)
    | timeout => exact Or.inr (Or.inr h)
    | io => exact Or.inr h

/-- The state in which a turn comes to its deadline check, when its request is answered. -/
def checkedIn (turn : Channel.Turn) (mem : Mem) (d : Disk) : Option (Mem × Disk) :=
  match turn.received with
  | .ok none => some (mem, d)
  | .ok (some request) =>
    if turn.written = none ∧ goesOn mem request = true then
      some (((serveRequest m lockHeld mem request).run (sys host) d).1.2,
        ((serveRequest m lockHeld mem request).run (sys host) d).2)
    else none
  | .error _ => none

/-- A turn whose request, if it has one, finds room and can keep the marker, as its deadline
check can. -/
structure Servable (turn : Channel.Turn) (mem : Mem) (d : Disk) : Prop where
  room : ∀ request, turn.received = .ok (some request) → Room m host lockHeld mem d request
  kept : ∀ request, turn.received = .ok (some request) → Kept m host lockHeld mem d request
  deadline : ∀ mem' d', checkedIn m host lockHeld turn mem d = some (mem', d') →
    DeadlineKept m host mem' d'

theorem served_answered {turn : Channel.Turn} {mem mem' : Mem} {d d' : Disk}
    (hreceived : turn.received = .ok (some request))
    (hserve : (serveRequest m lockHeld mem request).run (sys host) d = ((.ok response, mem'), d')) :
    Served turn ((serveTurn m wire lockHeld turn mem).run (sys host) d).1 ↔
      Fits response ∧ ∀ state, checkedIn m host lockHeld turn mem d = some state →
        DeadlineKept m host state.1 state.2 := by
  have hends := serveRequest_goesOn m host lockHeld (by rw [hserve])
  unfold serveTurn checkedIn
  rw [hreceived]
  dsimp only
  rw [Prog.run_bind, hserve]
  dsimp only
  by_cases hfits : Fits response
  · rw [send_fitting wire hfits]
    cases hwritten : turn.written with
    | some failure =>
      refine iff_of_true (served_failure turn failure hwritten) ⟨hfits, ?_⟩
      simp
    | none =>
      dsimp only
      split
      next hshutdown =>
        rw [if_neg (by rw [hends.mp (.inl hshutdown)]; simp)]
        refine iff_of_true ⟨fun _ _ => Or.inl rfl, fun hnone => absurd hreceived (hnone request), ?_⟩
          ⟨hfits, nofun⟩
        intro exit h
        cases h
        exact hreceived.trans (by rw [hshutdown])
      next hrequest =>
        split
        next hfatal =>
          rw [if_neg (by rw [hends.mp (.inr hfatal)]; simp)]
          refine iff_of_true ⟨fun _ _ => Or.inl rfl, fun hnone => absurd hreceived (hnone request),
            ?_⟩ ⟨hfits, nofun⟩
          intro exit h
          cases h
          exact ⟨response, rfl, hfatal⟩
        next hfatal =>
          have hgoes : goesOn mem request = true := by
            rw [← Bool.not_eq_false, ← hends, not_or]
            exact ⟨hrequest, hfatal⟩
          rw [if_pos ⟨rfl, hgoes⟩, served_endTurn_iff m host turn _ _ _ (by simp [hreceived])]
          simp [hfits]
  · refine iff_of_false ?_ (fun h => hfits h.1)
    obtain ⟨len, hsend⟩ := send_oversize wire hfits turn.written
    rw [hsend]
    intro served
    obtain ⟨err, herr, _⟩ := served.expected (.ok .protocolViolation) rfl
    rw [hreceived] at herr
    cases herr

/-- A turn is served exactly when its request, if it has one, finds room and the commit marker
can be kept. -/
theorem served_iff (turn : Channel.Turn) (mem : Mem) (d : Disk) :
    Served turn ((serveTurn m wire lockHeld turn mem).run (sys host) d).1 ↔
      Servable m host lockHeld turn mem d := by
  cases hreceived : turn.received with
  | error err =>
    refine iff_of_true ?_ ⟨by simp [hreceived], by simp [hreceived], by simp [checkedIn, hreceived]⟩
    have hturn : (serveTurn m wire lockHeld turn mem).run (sys host) d =
        ({ sent := none
           next := .error (if err = .closed then .ok .peerClosed
             else if err.isProtocolViolation then .ok .protocolViolation
             else .error (.channel err)) }, d) := by
      unfold serveTurn
      rw [hreceived]
      dsimp only
      split
      · rfl
      · split <;> rfl
    rw [hturn]
    constructor
    · intro request h
      rw [hreceived] at h
      cases h
    · exact fun _ => rfl
    · intro exit h
      obtain rfl := Except.error.inj h
      split
      next hclosed => exact Or.inl (hreceived.trans (by rw [hclosed]))
      next =>
        split
        next hviolation => exact ⟨err, hreceived, hviolation⟩
        next => exact Or.inl hreceived
  | ok received =>
    cases received with
    | none =>
      have hturn : serveTurn m wire lockHeld turn mem = endTurn m none mem := by
        unfold serveTurn
        rw [hreceived]
      rw [hturn, served_endTurn_iff m host turn none mem d (by rw [hreceived]; simp)]
      constructor
      · refine fun hkept => ⟨by simp [hreceived], by simp [hreceived], fun mem' d' hstate => ?_⟩
        rw [checkedIn, hreceived] at hstate
        cases hstate
        exact hkept
      · exact fun h => h.deadline mem d (by rw [checkedIn, hreceived])
    | some request =>
      have hfits := serveRequest_fits m host lockHeld mem d request
      have hok := serveRequest_ok_iff m host lockHeld mem d request
      rcases hserve : (serveRequest m lockHeld mem request).run (sys host) d with ⟨⟨r, mem'⟩, d'⟩
      rw [hserve] at hfits hok
      cases r with
      | error err =>
        refine iff_of_false ?_ (fun h => ?_)
        · unfold serveTurn
          rw [hreceived]
          dsimp only
          rw [Prog.run_bind, hserve]
          exact not_served_monitor turn err
        · obtain ⟨response, hresponse⟩ := hok.mpr (h.kept request hreceived)
          cases hresponse
      | ok response =>
        rw [served_answered m wire host lockHeld hreceived hserve]
        constructor
        · rintro ⟨hroom, hdeadline⟩
          refine ⟨fun r hr => ?_, fun r hr => ?_, fun mem' d' hstate => hdeadline _ hstate⟩
          · cases hreceived.symm.trans hr
            exact hfits.mp hroom
          · cases hreceived.symm.trans hr
            exact hok.mp ⟨response, rfl⟩
        · exact fun h => ⟨hfits.mpr (h.room request hreceived), fun _ hstate => h.deadline _ _ hstate⟩

/-- `P` holds of every turn the loop takes, from the state the turn before it
left. -/
def EveryTurn (P : Channel.Turn → Mem → Disk → Prop) : List Channel.Turn → Mem → Disk → Prop
  | [], _, _ => True
  | turn :: turns, mem, d => P turn mem d ∧
    match (serveTurn m wire lockHeld turn mem).run (sys host) d with
    | (⟨_, .ok mem⟩, d) => EveryTurn P turns mem d
    | _ => True

/-- Every turn the loop takes is served. -/
def AllServed : List Channel.Turn → Mem → Disk → Prop :=
  EveryTurn m wire host lockHeld (fun turn mem d =>
    Served turn ((serveTurn m wire lockHeld turn mem).run (sys host) d).1)

/-- Every turn the loop takes is servable. -/
def AllServable : List Channel.Turn → Mem → Disk → Prop :=
  EveryTurn m wire host lockHeld (Servable m host lockHeld)

theorem everyTurn_congr {P Q : Channel.Turn → Mem → Disk → Prop}
    (h : ∀ turn mem d, P turn mem d ↔ Q turn mem d)
    (turns : List Channel.Turn) (mem : Mem) (d : Disk) :
    EveryTurn m wire host lockHeld P turns mem d ↔ EveryTurn m wire host lockHeld Q turns mem d := by
  induction turns generalizing mem d with
  | nil => exact Iff.rfl
  | cons turn turns ih =>
    unfold EveryTurn
    rw [h turn mem d]
    rcases (serveTurn m wire lockHeld turn mem).run (sys host) d with ⟨⟨sent, next⟩, d'⟩
    cases next with
    | error exit => exact Iff.rfl
    | ok mem' =>
      dsimp only
      rw [ih mem' d']

/-- **Every request gets exactly one response, and the loop leaves only for an
expected reason, exactly when every request finds room and the commit marker can be
kept**: in every run of the loop, from every memory and every files, on every host. -/
theorem all_served_iff_all_servable (turns : List Channel.Turn) (mem : Mem) (d : Disk) :
    AllServed m wire host lockHeld turns mem d ↔ AllServable m wire host lockHeld turns mem d :=
  everyTurn_congr m wire host lockHeld (served_iff m wire host lockHeld) turns mem d

end Turns

section Runs

attribute [local instance] Sample.sha256

/-- The turn in which the worker asks for the target. -/
def readTurn : Channel.Turn := { received := .ok (some (.readTarget ⟨0⟩)), written := none }

theorem sample_readRoom (contents : Bytes) :
    ReadRoom (Sample.setup 1) Sample.host (Sample.disk contents) ⟨0⟩ ↔
      69 + u16Len 0 + contents.length ≤ maxFrame := Iff.rfl

/-- A target that leaves no room for the rest of its response is never answered. -/
theorem large_unanswered (contents : Bytes) (h : maxFrame < 69 + u16Len 0 + contents.length) :
    ¬ AllServed (Sample.setup 1) .blank Sample.host true [readTurn] Sample.mem
      (Sample.disk contents) := by
  intro served
  have hroom := ((served_iff (Sample.setup 1) .blank Sample.host true readTurn Sample.mem
    (Sample.disk contents)).mp served.1).room (.readTarget ⟨0⟩) rfl
  have hread := (sample_readRoom contents).mp hroom
  omega

/-- A greeted worker reads a target of one mebibyte: nothing is sent, and the loop
leaves as it does for a malformed frame. -/
theorem mebibyte_unanswered :
    ¬ AllServed (Sample.setup 1) .blank Sample.host true [readTurn] Sample.mem
      (Sample.disk (List.replicate 1048576 0)) := by
  apply large_unanswered
  rw [List.length_replicate]
  decide

end Runs

end Detent.Guarantees.OneResponse
