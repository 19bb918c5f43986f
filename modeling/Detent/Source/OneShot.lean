import Detent.Source.Attached

/-!
# One-shot commands

`crates/detent/src/run.rs`: `operate` (466-576), `changes_state` and `Session`
(1372-1628), with the exit codes of `output.rs`. The command takes the state lock,
starts a monitor of its own, runs one operation through the engine and stops the
monitor; stopping it ends the serve loop. Left out: what is printed, and a stream
that cannot be written to.
-/
namespace Detent.Source.OneShot
open Lib Source.Engine Source.AuditLog Source.Monitor

inductive Exit where
  | ok | failed | usage | privilege
  deriving DecidableEq, Repr

/-- What the program was built with. `permissionDenied` is whether the text of an
error contains `permission denied`. -/
structure Build where
  modules : List DynModule
  updateTagRefusal : String → Option String
  updater : Bool
  checkUpdateTag : String → Option UpdateTagRefusal
  moduleErrorId : String → String
  permissionDenied : OpsError → Bool

/-- `Config::with_state_root`. -/
def withStateRoot : Config :=
  { keepBackups := Atomic.defaultKeepBackups, init := .systemd, activateMounts := false }

/-- The monitor of a session. -/
def Build.setup (b : Build) (allow : Allowlist) : Setup where
  allow := allow
  modules := b.modules
  checksConfigured := true
  updateTagRefusal := b.updateTagRefusal
  updater := b.updater

/-- The engine of a session, once the monitor has sent its tables. -/
def Build.engine (b : Build) (ack : HelloAck) : OpsEngine where
  modules := b.modules
  tables := some ack
  certFrontEnd := false
  checkUpdateTag := b.checkUpdateTag
  moduleErrorId := b.moduleErrorId

/-- `exit_for`. -/
def Build.exitFor (b : Build) : OpsError → Exit
  | .denied _ => .privilege
  | err => if b.permissionDenied err then .privilege else .failed

/-- `exit_for_outcome`. -/
def exitForOutcome : OpOutcome → Exit
  | .validated true => .failed
  | _ => .ok

/-- How taking the state lock can end. -/
inductive LockAnswer where
  | held | unavailable | busy | failed
  deriving DecidableEq, Repr

/-- `changes_state`. -/
def changesState : OpKind → Bool
  | .apply | .confirmCommit | .rollbackCommit | .restore | .serviceAction | .updateApply => true
  | _ => false

/-- What `Session::execute` did. -/
inductive Executed where
  | ran (outcome : OpOutcome)
  | wouldRun (operation : OpKind) (module : Option String) (plan : Option PlanReport)

/-- `Session`: the monitor thread and the engine that talks to it. -/
structure Session where
  setup : Setup
  lockHeld : Bool
  engine : OpsEngine

/-- `OpsEngine::new`. -/
def fields : Engine.Session := { nextCommit := 1, pendingCommit := none, hashes := .empty }

/-- `AllowAll`. -/
def allowAll (_ : Identity) (_ : Operation) : Except Denied Unit := .ok ()

/-- `Session::execute_as`: a dry run of a mutation plans an apply and does nothing
else. -/
def Session.executeAs (session : Session) (op : Operation) (dryrun : Bool) (who : Identity)
    (authz : Identity → Operation → Except Denied Unit) :
    Prog EngineOp (Except OpsError Executed) :=
  if !dryrun || !op.isMutating then do
    match ← execute session.engine op who authz with
    | .ok outcome => pure (.ok (.ran outcome))
    | .error err => pure (.error err)
  else
    match op with
    | .apply id model _ _ _ => do
      match ← execute session.engine (.plan id model) who authz with
      | .ok (.planned plan) => pure (.ok (.wouldRun op.kind op.module (some plan)))
      | .ok _ => pure (.ok (.wouldRun op.kind op.module none))
      | .error err => pure (.error err)
    | _ => pure (.ok (.wouldRun op.kind op.module none))

variable [Sha256]

/-- A monitor that does not hold the state lock refuses a change of state. -/
def Around.refuseChanges (m : Setup) (host : Host) (out : Outside) (request : Request)
    (a : Around) : Except Client.ChannelError Response × Around :=
  if (a.next out).world.mem.any (·.greeted) && request.changesState then
    (.ok (.error .stateLockUnavailable), a.next out)
  else (a.next out).serve m host request

/-- The surroundings of the engine of a session. A dry run keeps no audit records. -/
def Session.env (session : Session) (host : Host) (out : Outside) (dryrun : Bool) : Env Around where
  ask request a :=
    if session.lockHeld then (a.next out).serve session.setup host request
    else Around.refuseChanges session.setup host out request a
  record record a := if dryrun then (.ok (), a.next out) else (out.record a.moment record, a.next out)
  query query a := if dryrun then (.ok [], a.next out) else (out.query a.moment query, a.next out)
  timestamp offsetS a := (out.timestamp a.moment offsetS, a.next out)
  pathExists path a := (out.pathExists a.moment path, a.next out)
  certStatus a := (out.certStatus a.moment, a.next out)
  certRenew a := (out.certRenew a.moment, a.next out)

/-- The monitor of `start_locked`: with the lock it recovers first. -/
def monitorStart (m : Setup) (host : Host) (lockHeld : Bool) (d : Disk) : World :=
  if lockHeld then World.after host { disk := d, mem := none } (startStep m)
  else { disk := d, mem := some Mem.new }

/-- `Session::start_locked` and the handshake; no session when the tables cannot be
built, the recovery failed or the monitor does not answer. -/
def startLocked (b : Build) (host : Host) (out : Outside) (lockHeld : Bool) (d : Disk) :
    Option Session × Around :=
  match Allowlist.fromModules (b.modules.map (·.descriptor)) withStateRoot with
  | .error _ => (none, { world := { disk := d, mem := none }, moment := 0, served := [] })
  | .ok allow =>
    let m := b.setup allow
    let a : Around := { world := monitorStart m host lockHeld d, moment := 0, served := [] }
    match (a.next out).serve m host (.hello protoVersion) with
    | (.ok (.helloAck ack), a) => (some { setup := m, lockHeld, engine := b.engine ack }, a)
    | (_, a) => (none, a)

/-- `Session::start` and, for a command that writes, `Session::start_writing`. -/
def startSession (b : Build) (host : Host) (out : Outside) (writing : Bool) (lock : LockAnswer)
    (d : Disk) : Option Session × Around :=
  match lock, writing with
  | .held, _ => startLocked b host out true d
  | .unavailable, false => startLocked b host out false d
  | _, _ => (none, { world := { disk := d, mem := none }, moment := 0, served := [] })

/-- `Session::finish`: the monitor is told to stop, and is waited for. -/
def Session.finish (session : Session) (host : Host) (out : Outside) (a : Around) : Around :=
  ((session.env host out false).ask .shutdown a).2

/-- What a command ended with. -/
structure Ended where
  exit : Exit
  result : Option (Except OpsError Executed)
  around : Around

/-- The result of an operation, and its exit code. -/
def Build.exitOf (b : Build) : Except OpsError Executed → Exit
  | .ok (.ran outcome) => exitForOutcome outcome
  | .ok (.wouldRun ..) => .ok
  | .error err => b.exitFor err

/-- An apply to a module that declares `commit_confirm`, which needs a monitor that
outlives the command. -/
def Build.needsServe (b : Build) : Operation → Bool
  | .apply id _ _ _ _ =>
    b.modules.any (fun module => module.id = id && module.descriptor.commitConfirm)
  | _ => false

/-- `operate` from the start of the session on. -/
def runSession (b : Build) (host : Host) (out : Outside) (op : Operation) (dryrun : Bool)
    (who : Identity) : Option Session × Around → Ended
  | (none, a) => { exit := .failed, result := none, around := a }
  | (some session, a) =>
    let ran := (session.executeAs op dryrun who allowAll).run
      (engine (session.env host out dryrun)) (fields, a)
    { exit := b.exitOf ran.1, result := some ran.1, around := session.finish host out ran.2.2 }

/-- `operate`, for an operation that was read. -/
def operate (b : Build) (host : Host) (out : Outside) (op : Operation) (dryrun : Bool)
    (who : Identity) (lock : LockAnswer) (d : Disk) : Ended :=
  if b.needsServe op then
    { exit := .failed, result := none
      around := { world := { disk := d, mem := none }, moment := 0, served := [] } }
  else
    runSession b host out op dryrun who
      (startSession b host out (!dryrun && changesState op.kind) lock d)

end Detent.Source.OneShot
