import Detent.Lib.Wire
import Detent.Source.Proto

/-!
# The worker's client

`crates/detent-platform/src/privsep/worker.rs:22-448`: every method of `Client`
sends one request and reads one response. The channel is a `Wire`: the monitor
answers in request order, and a receive (`transport.rs:224-284`) takes the
oldest unread response or gives up when the read timeout passes. A failed send
puts nothing on the wire. `RunnerClient::call` (`runner.rs:303-358`) is the
same exchange with one difference: it stops using the channel after any failure.

The table lookups of `Client` do no traffic and are not part of this module.
-/
namespace Detent.Source.Client
open Lib

/-- `ChannelError`; the texts of the codec and of the system call are payload. -/
inductive ChannelError where
  | closed
  | oversize (len : Nat)
  | decode (message : String)
  | timeout
  | io (message : String)
  deriving DecidableEq, Repr

inductive ClientError where
  | channel (err : ChannelError)
  | remote (err : ProtoError)
  | unexpected (want got : String)
  | notGreeted
  deriving DecidableEq, Repr

/-- `variant_name`. -/
def variantName : Response → String
  | .helloAck _ => "HelloAck"
  | .target _ => "Target"
  | .written _ => "Written"
  | .checked _ => "Checked"
  | .serviced _ => "Serviced"
  | .backups _ => "Backups"
  | .restored .. => "Restored"
  | .confirmTimerStarted .. => "ConfirmTimerStarted"
  | .committed _ => "Committed"
  | .shuttingDown => "ShuttingDown"
  | .error _ => "Error"
  | .rolledBack .. => "RolledBack"
  | .replaced _ => "Replaced"
  | .pending _ => "Pending"
  | .unitFilesReloaded _ => "UnitFilesReloaded"
  | .mounted .. => "Mounted"
  | .staged _ => "Staged"
  | .updateStarted _ => "UpdateStarted"
  | .unitStatus _ => "UnitStatus"

/-- `unexpected`: an error response is reported as such. -/
def unexpected (want : String) (got : Response) : ClientError :=
  match got with
  | .error err => .remote err
  | got => .unexpected want (variantName got)

/-- The match of a method on its response. -/
def expect {α : Type} (want : String) (select : Response → Option α) (response : Response) :
    Except ClientError α :=
  match select response with
  | some value => .ok value
  | none => .error (unexpected want response)

def asHelloAck : Response → Option HelloAck
  | .helloAck ack => some ack
  | _ => none

def asTarget : Response → Option TargetContents
  | .target contents => some contents
  | _ => none

def asWritten : Response → Option WriteReceipt
  | .written receipt => some receipt
  | _ => none

def asChecked : Response → Option CheckOutcome
  | .checked outcome => some outcome
  | _ => none

def asServiced : Response → Option ServiceOutcome
  | .serviced outcome => some outcome
  | _ => none

def asUnitStatus : Response → Option UnitStatus
  | .unitStatus status => some status
  | _ => none

def asUnitFilesReloaded : Response → Option String
  | .unitFilesReloaded detail => some detail
  | _ => none

def asMounted : Response → Option (Bool × List MountOutcome)
  | .mounted activated units => some (activated, units)
  | _ => none

def asBackups : Response → Option (List BackupInfo)
  | .backups entries => some entries
  | _ => none

def asRestored : Response → Option (TargetId × Sha256Digest)
  | .restored target newDigest => some (target, newDigest)
  | _ => none

/-- `start_confirm_timer` drops the commit id of the answer. -/
def asConfirmTimerStarted : Response → Option (Nat × Nat)
  | .confirmTimerStarted _ timeoutS rollbackTargets => some (timeoutS, rollbackTargets)
  | _ => none

def asPending : Response → Option (Option CommitId)
  | .pending commit => some commit
  | _ => none

def asCommitted : Response → Option CommitId
  | .committed commit => some commit
  | _ => none

def asRolledBack : Response → Option (CommitId × Nat)
  | .rolledBack commit restored => some (commit, restored)
  | _ => none

def asUpdateStarted : Response → Option String
  | .updateStarted detail => some detail
  | _ => none

def asShuttingDown : Response → Option Unit
  | .shuttingDown => some ()
  | _ => none

/-- A call of one of the client's methods, with its arguments. -/
inductive Call where
  | hello
  | readTarget (target : TargetId)
  | writeTarget (target : TargetId) (expectedPrev : Option Sha256Digest) (bytes : Bytes)
      (journal : Bool)
  | runCheck (check : CheckId) (bytes : Bytes)
  | service (binding : BindingId) (action : ServiceAction)
  | serviceStatus (binding : BindingId)
  | reloadUnitFiles (module : ModuleId)
  | mount (target : TargetId)
  | listBackups (module : ModuleId)
  | restore (module : ModuleId) (backup : BackupId)
  | startConfirmTimer (commit : CommitId) (timeoutS : Nat) (service : Option PendingService)
  | pendingCommit
  | confirmCommit (commit : CommitId)
  | rollbackCommit (commit : CommitId)
  | startUpdate (tag : String)
  | shutdown
  deriving DecidableEq, Repr

/-- What the methods return, one case for each return type. -/
inductive Value where
  | ack (ack : HelloAck)
  | contents (contents : TargetContents)
  | receipt (receipt : WriteReceipt)
  | check (outcome : CheckOutcome)
  | service (outcome : ServiceOutcome)
  | status (status : UnitStatus)
  | detail (detail : String)
  | mounts (activated : Bool) (units : List MountOutcome)
  | listing (entries : List BackupInfo)
  | restored (target : TargetId) (newDigest : Sha256Digest)
  | timer (timeoutS rollbackTargets : Nat)
  | pending (commit : Option CommitId)
  | commit (commit : CommitId)
  | rolledBack (commit : CommitId) (restored : Nat)
  | unit
  deriving DecidableEq, Repr

/-- The request a method sends. -/
def Call.request : Call → Request
  | .hello => .hello protoVersion
  | .readTarget target => .readTarget target
  | .writeTarget target expectedPrev bytes journal =>
    .writeTarget target expectedPrev bytes journal
  | .runCheck check bytes => .runCheck check bytes
  | .service binding action => .service binding action
  | .serviceStatus binding => .service binding .status
  | .reloadUnitFiles module => .reloadUnitFiles module
  | .mount target => .mount target
  | .listBackups module => .listBackups module
  | .restore module backup => .restore module backup
  | .startConfirmTimer commit timeoutS pending => .startConfirmTimer commit timeoutS pending
  | .pendingCommit => .pendingCommit
  | .confirmCommit commit => .confirmCommit commit
  | .rollbackCommit commit => .rollbackCommit commit
  | .startUpdate tag => .startUpdate tag
  | .shutdown => .shutdown

/-- What a method makes of the response it received. -/
def Call.finish (call : Call) (response : Response) : Except ClientError Value :=
  match call with
  | .hello => (expect "HelloAck" asHelloAck response).map .ack
  | .readTarget _ => (expect "Target" asTarget response).map .contents
  | .writeTarget .. => (expect "Written" asWritten response).map .receipt
  | .runCheck .. => (expect "Checked" asChecked response).map .check
  | .service .. => (expect "Serviced" asServiced response).map .service
  | .serviceStatus _ => (expect "UnitStatus" asUnitStatus response).map .status
  | .reloadUnitFiles _ => (expect "UnitFilesReloaded" asUnitFilesReloaded response).map .detail
  | .mount _ => (expect "Mounted" asMounted response).map (fun p => .mounts p.1 p.2)
  | .listBackups _ => (expect "Backups" asBackups response).map .listing
  | .restore .. => (expect "Restored" asRestored response).map (fun p => .restored p.1 p.2)
  | .startConfirmTimer .. =>
    (expect "ConfirmTimerStarted" asConfirmTimerStarted response).map (fun p => .timer p.1 p.2)
  | .pendingCommit => (expect "Pending" asPending response).map .pending
  | .confirmCommit _ => (expect "Committed" asCommitted response).map .commit
  | .rollbackCommit _ =>
    (expect "RolledBack" asRolledBack response).map (fun p => .rolledBack p.1 p.2)
  | .startUpdate _ => (expect "UpdateStarted" asUpdateStarted response).map .detail
  | .shutdown => (expect "ShuttingDown" asShuttingDown response).map (fun _ => .unit)

/-- A call that has returned: the number of its request, when one was sent, the
numbered response it read, when it read one, and its result. -/
structure Returned where
  call : Call
  number : Option Nat
  response : Option (Nat × Response)
  result : Except ClientError Value
  deriving DecidableEq

/-- A client, the call in progress on it and the calls that returned. A method
borrows the client mutably, so at most one is in progress. -/
structure State where
  wire : Wire Request Response
  tables : Option HelloAck
  waiting : Option (Nat × Call)
  returned : List Returned
  deriving DecidableEq

/-- `Client::new` on a fresh channel. -/
def State.new : State := { wire := .empty, tables := none, waiting := none, returned := [] }

/-- What can happen next: a method is called, its send fails, the monitor
answers the oldest request, the call in progress reads a response or times out. -/
inductive Event where
  | call (call : Call)
  | sendFails (call : Call) (err : ChannelError)
  | answer (response : Response)
  | receive
  | timeout
  deriving DecidableEq, Repr

/-- The call in progress returns `err` without having read a response. -/
def State.fail (s : State) (call : Call) (number : Option Nat) (err : ClientError) : State :=
  { s with
    waiting := none
    returned := s.returned ++ [{ call, number, response := none, result := .error err }] }

/-- The call in progress returns what it makes of `response`; a successful
`hello` caches the tables. -/
def State.finish (s : State) (call : Call) (number : Nat) (response : Nat × Response)
    (wire : Wire Request Response) : State :=
  let result := call.finish response.2
  { wire
    tables := match result with
      | .ok (.ack ack) => some ack
      | _ => s.tables
    waiting := none
    returned := s.returned ++ [{ call, number := some number, response := some response, result }] }

/-- Every method but `hello` goes through `checked_call`. -/
def Call.refused (call : Call) (tables : Option HelloAck) : Bool :=
  call ≠ .hello && tables.isNone

/-- `none` when the event cannot happen in this state. -/
def step (s : State) : Event → Option State
  | .call call =>
    if s.waiting.isSome then none
    else if call.refused s.tables then some (s.fail call none .notGreeted)
    else some { s with wire := s.wire.send call.request, waiting := some (s.wire.sent, call) }
  | .sendFails call err =>
    if s.waiting.isSome ∨ call.refused s.tables then none
    else some (s.fail call none (.channel err))
  | .answer response => (s.wire.answer response).map (fun wire => { s with wire })
  | .receive =>
    match s.waiting, s.wire.take with
    | some (number, call), some (response, wire) => some (s.finish call number response wire)
    | _, _ => none
  | .timeout =>
    match s.waiting with
    | some (number, call) => some (s.fail call (some number) (.channel .timeout))
    | none => none

variable {Req Resp : Type}

/-- A call of the monitor on the runner that has returned; the error text of a
failure is not kept. -/
structure RunnerReturned (Resp : Type) where
  number : Option Nat
  response : Option (Nat × Resp)
  result : Option Resp

/-- The runner's channel, `none` once the client has stopped using it. -/
structure RunnerState (Req Resp : Type) where
  channel : Option (Wire Req Resp)
  waiting : Option Nat
  returned : List (RunnerReturned Resp)

def RunnerState.new : RunnerState Req Resp :=
  { channel := some .empty, waiting := none, returned := [] }

inductive RunnerEvent (Req Resp : Type) where
  | call (request : Req)
  | sendFails (request : Req)
  | answer (response : Resp)
  | receive
  | timeout

/-- A failed exchange: `*guard = None`. -/
def RunnerState.fail (s : RunnerState Req Resp) (number : Option Nat) : RunnerState Req Resp :=
  { channel := none, waiting := none
    returned := s.returned ++ [{ number, response := none, result := none }] }

def runnerStep (s : RunnerState Req Resp) : RunnerEvent Req Resp → Option (RunnerState Req Resp)
  | .call request =>
    match s.waiting, s.channel with
    | some _, _ => none
    | none, none => some (s.fail none)
    | none, some wire =>
      some { s with channel := some (wire.send request), waiting := some wire.sent }
  | .sendFails _ =>
    match s.waiting, s.channel with
    | none, some _ => some (s.fail none)
    | _, _ => none
  | .answer response =>
    match s.channel with
    | none => none
    | some wire => (wire.answer response).map (fun wire => { s with channel := some wire })
  | .receive =>
    match s.waiting, s.channel with
    | some number, some wire =>
      wire.take.map (fun (response, wire) =>
        { channel := some wire, waiting := none
          returned := s.returned ++
            [{ number := some number, response := some response, result := some response.2 }] })
    | _, _ => none
  | .timeout =>
    match s.waiting with
    | some number => some (s.fail (some number))
    | none => none

end Detent.Source.Client
