import Mathlib.Data.Nat.Log
import Detent.Source.Serve

/-!
# Frames and the serve loop

`crates/detent-platform/src/privsep/proto.rs:82,1003-1017`,
`privsep/transport.rs:44-78,196-214` and `privsep/monitor.rs:635-694,2083-2095`:
the size of a response on the wire, the sending of it, and one turn of the serve
loop with every way out of it.

`postcard` is outside the repository. `Postcard` holds the function the source
takes from it; its law is the size its format documents: a number of seven bits a
byte, an enumeration by its variant, a text or a list by its length and its parts,
an option by one byte. A digest is serialized as its 64 hex characters. Setting
the read timeout fails as the poll after it does, so a turn has one result for
both.
-/
namespace Detent.Source.Channel
open Lib Source.Monitor

/-- `MAX_FRAME`. -/
def maxFrame : Nat := 1024 * 1024

/-- Bytes of a number whose type takes at most `cap` of them. -/
def numberLen (cap n : Nat) : Nat := min (Nat.log 128 n + 1) cap

def u16Len (n : Nat) : Nat := numberLen 3 n
def u32Len (n : Nat) : Nat := numberLen 5 n
def u64Len (n : Nat) : Nat := numberLen 10 n

/-- A signed number is written by zigzag: `0, -1, 1, -2, ...` as `0, 1, 2, 3, ...`. -/
def i32Len (n : Int) : Nat := u32Len (if 0 ≤ n then (2 * n).toNat else (-2 * n - 1).toNat)

def bytesLen (n : Nat) : Nat := u64Len n + n

def textLen (text : String) : Nat := bytesLen text.utf8ByteSize

def digestLen : Nat := bytesLen 64

/-- The name of a backup: a stamp of 30 characters, a dash and 8 hex digits. -/
def backupNameLen : Nat := bytesLen 39

def optionLen {α : Type} (len : α → Nat) : Option α → Nat
  | none => 1
  | some a => 1 + len a

def listLen {α : Type} (len : α → Nat) (items : List α) : Nat :=
  u64Len items.length + (items.map len).sum

def moduleLen (info : ModuleInfo) : Nat := u16Len info.id.get + textLen info.name + 1

def targetLen (info : TargetInfo) : Nat :=
  u16Len info.id.get + u16Len info.module.get + textLen info.path + 1

def checkLen (info : CheckInfo) : Nat :=
  u16Len info.id.get + u16Len info.module.get + textLen info.program +
    listLen (fun target : TargetId => u16Len target.get) info.targets

def bindingLen (info : BindingInfo) : Nat :=
  u16Len info.id.get + u16Len info.module.get + textLen info.unit +
    listLen (fun _ => 1) info.actions + listLen (fun target : TargetId => u16Len target.get) info.targets

def helloLen (ack : HelloAck) : Nat :=
  u16Len ack.proto + listLen moduleLen ack.modules + listLen targetLen ack.targets +
    listLen checkLen ack.checks + listLen bindingLen ack.bindings

def contentsLen (contents : TargetContents) : Nat :=
  u16Len contents.target.get + bytesLen contents.bytes.length + digestLen

def receiptLen (receipt : WriteReceipt) : Nat :=
  u16Len receipt.target.get + optionLen (fun _ => digestLen) receipt.prevDigest + digestLen + 3

def backupLen (info : BackupInfo) : Nat :=
  u32Len info.id.get + u16Len info.target.get + backupNameLen + u64Len info.createdUnixS +
    digestLen + u64Len info.len

def checkOutcomeLen (outcome : CheckOutcome) : Nat :=
  u16Len outcome.check.get + 1 + optionLen i32Len outcome.exitCode + textLen outcome.detail

def serviceOutcomeLen (outcome : ServiceOutcome) : Nat :=
  u16Len outcome.binding.get + 1 + textLen outcome.detail

def unitStatusLen (status : UnitStatus) : Nat :=
  textLen status.unit + 1 + optionLen (fun _ => 1) status.enabled +
    optionLen (fun since : Nat × Nat => u64Len since.1 + u32Len since.2) status.since

def mountLen (outcome : MountOutcome) : Nat :=
  textLen outcome.mountpoint + textLen outcome.unit + 1 + textLen outcome.detail

def errorLen : ProtoError → Nat
  | .versionMismatch expected got => 1 + u16Len expected + u16Len got
  | .unknownId _ id => 1 + 1 + u32Len id
  | .conflict _ actual => 1 + digestLen + optionLen (fun _ => digestLen) actual
  | .commitPending commit | .commitExpired commit => 1 + u32Len commit.get
  | .unsupported text | .unavailable text | .io text => 1 + textLen text
  | .handshakeRequired | .actionNotAllowed | .verificationFailed | .notFound
  | .stateLockUnavailable | .updateRunning => 1

/-- The size of a response: its variant and its fields. -/
def responseLen : Response → Nat
  | .helloAck ack => 1 + helloLen ack
  | .target contents => 1 + contentsLen contents
  | .written receipt => 1 + receiptLen receipt
  | .checked outcome => 1 + checkOutcomeLen outcome
  | .serviced outcome => 1 + serviceOutcomeLen outcome
  | .backups entries => 1 + listLen backupLen entries
  | .restored target _ => 1 + u16Len target.get + digestLen
  | .confirmTimerStarted commit timeoutS rollbackTargets =>
    1 + u32Len commit.get + u16Len timeoutS + u16Len rollbackTargets
  | .committed commit => 1 + u32Len commit.get
  | .shuttingDown => 1
  | .error err => 1 + errorLen err
  | .rolledBack commit restored => 1 + u32Len commit.get + u16Len restored
  | .replaced version => 1 + textLen version
  | .pending commit => 1 + optionLen (fun commit : CommitId => u32Len commit.get) commit
  | .unitFilesReloaded detail => 1 + textLen detail
  | .mounted _ units => 1 + 1 + listLen mountLen units
  | .staged received => 1 + u64Len received
  | .updateStarted detail => 1 + textLen detail
  | .unitStatus status => 1 + unitStatusLen status

/-- `postcard::to_allocvec` on responses, with the sizes of its format. -/
structure Postcard where
  toAllocvec : Response → Bytes
  length_eq : ∀ response, (toAllocvec response).length = responseLen response

/-- Frames of the right size that hold zeros. -/
def Postcard.blank : Postcard where
  toAllocvec response := List.replicate (responseLen response) 0
  length_eq _ := List.length_replicate

/-- `ChannelError`. -/
inductive ChannelError where
  | closed
  | oversize (len : Nat)
  | decode
  | timeout
  | io
  deriving DecidableEq, Repr

def ChannelError.isProtocolViolation : ChannelError → Bool
  | .oversize _ | .decode => true
  | _ => false

/-- How the write of a frame to the socket fails. -/
inductive WriteFailure where
  | closed | timeout | io
  deriving DecidableEq, Repr

/-- `map_write_error`. -/
def WriteFailure.toChannel : WriteFailure → ChannelError
  | .closed => .closed
  | .timeout => .timeout
  | .io => .io

/-- `Channel::send`, given how the write of the frame ends. -/
def send (wire : Postcard) (written : Option WriteFailure) (response : Response) :
    Except ChannelError Unit :=
  let body := wire.toAllocvec response
  if maxFrame < body.length then .error (.oversize body.length)
  else
    match written with
    | none => .ok ()
    | some failure => .error failure.toChannel

/-- Why the loop stopped serving. -/
inductive ExitReason where
  | shutdown | peerClosed | protocolMismatch | protocolViolation
  deriving DecidableEq, Repr

/-- `MonitorError`, with the errors of the channel. -/
inductive LoopError where
  | channel (err : ChannelError)
  | monitor (err : MonitorError)
  deriving DecidableEq, Repr

/-- How the loop ends. -/
abbrev Exit := Except LoopError ExitReason

/-- `finish_send_error`. -/
def finishSendError : ChannelError → Exit
  | .closed | .timeout => .ok .peerClosed
  | .oversize _ => .ok .protocolViolation
  | err => .error (.channel err)

/-- What the channel does in one turn of the loop: what the poll returned, and how
the write of a response fails, if it does. -/
structure Turn where
  received : Except ChannelError (Option Request)
  written : Option WriteFailure
  deriving DecidableEq, Repr

/-- The end of a turn: the response sent, if any, and the exit or the memory with
which the loop goes on. -/
structure TurnEnd where
  sent : Option Response
  next : Except Exit Mem
  deriving DecidableEq, Repr

section Loop

variable [Sha256] (m : Setup) (wire : Postcard) (lockHeld : Bool)

/-- The deadline check at the end of a turn. -/
def endTurn (sent : Option Response) (mem : Mem) : Prog SysOp TurnEnd := do
  match ← enforceDeadline m mem with
  | (.ok (), mem) => pure { sent, next := .ok mem }
  | (.error err, _) => pure { sent, next := .error (.error (.monitor err)) }

/-- One turn of `serve_loop`. -/
def serveTurn (turn : Turn) (mem : Mem) : Prog SysOp TurnEnd :=
  match turn.received with
  | .ok none => endTurn m none mem
  | .ok (some request) => do
    match ← serveRequest m lockHeld mem request with
    | (.error err, _) => pure { sent := none, next := .error (.error (.monitor err)) }
    | (.ok response, mem) =>
      match send wire turn.written response with
      | .error err => pure { sent := none, next := .error (finishSendError err) }
      | .ok () =>
        if request = .shutdown then
          pure { sent := some response, next := .error (.ok .shutdown) }
        else if Response.fatal response then
          pure { sent := some response, next := .error (.ok .protocolMismatch) }
        else endTurn m (some response) mem
  | .error err =>
    if err = .closed then pure { sent := none, next := .error (.ok .peerClosed) }
    else if err.isProtocolViolation then
      pure { sent := none, next := .error (.ok .protocolViolation) }
    else pure { sent := none, next := .error (.error (.channel err)) }

end Loop

end Detent.Source.Channel
