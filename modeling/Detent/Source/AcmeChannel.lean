import Detent.Lib.Prog
import Detent.Source.Client

/-!
# The channel between the acme process and the worker

`crates/detent-platform/src/privsep/acme.rs:86-245,343-389`: the messages, the acme
process's `AcmeClient` and the worker's `serve_on`. The client sends a message and
reads until an answer comes; a `RenewNow` read before it is recorded. What a receive
brings is an effect. Where a call does not end, `fuel` does, and the call has no
result.
-/
namespace Detent.Source.AcmeChannel
open Lib Source.Client

/-- `ACME_PROTO_VERSION`. -/
def acmeProtoVersion : Nat := 2

/-- `AcmeMessage`; the key is the text of a `KeyPem`. -/
inductive AcmeMessage where
  | hello (version : Nat)
  | install (chainPem keyPem : String)
  deriving DecidableEq, Repr

inductive WorkerMessage where
  | hello (version : Nat)
  | installed
  | refused (reason : String)
  | renewNow
  deriving DecidableEq, Repr

inductive AcmeChannelError where
  | channel (err : ChannelError)
  | version (ours theirs : Nat)
  | refused (reason : String)
  | protocol (what : String)
  deriving DecidableEq, Repr

/-- What `AcmeClient` does with its channel. -/
inductive ChannelOp : Type → Type 1
  | send (message : AcmeMessage) : ChannelOp (Except ChannelError Unit)
  | recv : ChannelOp (Except ChannelError WorkerMessage)

/-- The receives of `AcmeClient::call`, with `pending_renew`. -/
def awaitAnswer :
    Nat → Bool → Prog ChannelOp (Option (Except AcmeChannelError WorkerMessage) × Bool)
  | 0, pendingRenew => pure (none, pendingRenew)
  | fuel + 1, pendingRenew => do
    match ← Prog.perform .recv with
    | .error err => pure (some (.error (.channel err)), pendingRenew)
    | .ok .renewNow => awaitAnswer fuel true
    | .ok (.refused reason) => pure (some (.error (.refused reason)), pendingRenew)
    | .ok answer => pure (some (.ok answer), pendingRenew)

/-- `AcmeClient::call`. -/
def call (fuel : Nat) (message : AcmeMessage) (pendingRenew : Bool) :
    Prog ChannelOp (Option (Except AcmeChannelError WorkerMessage) × Bool) := do
  match ← Prog.perform (.send message) with
  | .error err => pure (some (.error (.channel err)), pendingRenew)
  | .ok () => awaitAnswer fuel pendingRenew

/-- The answer of the worker to `Hello`. -/
def helloResult : Except AcmeChannelError WorkerMessage → Except AcmeChannelError Unit
  | .error err => .error err
  | .ok (.hello version) =>
    if version = acmeProtoVersion then .ok () else .error (.version acmeProtoVersion version)
  | .ok _ => .error (.protocol "expected Hello")

/-- The answer of the worker to `Install`. -/
def installResult : Except AcmeChannelError WorkerMessage → Except AcmeChannelError Unit
  | .error err => .error err
  | .ok .installed => .ok ()
  | .ok _ => .error (.protocol "expected Installed")

/-- `AcmeClient::next_request`, given what its receive brings. -/
def nextRequest : Except ChannelError WorkerMessage → Except AcmeChannelError Unit
  | .error err => .error (.channel err)
  | .ok .renewNow => .ok ()
  | .ok _ => .error (.protocol "expected RenewNow")

/-- How `serve_on` goes on after a message: its answer, and why it stops. -/
structure Served where
  answer : WorkerMessage
  stop : Option String
  deriving DecidableEq, Repr

/-- One message of `serve_on`: `greeted` and the answer. `installed` is what the
worker's own `install` says to the pair. -/
def serveOn (greeted : Bool) (installed : Except String Unit) : AcmeMessage → Bool × Served
  | .hello version =>
    if version = acmeProtoVersion then (true, ⟨.hello acmeProtoVersion, none⟩)
    else (greeted, ⟨.refused s!"acme protocol version {version} does not match {acmeProtoVersion}",
      some "version mismatch"⟩)
  | .install _ _ =>
    if !greeted then (greeted, ⟨.refused "Install before Hello", some "Install before Hello"⟩)
    else
      match installed with
      | .ok () => (greeted, ⟨.installed, none⟩)
      | .error reason => (greeted, ⟨.refused reason, none⟩)

end Detent.Source.AcmeChannel
