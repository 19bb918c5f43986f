import Detent.Source.Attached

/-!
# An engine on its channel

`Client::call` (`crates/detent-platform/src/privsep/worker.rs:431-448`) and
`Channel::recv` (`transport.rs:224-284`) between an engine and its monitor: a call sends
one request and takes the oldest response on the channel, or gives up when none comes
within the read timeout. The channel is kept after that, so the late answer is there when
the next call looks for its own. `attached` is the case where every wait is long enough.

While a call waits, the monitor serves requests in the order they were sent, and other
programs go on. A request still in the channel when a call gives up is served during a
later wait.

`served` and `due` are histories; nothing reads them.
-/
namespace Detent.Source
open Lib Source.Engine Source.Monitor

/-- What happens while a call waits: a change of the files or of the monitor, or the
monitor serves a request. -/
inductive Move where
  | change (change : World → World)
  | serve

/-- What surrounds an engine and its channel. For every request that was sent, `due` has
the earlier requests whose answers had not been taken. -/
structure Linked where
  world : World
  wire : Wire Request Response
  moment : Nat
  served : List Exchange
  due : List (List Nat)

/-- What neither end of the channel chooses, by the moment: what `out` says, what happens
until an answer is there or the read timeout has passed, and whether a system call fails. -/
structure Link where
  out : Outside
  sendFails : Nat → Option Client.ChannelError
  moves : Nat → List Move
  receiveFails : Nat → Option Client.ChannelError

namespace Linked

/-- A new engine on a new channel. -/
def start (world : World) : Linked := { world, wire := .empty, moment := 0, served := [], due := [] }

/-- The surroundings at the next effect. -/
def next (out : Outside) (l : Linked) : Linked :=
  { l with world := out.between l.moment l.world, moment := l.moment + 1 }

def send (request : Request) (l : Linked) : Linked :=
  { l with wire := l.wire.send request, due := l.due ++ [l.wire.outstanding] }

variable [Sha256] (m : Setup) (host : Host)

/-- The monitor serves the oldest request, when it runs and there is one. -/
def serve (l : Linked) : Linked :=
  match l.world.mem, l.wire.queue with
  | some mem, (_, request) :: _ =>
    let world := l.world.after host (serveStep m mem request)
    let answer := ((serveStep m mem request).run (sys host) l.world.disk).1.1
    { l with
      world
      wire := l.wire.settle answer
      served := l.served ++
        [{ request, before := l.world.disk, after := world.disk, response := answer }] }
  | _, _ => l

def move (l : Linked) : Move → Linked
  | .change change => { l with world := change l.world }
  | .serve => l.serve m host

/-- `Channel::recv` when the wait is over. -/
def receive (l : Linked) : Except Client.ChannelError Response × Linked :=
  match l.wire.take with
  | some ((_, response), wire) => (.ok response, { l with wire })
  | none =>
    if l.world.mem.isNone then (.error .closed, { l with wire := l.wire.close })
    else (.error .timeout, l)

/-- `Client::call`. -/
def call (link : Link) (request : Request) (l : Linked) :
    Except Client.ChannelError Response × Linked :=
  match link.sendFails l.moment with
  | some err => (.error err, l.next link.out)
  | none =>
    let waited := (link.moves l.moment).foldl (move m host) ((l.next link.out).send request)
    match link.receiveFails l.moment with
    | some err => (.error err, waited)
    | none => waited.receive

end Linked

variable [Sha256] (m : Setup) (host : Host)

/-- The surroundings of an engine on its channel. -/
def linked (link : Link) : Env Linked where
  ask request l := l.call m host link request
  record record l := (link.out.record l.moment record, l.next link.out)
  query query l := (link.out.query l.moment query, l.next link.out)
  timestamp offsetS l := (link.out.timestamp l.moment offsetS, l.next link.out)
  pathExists path l := (link.out.pathExists l.moment path, l.next link.out)
  certStatus l := (link.out.certStatus l.moment, l.next link.out)
  certRenew l := (link.out.certRenew l.moment, l.next link.out)

end Detent.Source
