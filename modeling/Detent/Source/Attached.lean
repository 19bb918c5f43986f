import Detent.Source.Engine
import Detent.Source.Serve

/-!
# An engine and its monitor

The surroundings of an engine whose client talks to a running monitor: a request
is one pass of the serve loop (`crates/detent-platform/src/privsep/monitor.rs`),
and a monitor that is gone, or goes without an answer, is a closed channel. Every
answer comes before the read timeout; `Detent.Source.Linked` has the waits that end
without one and the late answers they leave.
Before each effect of the engine anything may happen to the files and to the
monitor (`between`): an edit by another program, a deadline check, a crash.

`served` is a history; nothing reads it.
-/
namespace Detent.Source
open Lib Source.Engine Source.AuditLog Source.Monitor

/-- A request the monitor served, the files before and after it, and its answer. -/
structure Exchange where
  request : Request
  before : Disk
  after : Disk
  response : Option Response

/-- What surrounds the engine. `moment` counts the effects of the engine so far. -/
structure Around where
  world : World
  moment : Nat
  served : List Exchange

/-- What neither the engine nor the monitor chooses, by the moment. -/
structure Outside where
  between : Nat → World → World
  record : Nat → AuditRecord → Except AuditError Unit
  query : Nat → AuditQuery → Except AuditError (List AuditRecord)
  timestamp : Nat → Nat → String
  pathExists : Nat → Path → Bool
  certStatus : Nat → Except (String × String) Unit
  certRenew : Nat → Except (String × String) Unit

/-- The surroundings at the next effect. -/
def Around.next (out : Outside) (a : Around) : Around :=
  { a with world := out.between a.moment a.world, moment := a.moment + 1 }

variable [Sha256] (m : Setup) (host : Host)

/-- One request at the monitor's end of the channel. -/
def Around.serve (request : Request) (a : Around) : Except Client.ChannelError Response × Around :=
  match a.world.mem with
  | none => (.error .closed, a)
  | some mem =>
    let world := a.world.after host (serveStep m mem request)
    let answer := ((serveStep m mem request).run (sys host) a.world.disk).1.1
    (match answer with
      | some response => .ok response
      | none => .error .closed,
      { a with
        world
        served := a.served ++
          [{ request, before := a.world.disk, after := world.disk, response := answer }] })

/-- The surroundings of an engine attached to a monitor. -/
def attached (out : Outside) : Env Around where
  ask request a := (a.next out).serve m host request
  record record a := (out.record a.moment record, a.next out)
  query query a := (out.query a.moment query, a.next out)
  timestamp offsetS a := (out.timestamp a.moment offsetS, a.next out)
  pathExists path a := (out.pathExists a.moment path, a.next out)
  certStatus a := (out.certStatus a.moment, a.next out)
  certRenew a := (out.certRenew a.moment, a.next out)

end Detent.Source
