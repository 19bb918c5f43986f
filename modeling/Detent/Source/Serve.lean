import Detent.Lib.Machine
import Detent.Source.Monitor

/-!
# Runs of the monitor

`crates/detent-platform/src/privsep/monitor.rs:563-694`: `serve` recovers at
startup, then the loop answers requests and checks the deadline, and every way
out of it rolls a pending commit back. The process may also die inside any of
these programs; the memory is then gone and the files stay as the crash left
them. Other programs may edit the targets between two steps. The monitor here
holds the state lock.
-/
namespace Detent.Source.Monitor
open Lib

variable [Sha256]

/-- The files, and the memory of a running monitor. -/
structure World where
  disk : Disk
  mem : Option Mem

/-- The programs the monitor runs. -/
inductive Event where
  | request (request : Request)
  | deadline
  | exit
  | restart
  deriving DecidableEq, Repr

/-- The responses after which the serve loop ends. -/
def Response.fatal : Response → Bool
  | .error (.versionMismatch ..) | .error .handshakeRequired => true
  | _ => false

section Programs

variable (m : Setup)

/-- What a program of the monitor ends with: the response sent, if any, and the
memory of the monitor, if it goes on. -/
abbrev Ending := Option Response × Option Mem

/-- The end of the serve loop. -/
def leave (response : Option Response) (mem : Mem) : Prog SysOp Ending := do
  let _ ← rollbackPendingOnExit m mem
  pure (response, none)

/-- One request of the serve loop, and what follows it. -/
def serveStep (mem : Mem) (request : Request) : Prog SysOp Ending := do
  match ← serveRequest m true mem request with
  | (.error _, mem) => leave m none mem
  | (.ok response, mem) =>
    if request = .shutdown ∨ Response.fatal response then leave m (some response) mem
    else pure (some response, some mem)

/-- One deadline check of the serve loop. -/
def deadlineStep (mem : Mem) : Prog SysOp Ending := do
  match ← enforceDeadline m mem with
  | (.error _, mem) => leave m none mem
  | (.ok (), mem) => pure (none, some mem)

/-- The start of `serve`; a monitor that cannot recover does not serve. -/
def startStep : Prog SysOp Ending := do
  match ← (recoverPending m).run with
  | .ok _ => pure (none, some Mem.new)
  | .error _ => pure (none, none)

/-- The program an event runs; a monitor starts only when none is running. -/
def program (mem : Option Mem) (event : Event) : Option (Prog SysOp Ending) :=
  match event, mem with
  | .request request, some mem => some (serveStep m mem request)
  | .deadline, some mem => some (deadlineStep m mem)
  | .exit, some mem => some (leave m none mem)
  | .restart, none => some (startStep m)
  | _, _ => none

/-- What happens in one step of a run. -/
inductive Label where
  | done (event : Event) (response : Option Response)
  | crash (event : Event)
  | edit (path : Path) (node : Option Node)
  deriving DecidableEq, Repr

/-- The world after an edit of a target by another program. -/
def World.edit (w : World) (path : Path) (node : Option Node) : World :=
  { w with disk := { w.disk with node := Function.update w.disk.node path node } }

/-- One step of a run. -/
inductive Step (host : Host) : World → Label → World → Prop
  | done {w : World} {event : Event} {p : Prog SysOp Ending} {response : Option Response}
      {mem : Option Mem} {d : Disk} (hprogram : program m w.mem event = some p)
      (hrun : p.run (sys host) w.disk = ((response, mem), d)) :
      Step host w (.done event response) { disk := d, mem }
  | crash {w : World} {event : Event} {p : Prog SysOp Ending} {d : Disk}
      (hprogram : program m w.mem event = some p) (hcut : p.Cut (sys host) w.disk d) :
      Step host w (.crash event) { disk := d, mem := none }
  | edit {w : World} (path : Path) (node : Option Node) :
      Step host w (.edit path node) (w.edit path node)

/-- The world after a program has run to its end. -/
def World.after (host : Host) (w : World) (p : Prog SysOp Ending) : World where
  disk := (p.run (sys host) w.disk).2
  mem := (p.run (sys host) w.disk).1.2

theorem Step.after {host : Host} {w : World} {event : Event} {p : Prog SysOp Ending}
    (h : program m w.mem event = some p) :
    Step m host w (.done event (p.run (sys host) w.disk).1.1) (w.after host p) :=
  .done h rfl

end Programs

end Detent.Source.Monitor
