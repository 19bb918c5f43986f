import Detent.Guarantees.EngineRequests
import Detent.Guarantees.Handlers
import Detent.Source.Attached

/-!
# Exchanges between an engine and its monitor

What one exchange of an attached engine does to its surroundings, and what the
programs that send nothing leave alone.
-/
namespace Detent.Guarantees
open Lib Source Source.Engine Source.Monitor

section Calls

variable {σ α : Type} {env : Env σ} {e : OpsEngine} {s s' : Session × σ} {request : Request}
  {want : String} {select : Response → Option α}

theorem apply_ask (env : Env σ) (s : Session × σ) :
    (engine env).apply (.ask request) s =
      ((env.ask request s.2).1, (s.1, (env.ask request s.2).2)) := rfl

/-- An exchange of the client is refused before anything is sent, or makes its result of
what the surroundings answer. -/
theorem exchange_cases {r : Except Client.ClientError α}
    (h : (exchange e request want select).run (engine env) s = (r, s')) :
    s' = s ∧ r = .error .notGreeted ∨
      ∃ answer, env.ask request s.2 = (answer, s'.2) ∧ s'.1 = s.1 ∧ r = (match answer with
        | .ok response => Client.expect want select response
        | .error err => .error (.channel err)) := by
  unfold exchange at h
  split at h
  · cases h
    exact .inl ⟨rfl, rfl⟩
  · obtain ⟨asked, t, hask, h⟩ := Prog.run_bind_eq _ h
    rw [Prog.run_perform, apply_ask] at hask
    obtain ⟨rfl, rfl⟩ := Prod.mk.inj hask
    refine .inr ⟨(env.ask request s.2).1, ?_⟩
    cases hanswer : (env.ask request s.2).1 with
    | error | ok =>
      rw [hanswer] at h
      cases h
      exact ⟨Prod.ext hanswer rfl, rfl, rfl⟩

/-- A request that succeeded was answered, and the answer has the wanted form. -/
theorem mapped_ok {value : α}
    (h : Fallible.exec (engine env) (mapped (exchange e request want select)) s =
      (.ok value, s')) :
    s'.1 = s.1 ∧ ∃ response, env.ask request s.2 = (.ok response, s'.2) ∧
      select response = some value := by
  obtain ⟨r, t, hexchange, h⟩ := Fallible.exec_lift_bind _ h
  cases r with
  | error err => cases h
  | ok found =>
    cases h
    rcases exchange_cases hexchange with ⟨-, hrefused⟩ | ⟨answer, hask, hsession, hanswer⟩
    · cases hrefused
    · refine ⟨hsession, ?_⟩
      cases answer with
      | error err => cases hanswer
      | ok response =>
        refine ⟨response, hask, ?_⟩
        simp only [Client.expect] at hanswer
        split at hanswer
        · next hselect =>
          cases hanswer
          exact hselect
        · cases hanswer

end Calls

section Passes

variable [Sha256] (m : Setup) (host : Host)

/-- One pass of the serve loop: the request, the worlds before and after it, and the
answer. -/
def Pass (request : Request) (w w' : World) (answer : Option Response) : Prop :=
  ∃ mem, w.mem = some mem ∧
    (serveStep m mem request).run (sys host) w.disk = ((answer, w'.mem), w'.disk)

/-- The contents of a target. -/
def held (d : Disk) (target : TargetId) : Option Bytes :=
  (m.allow.target target).bind (fun entry => d.contents entry.path)

variable {m host} {w w' : World} {request : Request}

theorem pass_serveStep {mem : Mem} (hmem : w.mem = some mem) :
    Pass m host request w (w.after host (serveStep m mem request))
      ((serveStep m mem request).run (sys host) w.disk).1.1 :=
  ⟨mem, hmem, rfl⟩

/-- A monitor that gives no answer is gone. -/
theorem Pass.gone (h : Pass m host request w w' none) : w'.mem = none := by
  obtain ⟨mem, -, hrun⟩ := h
  obtain ⟨⟨result, mem₁⟩, d₁, -, hrun⟩ := Prog.run_bind_eq _ hrun
  cases result with
  | error err => exact (Prod.mk.inj (leave_response m hrun)).2
  | ok response =>
    dsimp only at hrun
    split at hrun
    · cases leave_response m hrun
    · cases hrun

/-- An answer that does not end the connection comes from a greeted monitor. -/
theorem Pass.dispatch {response : Response} (h : Pass m host request w w' (some response))
    (hshutdown : request ≠ .shutdown) (hack : ∀ ack, response ≠ .helloAck ack)
    (husual : Usual response) :
    ∃ mem after, w.mem = some mem ∧ mem.greeted = true ∧ w'.mem = some after ∧
      (Monitor.dispatch m mem request).run (sys host) w.disk =
        ((.ok response, after), w'.disk) := by
  obtain ⟨mem, hmem, hrun⟩ := h
  obtain ⟨after, hafter, hdispatch⟩ := serveStep_answered m hshutdown husual hrun
  exact ⟨mem, after, hmem, greeted_of_answer m hack husual hdispatch, hafter, hdispatch⟩

variable {target : TargetId} {expectedPrev : Option Sha256Digest}

/-- What the monitor answers to a read is what the target holds. -/
theorem Pass.readTarget {contents : TargetContents}
    (h : Pass m host (.readTarget target) w w' (some (.target contents))) :
    held m w.disk target = some contents.bytes ∧ contents.digest = Sha256.of contents.bytes := by
  have husual : Usual (.target contents) := trivial
  obtain ⟨mem, after, -, hgreeted, -, hdispatch⟩ := h.dispatch (by simp) (by simp) husual
  rw [Monitor.dispatch, if_pos hgreeted] at hdispatch
  obtain ⟨response, hresponse, -, hread⟩ := answer_run hdispatch
  cases hresponse
  unfold Monitor.readTarget at hread
  split at hread
  · cases hread
  · next entry hentry =>
    obtain ⟨r, d₁, hdigest, hread⟩ := Prog.run_bind_eq _ hread
    split at hread
    · next bytes digest =>
      cases hread
      obtain ⟨hnode, hof⟩ := readWithDigest_ok hdigest
      refine ⟨?_, hof⟩
      simp only [held, hentry, Option.bind_some, Files.contents, hnode]
    all_goals cases hread

/-- A write the monitor accepted is a write of the file. -/
theorem Pass.write {bytes : Bytes} {journal : Bool} {written : WriteReceipt}
    (h : Pass m host (.writeTarget target expectedPrev bytes journal) w w'
      (some (.written written))) :
    ∃ entry outcome d, m.allow.target target = some entry ∧ written = receipt target outcome ∧
      d.toFiles = w.disk.toFiles ∧
      Fallible.exec (sys host) (Atomic.writeAtomic (writeRequest m entry expectedPrev bytes)) d =
        (.ok outcome, w'.disk) ∧
      ∃ mem, w.mem = some mem ∧
        w'.mem = some (mem.record journal target entry.path outcome) := by
  have husual : Usual (.written written) := trivial
  obtain ⟨mem, after, hmem, hgreeted, hafter, hdispatch⟩ := h.dispatch (by simp) (by simp) husual
  rw [Monitor.dispatch, if_pos hgreeted] at hdispatch
  obtain ⟨⟨response, mem'⟩, d₁, hwrite, hdispatch⟩ := Prog.run_bind_eq _ hdispatch
  cases hdispatch
  rcases writeTarget_cases hwrite with ⟨-, -, err, herr⟩ | ⟨entry, d₂, r, hentry, hd₂, -, hexec, hcases⟩
  · cases herr
  rcases hcases with ⟨err, -, herr, -⟩ | ⟨outcome, rfl, hwritten, hrecord⟩
  · cases herr
  cases hwritten
  exact ⟨entry, outcome, d₂, hentry, rfl, hd₂, hexec, mem, hmem, hrecord ▸ hafter⟩

/-- A write the monitor accepted, down to the files. -/
theorem Pass.writeTarget {bytes : Bytes} {journal : Bool} {written : WriteReceipt}
    (h : Pass m host (.writeTarget target expectedPrev bytes journal) w w'
      (some (.written written))) :
    ∃ entry previous outcome, m.allow.target target = some entry ∧
      written = receipt target outcome ∧
      Wrote (writeRequest m entry expectedPrev bytes) previous outcome w.disk.toFiles
        w'.disk.toFiles := by
  obtain ⟨entry, outcome, d, hentry, hwritten, hd, hexec, -⟩ := h.write
  obtain ⟨previous, hwrote⟩ := writeAtomic_ok hexec
  rw [hd] at hwrote
  exact ⟨entry, previous, outcome, hentry, hwritten, hwrote⟩

end Passes

section Exchanges

variable [Sha256] (m : Setup) (host : Host) (out : Outside) {α : Type} (e : OpsEngine)

/-- A request that reached the monitor, and what it left. -/
structure Served (request : Request) (a a' : Around) (answer : Option Response) : Prop where
  pass : Pass m host request (a.next out).world a'.world answer
  served : a'.served = a.served ++ [{
    request, before := (a.next out).world.disk, after := a'.world.disk, response := answer }]

variable {m host out e} {s s' : Session × Around} {request : Request} {want : String}
  {select : Response → Option α}

variable (m host out request) in
theorem ask_cases (a : Around) :
    ((attached m host out).ask request a).2.served = a.served ∧
        ((attached m host out).ask request a).1 = .error .closed ∨
      ∃ answer, Served m host out request a ((attached m host out).ask request a).2 answer ∧
        ((attached m host out).ask request a).1 = (match answer with
          | some response => .ok response
          | none => .error .closed) := by
  cases hmem : (a.next out).world.mem with
  | none =>
    have hask : (attached m host out).ask request a = (.error .closed, a.next out) := by
      simp only [attached, Around.serve, hmem]
    rw [hask]
    exact .inl ⟨rfl, rfl⟩
  | some mem =>
    refine .inr ⟨((serveStep m mem request).run (sys host) (a.next out).world.disk).1.1, ?_⟩
    simp only [attached, Around.serve, hmem]
    exact ⟨⟨pass_serveStep hmem, rfl⟩, by trivial⟩

/-- A request that succeeded was served, and its answer has the wanted form. -/
theorem mapped_served {value : α}
    (h : Fallible.exec (engine (attached m host out)) (mapped (exchange e request want select)) s =
      (.ok value, s')) :
    s'.1 = s.1 ∧ ∃ response, Served m host out request s.2 s'.2 (some response) ∧
      select response = some value := by
  obtain ⟨hsession, response, hask, hselect⟩ := mapped_ok h
  refine ⟨hsession, response, ?_, hselect⟩
  rcases ask_cases m host out request s.2 with ⟨-, hclosed⟩ | ⟨answer, hserved, hanswer⟩
  · rw [hask] at hclosed
    cases hclosed
  · rw [hask] at hserved hanswer
    cases answer with
    | none => cases hanswer
    | some found =>
      cases hanswer
      exact hserved

/-- The requests a program may send are the ones it sent. -/
theorem asks_served {ok : Request → Prop} {x : EngineM α} {r : Except OpsError α}
    (hx : Fallible.Uses (Asks ok) x)
    (h : Fallible.exec (engine (attached m host out)) x s = (r, s')) :
    ∃ sent, s'.2.served = s.2.served ++ sent ∧ ∀ exchange ∈ sent, ok exchange.request := by
  have hstart : ∃ sent, s.2.served = s.2.served ++ sent ∧
      ∀ exchange ∈ sent, ok exchange.request := ⟨[], by simp⟩
  have hrun := Prog.Uses.run_invariant (h := engine (attached m host out))
    (I := fun t => ∃ sent, t.2.served = s.2.served ++ sent ∧ ∀ exchange ∈ sent, ok exchange.request)
    hx (fun _ effect t hok ht => by
      cases effect with
      | ask request =>
        obtain ⟨sent, hsent, hall⟩ := ht
        rcases ask_cases m host out request t.2 with ⟨hserved, -⟩ | ⟨answer, hserved, -⟩
        · exact ⟨sent, hserved.trans hsent, hall⟩
        · refine ⟨_, hserved.served.trans (by rw [hsent, List.append_assoc]), ?_⟩
          intro exchange hexchange
          rcases List.mem_append.mp hexchange with hmem | hmem
          · exact hall exchange hmem
          · obtain rfl := List.mem_singleton.mp hmem
            exact hok
      | record record => exact hok.elim
      | _ => exact ht) hstart
  rw [show Prog.run (engine (attached m host out)) x.run s = (r, s') from h] at hrun
  exact hrun

/-- A program that asks for nothing leaves the history alone. -/
theorem silent_served {x : EngineM α} {r : Except OpsError α}
    (hx : Fallible.Uses (Asks (fun _ => False)) x)
    (h : Fallible.exec (engine (attached m host out)) x s = (r, s')) :
    s'.2.served = s.2.served := by
  obtain ⟨sent, hsent, hall⟩ := asks_served hx h
  cases sent with
  | nil => rw [hsent, List.append_nil]
  | cons exchange sent => exact (hall exchange List.mem_cons_self).elim

end Exchanges

/-! ## A small engine

The engine of the small monitor, for concrete runs. -/

namespace Sample

/-- What the handshake gives an engine of this monitor. -/
def ops (m : Setup) : OpsEngine where
  modules := m.modules
  tables := some m.allow.helloAck
  certFrontEnd := false
  checkUpdateTag _ := none
  moduleErrorId _ := "module-error"

/-- Surroundings that keep every record, with `between` before each effect. -/
def outside (between : Nat → World → World) : Outside where
  between := between
  record _ _ := .ok ()
  query _ _ := .ok []
  timestamp _ _ := "2026-01-01T00:00:00Z"
  pathExists _ _ := true
  certStatus _ := .ok ()
  certRenew _ := .ok ()

/-- Nothing but one edit of the file, before the effect `moment`. -/
def editAt (moment : Nat) (contents : Bytes) (n : Nat) (w : World) : World :=
  if n = moment then w.edit path (some (.file contents)) else w

def session : Session := { nextCommit := 1, pendingCommit := none, hashes := .empty }

/-- An engine before its first effect. -/
def start (w : World) : Session × Around := (session, { world := w, moment := 0, served := [] })

def caller : Identity := { subject := "admin", kind := .session }

end Sample

end Detent.Guarantees
