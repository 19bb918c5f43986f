import Detent.Source.Acme

/-!
# The renewal loop on a clock

`crates/detent/src/acme.rs:489-613,640-687` and `crates/detent-platform/src/privsep/acme.rs:182-245`:
the clock and the waits of `run_loop` with a clock that advances by exactly the time slept, and a
worker that asks for renewals at given moments. Reading the clock takes no time; the effects of a
round take any.

A request stands in the channel from its moment until it is read. `wait_or_peer` polls the channel,
so that a request that is unread, or comes no later than the wait's end, breaks the wait. The answer
of an install comes after the requests sent before it: its call may record some of those.
-/
namespace Detent.Source.AcmeClock
open Lib Source.Acme Source.AcmeChannel

/-- The clock, the requests that are unread or still to come, each with its moment, those that
`AcmeClient` recorded in `pending_renew`, and everything else. -/
structure Timeline (σ : Type) where
  clock : Int
  requests : List Int
  recorded : List Int
  rest : σ
  ordered : requests.Pairwise (· ≤ ·)
  arrived : ∀ moment ∈ recorded, moment ≤ clock

/-- The CA, the files and the worker during an effect of a round: the answer, the seconds it takes,
and how many unread requests an install records. -/
structure Surroundings (σ : Type) where
  answer : {β : Type} → AcmeOp β → σ → β × σ
  takes : {β : Type} → AcmeOp β → σ → Nat
  records : σ → Nat

section Timeline

variable {σ : Type}

def Timeline.pass (w : Timeline σ) (secs : Nat) : Timeline σ :=
  { w with
    clock := w.clock + secs
    arrived := fun moment hmoment => by
      have := w.arrived moment hmoment
      omega }

/-- The clock at a moment, or where it is when that is past. -/
def Timeline.reach (w : Timeline σ) (moment : Int) : Timeline σ :=
  { w with
    clock := max w.clock moment
    arrived := fun earlier hearlier => by
      have := w.arrived earlier hearlier
      omega }

/-- The first `n` of the requests that arrived, or all of them. -/
def Timeline.unread (w : Timeline σ) (n : Nat) : List Int :=
  (w.requests.takeWhile (fun moment => decide (moment ≤ w.clock))).take n

theorem Timeline.unread_arrived (w : Timeline σ) (n : Nat) :
    ∀ moment ∈ w.unread n, moment ≤ w.clock := by
  intro moment hmoment
  simpa using List.mem_takeWhile_imp (List.mem_of_mem_take hmoment)

def Timeline.record (w : Timeline σ) (n : Nat) : Timeline σ :=
  { w with
    requests := w.requests.drop (w.unread n).length
    recorded := w.recorded ++ w.unread n
    ordered := w.ordered.sublist (List.drop_sublist _ _)
    arrived := by
      intro moment hmoment
      rcases List.mem_append.mp hmoment with hold | hnew
      · exact w.arrived moment hold
      · exact w.unread_arrived n moment hnew }

/-- `wait_or_peer`: whether the wait ran to its end. -/
def Timeline.sleep (w : Timeline σ) (secs : Nat) : Bool × Timeline σ :=
  match w.requests.head? with
  | none => (true, w.pass secs)
  | some moment =>
    if moment ≤ w.clock + secs then (false, w.reach moment) else (true, w.pass secs)

/-- The oldest request is read. -/
def Timeline.read (w : Timeline σ) : Timeline σ :=
  { w with requests := w.requests.tail, ordered := w.ordered.tail }

/-- `AcmeClient::next_request`. -/
def Timeline.nextRequest (w : Timeline σ) : Except AcmeChannelError Unit × Timeline σ :=
  if w.requests.isEmpty then (.error (.channel .timeout), w) else (.ok (), w.read)

/-- An effect of a round. -/
def Timeline.act {β : Type} (around : Surroundings σ) (op : AcmeOp β) (w : Timeline σ) :
    β × Timeline σ :=
  ((around.answer op w.rest).1,
    { w.pass (around.takes op w.rest) with rest := (around.answer op w.rest).2 })

def Timeline.apply (around : Surroundings σ) :
    {β : Type} → AcmeOp β → Timeline σ → β × Timeline σ
  | _, .now _, w => (w.clock, w)
  | _, .takePendingRenew, w =>
    (!w.recorded.isEmpty, { w with recorded := [], arrived := by simp })
  | _, .sleep secs, w => w.sleep secs
  | _, .nextRequest, w => w.nextRequest
  | _, .install chainPem keyPem, w =>
    let (answer, after) := w.act around (.install chainPem keyPem)
    (answer, after.record (around.records w.rest))
  | _, .loadAcme, w => w.act around .loadAcme
  | _, .renewalWindow leafDer, w => w.act around (.renewalWindow leafDer)
  | _, .issue, w => w.act around .issue

def clocked (around : Surroundings σ) : Handler AcmeOp (Timeline σ) :=
  ⟨Timeline.apply around, fun _ _ _ => False⟩

/-- The same without the requests that come after a moment. -/
def Timeline.upTo (w : Timeline σ) (moment : Int) : Timeline σ :=
  { w with
    requests := w.requests.takeWhile (fun request => decide (request ≤ moment))
    ordered := w.ordered.sublist (List.takeWhile_sublist _) }

end Timeline

/-- When the round after this turn starts, and whether it is forced. -/
def nextRound {σ : Type} (around : Surroundings σ) (readers : Readers) (waits : Nat) (s : Loop)
    (w : Timeline σ) : Option (Int × Bool) :=
  match (turn readers waits s).run (clocked around) w with
  | (.next s, w) => some (w.clock, s.force)
  | _ => none

end Detent.Source.AcmeClock
