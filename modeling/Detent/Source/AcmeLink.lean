import Detent.Source.Acme

/-!
# The renewal loop on its channel

`crates/detent-platform/src/privsep/acme.rs:182-245,343-389` and
`crates/detent/src/acme.rs:132-144,688-725`: the channel as two queues, the worker that
follows `serve_on` and may ask for a renewal or close at any time, and the effects of
`run_loop` on them through `AcmeClient`.

Each message of the acme process has a number, and an answer carries the number of the
message it answers; the code has neither. `log` records what happens; nothing reads it.
A failed send puts nothing on the channel. A receive takes the oldest unread message,
or fails as the environment says; with nothing left to receive it times out.
-/
namespace Detent.Source.AcmeLink
open Lib Source.Client Source.AcmeChannel Source.Acme

/-- A message of the worker, with the number of the message it answers. -/
structure Sent where
  message : WorkerMessage
  answers : Option Nat
  deriving DecidableEq, Repr

inductive Happening where
  | answered (number : Nat) (answer : WorkerMessage)
  | installEnded (number : Nat) (result : Except AcmeChannelError Unit)
  | requestEnded (result : Except AcmeChannelError Unit)
  | renewRead
  | roundStarted (force : Bool)
  deriving DecidableEq, Repr

/-- The channel and the worker. -/
structure Link where
  toWorker : List (Nat × AcmeMessage)
  toAcme : List Sent
  sent : Nat
  greeted : Bool
  closed : Bool
  log : List Happening
  deriving DecidableEq, Repr

def Link.record (l : Link) (event : Happening) : Link := { l with log := l.log ++ [event] }

/-- What the worker does next: read one message, ask for a renewal, or stop. -/
inductive Move where
  | serve (installed : Except String Unit)
  | renewNow
  | close
  deriving DecidableEq, Repr

def Link.move (l : Link) (m : Move) : Link :=
  if l.closed then l
  else
    match m with
    | .serve installed =>
      match l.toWorker with
      | [] => l
      | (number, message) :: rest =>
        let (greeted, served) := serveOn l.greeted installed message
        { l with
          toWorker := rest
          toAcme := l.toAcme ++ [⟨served.answer, some number⟩]
          greeted := greeted
          closed := served.stop.isSome
          log := l.log ++ [.answered number served.answer] }
    | .renewNow => { l with toAcme := l.toAcme ++ [⟨.renewNow, none⟩] }
    | .close => { l with closed := true }

/-- What a receive of the acme process finds after the worker's moves: the oldest
message, or a failure. -/
structure Receive where
  moves : List Move
  failure : Option ChannelError
  deriving DecidableEq, Repr

/-- `Channel::recv` of the acme process. -/
def Link.recv (l : Link) (r : Receive) : Except ChannelError WorkerMessage × Link :=
  let l := r.moves.foldl Link.move l
  match r.failure with
  | some err => (.error err, l)
  | none =>
    match l.toAcme with
    | [] => (.error (if l.closed then .closed else .timeout), l)
    | sent :: rest =>
      let l := { l with toAcme := rest }
      (.ok sent.message, if sent.message = .renewNow then l.record .renewRead else l)

/-- The next of the receives to come; when there is none, it times out. -/
def Link.recvFirst (l : Link) : List Receive → Except ChannelError WorkerMessage × Link
  | [] => (.error .timeout, l)
  | r :: _ => l.recv r

/-- `Channel::send` of the acme process. -/
def Link.send (l : Link) (failure : Option ChannelError) (message : AcmeMessage) :
    Except ChannelError Unit × Link :=
  match failure with
  | some err => (.error err, { l with sent := l.sent + 1 })
  | none => (.ok (), { l with toWorker := l.toWorker ++ [(l.sent, message)], sent := l.sent + 1 })

/-- The channel while a call uses it, with the receives still to come. -/
structure Exchange where
  link : Link
  failure : Option ChannelError
  receives : List Receive

def Exchange.apply : {β : Type} → ChannelOp β → Exchange → β × Exchange
  | _, .send message, x =>
    ((x.link.send x.failure message).1, { x with link := (x.link.send x.failure message).2 })
  | _, .recv, x =>
    ((x.link.recvFirst x.receives).1,
      { x with link := (x.link.recvFirst x.receives).2, receives := x.receives.tail })

def exchange : Handler ChannelOp Exchange := ⟨Exchange.apply, fun _ _ _ => False⟩

/-- What the environment does during one effect of the loop. -/
structure Surroundings where
  clock : Int
  loaded : Except String (Option (List UInt8))
  window : Option Window
  issued : Except String Issued
  sendFailure : Option ChannelError
  receives : List Receive
  woken : Bool

/-- The loop's view of the world: the channel, `pending_renew` and the effects so far. -/
structure World where
  link : Link
  pendingRenew : Bool
  effects : Nat
  deriving DecidableEq, Repr

/-- A call of `AcmeClient` and how the channel is left. A call ends with its receives. -/
def World.call (w : World) (around : Surroundings) (message : AcmeMessage) :
    Except AcmeChannelError WorkerMessage × World :=
  let ran := (AcmeChannel.call (around.receives.length + 1) message w.pendingRenew).run exchange
    ⟨w.link, around.sendFailure, around.receives⟩
  (ran.1.1.getD (.error (.channel .timeout)),
    { link := ran.2.link, pendingRenew := ran.1.2, effects := w.effects + 1 })

/-- `AcmeClient::next_request`. -/
def World.request (w : World) (around : Surroundings) : Except AcmeChannelError Unit × World :=
  let received := w.link.recvFirst around.receives
  (nextRequest received.1,
    { w with link := received.2.record (.requestEnded (nextRequest received.1))
             effects := w.effects + 1 })

/-- A wait: the worker moves meanwhile; the wait is cut short only where the channel is
readable. -/
def World.wait (w : World) (around : Surroundings) : Bool × World :=
  let link := (around.receives.flatMap Receive.moves).foldl Link.move w.link
  let readable := !link.toAcme.isEmpty || link.closed
  (!(around.woken && readable), { w with link := link, effects := w.effects + 1 })

def World.apply (around : Nat → Surroundings) : {β : Type} → AcmeOp β → World → β × World
  | _, .now (.roundStart force), w =>
    ((around w.effects).clock,
      { w with link := w.link.record (.roundStarted force), effects := w.effects + 1 })
  | _, .now .backoff, w => ((around w.effects).clock, { w with effects := w.effects + 1 })
  | _, .loadAcme, w => ((around w.effects).loaded, { w with effects := w.effects + 1 })
  | _, .renewalWindow _, w => ((around w.effects).window, { w with effects := w.effects + 1 })
  | _, .issue, w => ((around w.effects).issued, { w with effects := w.effects + 1 })
  | _, .install chainPem keyPem, w =>
    let (answer, after) := w.call (around w.effects) (.install chainPem keyPem)
    (installResult answer,
      { after with link := after.link.record (.installEnded w.link.sent (installResult answer)) })
  | _, .takePendingRenew, w =>
    (w.pendingRenew, { w with pendingRenew := false, effects := w.effects + 1 })
  | _, .nextRequest, w => w.request (around w.effects)
  | _, .sleep _, w => w.wait (around w.effects)

def world (around : Nat → Surroundings) : Handler AcmeOp World :=
  ⟨World.apply around, fun _ _ _ => False⟩

/-- A fresh channel. -/
def World.new : World := ⟨⟨[], [], 0, false, false, []⟩, false, 0⟩

/-- `acme_main` up to its end: the greeting, and the loop when the worker accepted it. -/
def acmeMain (readers : Readers) (around : Nat → Surroundings) (waits bound : Nat) :
    Option (Flow Loop × World) :=
  let (answer, greeted) := World.new.call (around 0) (.hello acmeProtoVersion)
  match helloResult answer with
  | .error _ => none
  | .ok () => some ((runLoop readers waits bound).run (world around) greeted)

end Detent.Source.AcmeLink
