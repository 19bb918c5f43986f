import Detent.Source.RateLimit

/-!
# Which rejections are logged

`crates/detent-web/src/auth/coalesce.rs:41-134`. Times are in nanoseconds and not
bounded, and the lock is never poisoned. A map is a list with one entry for each client;
each call goes through it in an order of its own.
-/
namespace Detent.Source.Coalescer
open Lib
open Source.RateLimit (normalizeIp saturatingSucc)

/-- `WINDOW`. -/
def window : Nat := 60000000000

/-- `MAX_CLIENTS`. -/
def maxClients : Nat := 256

/-- When a client was last logged, and its rejections since then. -/
structure Entry where
  loggedAt : Nat
  suppressed : Nat
  deriving DecidableEq, Repr

abbrev Clients := List (IpAddr × Entry)

/-- A call of `admit`, with the order in which it goes through the map. -/
structure Rejection where
  ip : IpAddr
  now : Nat
  iteration : Keyed.Iteration IpAddr Entry

def Rejection.client (rejection : Rejection) : IpAddr := normalizeIp rejection.ip

/-- A full table drops the client logged longest ago. -/
def makeRoom (clients : Clients) (rejection : Rejection) : Clients :=
  if maxClients ≤ clients.length then
    match rejection.iteration.least Entry.loggedAt clients with
    | some oldest => Keyed.erase clients oldest.1
    | none => clients
  else clients

/-- `Coalescer::admit`: how many rejections the record carries when this one is logged. -/
def admitRejection (clients : Clients) (rejection : Rejection) : Option Nat × Clients :=
  match Keyed.value clients rejection.client with
  | some entry =>
    if rejection.now - entry.loggedAt < window then
      (none, Keyed.set clients rejection.client
        { entry with suppressed := saturatingSucc entry.suppressed })
    else
      (some entry.suppressed,
        Keyed.set clients rejection.client { loggedAt := rejection.now, suppressed := 0 })
  | none =>
    (some 0, Keyed.set (makeRoom clients rejection) rejection.client
      { loggedAt := rejection.now, suppressed := 0 })

end Detent.Source.Coalescer
