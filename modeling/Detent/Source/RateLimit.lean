import Detent.Lib.IpAddr
import Detent.Lib.Keyed

/-!
# The login limiter and the hashing permits

`crates/detent-web/src/auth/ratelimit.rs:40-330` and the part of
`crates/detent-web/src/auth/routes.rs:560-591,665-722` that a login with a wrong
password goes through: the check and the permit, the verification, and the count of
the failure. Durations are in nanoseconds, counters saturate at 32 bits, and a lock
is never poisoned. A map is a list of buckets with one for each key; `make_room`
goes through it in an order of its own, which its callers take as an argument.
-/
namespace Detent.Source.RateLimit
open Lib

/-- The address a bucket is kept for: IPv6 is masked to its /64. -/
def normalizeIp : IpAddr → IpAddr
  | .v4 addr => .v4 addr
  | .v6 addr =>
    .v6 { segments := addr.segments.take 4 ++ List.replicate 4 0
          eight := by simp [addr.eight] }

/-- `u32::saturating_add(1)`. -/
def saturatingSucc (n : Nat) : Nat := min (n + 1) 4294967295

/-- `BASE_BACKOFF`. -/
def baseBackoff : Nat := 2000000000

/-- `MAX_BACKOFF`. -/
def maxBackoff : Nat := 900000000000

/-- `BUCKET_TTL`. -/
def bucketTtl : Nat := 3600000000000

/-- `MAX_TRACKED`. -/
def maxTracked : Nat := 4096

/-- One principal's failure count and lockout deadline. -/
structure Bucket where
  failures : Nat
  blockedUntil : Option Nat
  lastSeen : Nat
  deriving DecidableEq, Repr

/-- A bounded map of buckets. -/
structure Buckets (κ : Type) where
  map : List (κ × Bucket)
  cap : Nat
  deriving Repr

/-- The backoff after `beyond` failures past the threshold. -/
def backoffFor (beyond : Nat) : Nat :=
  -- `checked_pow` of a 32-bit two
  if beyond - 1 < 32 then min (baseBackoff * 2 ^ (beyond - 1)) maxBackoff else maxBackoff

namespace Buckets

variable {κ : Type} [DecidableEq κ]

def get (buckets : Buckets κ) (key : κ) : Option Bucket := Keyed.value buckets.map key

def put (buckets : Buckets κ) (key : κ) (bucket : Bucket) : Buckets κ :=
  { buckets with map := Keyed.set buckets.map key bucket }

/-- Seconds `key` must still wait, rounded up, if it is locked out. -/
def retryAfter (buckets : Buckets κ) (key : κ) (now : Nat) : Option Nat :=
  match buckets.get key with
  | none => none
  | some bucket =>
    match bucket.blockedUntil with
    | none => none
    | some deadline =>
      if deadline - now = 0 then none
      else some ((deadline - now) / 1000000000 +
        if (deadline - now) % 1000000000 > 0 then 1 else 0)

/-- Forget everything about `key`. -/
def clear (buckets : Buckets κ) (key : κ) : Buckets κ :=
  { buckets with map := Keyed.erase buckets.map key }

/-- Drop the buckets that have not been touched for `bucketTtl`. -/
def sweep (buckets : Buckets κ) (now : Nat) : Buckets κ :=
  { buckets with map := buckets.map.filter (fun x => now - x.2.lastSeen < bucketTtl) }

/-- Make sure one more entry fits: evict the bucket that was seen least recently, if sweeping is
not enough. -/
def makeRoom (buckets : Buckets κ) (iteration : Keyed.Iteration κ Bucket) (now : Nat) : Buckets κ :=
  if buckets.map.length < buckets.cap then buckets
  else
    let swept := buckets.sweep now
    if swept.map.length < swept.cap then swept
    else
      match iteration.least Bucket.lastSeen swept.map with
      | some oldest => { swept with map := Keyed.erase swept.map oldest.1 }
      | none => swept

/-- Count one failure; whether it started or extended a lockout. -/
def fail (buckets : Buckets κ) (iteration : Keyed.Iteration κ Bucket) (key : κ)
    (maxFailures now : Nat) : Bool × Buckets κ :=
  let buckets := buckets.makeRoom iteration now
  let bucket := (buckets.get key).getD { failures := 0, blockedUntil := none, lastSeen := now }
  let failures := saturatingSucc bucket.failures
  let beyond := saturatingSucc failures - maxFailures
  if beyond = 0 then (false, buckets.put key { bucket with failures, lastSeen := now })
  else
    (true, buckets.put key
      { failures, blockedUntil := some (now + backoffFor beyond), lastSeen := now })

end Buckets

/-- Which of the two buckets a lockout was about. -/
inductive Principal where
  | ip (address : IpAddr)
  | user (name : String)
  deriving DecidableEq, Repr

/-- Per-address and per-user login throttling. -/
structure RateLimiter where
  ips : Buckets IpAddr
  users : Buckets String
  maxFailures : Nat

/-- `RateLimiter::new`; a configured zero is treated as one. -/
def RateLimiter.new (maxFailures : Nat) : RateLimiter :=
  { ips := { map := [], cap := maxTracked }
    users := { map := [], cap := maxTracked }
    maxFailures := max maxFailures 1 }

/-- The errors of a login attempt that matter to the limiter. -/
inductive LoginError where
  | rateLimited (retryAfterSecs : Nat)
  | invalidCredentials
  | busy
  deriving DecidableEq, Repr

namespace RateLimiter

/-- `Option::max`. -/
def later : Option Nat → Option Nat → Option Nat
  | none, b => b
  | a, none => a
  | some a, some b => some (max a b)

/-- Whether this attempt may proceed. -/
def check (limiter : RateLimiter) (ip : IpAddr) (user : String) (now : Nat) :
    Except LoginError Unit :=
  match later (limiter.ips.retryAfter (normalizeIp ip) now) (limiter.users.retryAfter user now) with
  | some secs => .error (.rateLimited secs)
  | none => .ok ()

/-- Count one failed attempt; the principals it locked out. -/
def recordFailure (limiter : RateLimiter) (ips : Keyed.Iteration IpAddr Bucket)
    (users : Keyed.Iteration String Bucket) (ip : IpAddr) (user : String) (now : Nat) :
    List Principal × RateLimiter :=
  let byIp := limiter.ips.fail ips (normalizeIp ip) limiter.maxFailures now
  let byUser := limiter.users.fail users user limiter.maxFailures now
  ((if byIp.1 then [.ip (normalizeIp ip)] else []) ++ (if byUser.1 then [.user user] else []),
    { limiter with ips := byIp.2, users := byUser.2 })

end RateLimiter

/-- Where a login request stands: its password is being verified, or it has failed and
the failure is not counted yet. -/
inductive Phase where
  | verifying | failed
  deriving DecidableEq, Repr

/-- A login request that has not been answered yet. -/
structure Attempt where
  ip : IpAddr
  subject : String
  now : Nat
  phase : Phase
  deriving DecidableEq, Repr

/-- The limiter, the free hashing permits and the requests. `started` is a history:
the subjects of the verifications started so far. No step reads it. -/
structure LoginState where
  limiter : RateLimiter
  permits : Nat
  attempts : List Attempt
  started : List String

/-- `attempt` up to the verification: the check, the limits on the request's fields and
the permit. -/
def LoginState.admit (s : LoginState) (ip : IpAddr) (subject : String) (withinLimits : Bool)
    (now : Nat) : Except LoginError LoginState := do
  s.limiter.check ip subject now
  if !withinLimits then throw .invalidCredentials
  match s.permits with
  | 0 => throw .busy
  | permits + 1 =>
    pure { s with permits, attempts := s.attempts ++ [{ ip, subject, now, phase := .verifying }],
                  started := s.started ++ [subject] }

/-- `audit_failure` of a credential failure, for the limiter. -/
def LoginState.auditFailure (s : LoginState) (ips : Keyed.Iteration IpAddr Bucket)
    (users : Keyed.Iteration String Bucket) (a : Attempt) : LoginState :=
  { s with limiter := (s.limiter.recordFailure ips users a.ip a.subject a.now).2 }

/-- What happens to a login request with a wrong password. -/
inductive LoginEvent where
  | arrive (ip : IpAddr) (subject : String) (withinLimits : Bool) (now : Nat)
  /-- The verification of the request at this place ends and its permit is free. -/
  | verified (place : Nat)
  /-- The failure of the request at this place is counted; the tables are gone through in these
  orders. -/
  | recorded (place : Nat) (ips : Keyed.Iteration IpAddr Bucket)
      (users : Keyed.Iteration String Bucket)

/-- One step of the requests. A refusal that is no credential failure is not counted. -/
def LoginState.step (s : LoginState) : LoginEvent → Option LoginState
  | .arrive ip subject withinLimits now =>
    match s.admit ip subject withinLimits now with
    | .ok s' => some s'
    | .error .invalidCredentials =>
      some { s with attempts := s.attempts ++ [{ ip, subject, now, phase := .failed }] }
    | .error _ => some s
  | .verified place =>
    match s.attempts[place]? with
    | some a =>
      if a.phase = .verifying then
        some { s with permits := s.permits + 1
                      attempts := s.attempts.set place { a with phase := .failed } }
      else none
    | none => none
  | .recorded place ips users =>
    match s.attempts[place]? with
    | some a =>
      if a.phase = .failed then
        some { s.auditFailure ips users a with attempts := s.attempts.eraseIdx place }
      else none
    | none => none

/-- A limiter without failures, and `permits` hashing permits. -/
def LoginState.initial (maxFailures permits : Nat) : LoginState :=
  { limiter := .new maxFailures, permits, attempts := [], started := [] }

end Detent.Source.RateLimit
