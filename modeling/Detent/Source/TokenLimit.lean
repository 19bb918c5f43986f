import Detent.Lib.Keyed

/-!
# The request budget of an API token

`crates/detent-web/src/auth/tokenlimit.rs:41-186`. Times are in nanoseconds and not
bounded; the products and sums of durations stay below the range of `Duration`, since
a rate and a burst have 32 bits. The lock is never poisoned. A map is a list of buckets
with one for each id; each call goes through it in an order of its own.
-/
namespace Detent.Source.TokenLimit
open Lib

/-- `MAX_TOKENS`. -/
def maxTokens : Nat := 64

/-- `TRACKED_MARGIN`. -/
def trackedMargin : Nat := 8

/-- `MAX_TRACKED_TOKENS`. -/
def maxTrackedTokens : Nat := maxTokens + trackedMargin

/-- `MINUTE`. -/
def minute : Nat := 60000000000

/-- What `check` decided. -/
inductive Admission where
  | allowed
  | limited (retryAfterSecs : Nat) (first : Bool)
  deriving DecidableEq, Repr

/-- One token's budget: when it is full again, and whether a refusal was reported since it
was. -/
structure Bucket where
  fullAt : Nat
  limited : Bool
  deriving DecidableEq, Repr

/-- The buckets, the cost of one request, and how far ahead of now a bucket may run. -/
structure TokenLimiter where
  buckets : List (String × Bucket)
  interval : Nat
  tolerance : Nat
  deriving DecidableEq, Repr

/-- `TokenLimiter::new`; a zero is treated as one. -/
def TokenLimiter.new (burst ratePerMinute : UInt32) : TokenLimiter where
  buckets := []
  interval := minute / max ratePerMinute.toNat 1
  tolerance := minute / max ratePerMinute.toNat 1 * (max burst.toNat 1 - 1)

/-- `make_room`: the full buckets go, then the one closest to full. -/
def makeRoom (buckets : List (String × Bucket)) (iteration : Keyed.Iteration String Bucket)
    (now : Nat) : List (String × Bucket) :=
  if buckets.length < maxTrackedTokens then buckets
  else
    let draining := buckets.filter (fun x => now < x.2.fullAt)
    if draining.length < maxTrackedTokens then draining
    else
      match iteration.least Bucket.fullAt draining with
      | some fullest => Keyed.erase draining fullest.1
      | none => draining

/-- `round_up_secs`. -/
def roundUpSecs (wait : Nat) : Nat :=
  wait / 1000000000 + if wait % 1000000000 > 0 then 1 else 0

/-- Charge one request to the bucket of a token. -/
def TokenLimiter.charge (limiter : TokenLimiter) (bucket : Bucket) (now : Nat) :
    Admission × Bucket :=
  -- full again: the episode, if there was one, is over
  let bucket := if bucket.fullAt ≤ now then { fullAt := now, limited := false } else bucket
  let debt := bucket.fullAt - now
  if limiter.tolerance < debt then
    (.limited (roundUpSecs (debt - limiter.tolerance)) (!bucket.limited),
      { bucket with limited := true })
  else (.allowed, { bucket with fullAt := bucket.fullAt + limiter.interval })

/-- `check`, which goes through the buckets as in `iteration`. -/
def TokenLimiter.check (limiter : TokenLimiter) (iteration : Keyed.Iteration String Bucket)
    (id : String) (now : Nat) : Admission × TokenLimiter :=
  let buckets :=
    if (Keyed.value limiter.buckets id).isSome then limiter.buckets
    else makeRoom limiter.buckets iteration now
  let bucket := (Keyed.value buckets id).getD { fullAt := now, limited := false }
  ((limiter.charge bucket now).1,
    { limiter with buckets := Keyed.set buckets id (limiter.charge bucket now).2 })

end Detent.Source.TokenLimit
