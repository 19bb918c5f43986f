import Detent.Lib.Base64
import Detent.Source.AcmeChannel

/-!
# The renewal loop of the acme process

`crates/detent-acme/src/schedule.rs:24-105`, `order.rs:480-497` and
`crates/detent/src/acme.rs:52-72,105-181,317-613`: when a certificate is due, one
renewal round, and the loop around it. The CA, the files of `cert_dir`, the channel,
the clock and the waits are effects.

Times are Unix seconds, clamped to 64 bits where the source saturates. The reader of
an X.509 certificate is outside the repository: `Readers` holds it. The loops end when
their bounds do, so a run of any length is a prefix of the source's. Log lines are
left out, and with them the percentage of an outcome and the warnings about expiry.
-/
namespace Detent.Source.Acme
open Lib Source.Client Source.AcmeChannel

def clampI64 (n : Int) : Int := max (-9223372036854775808) (min n 9223372036854775807)

def saturatingSub (a b : Int) : Int := clampI64 (a - b)

def saturatingAdd (a b : Int) : Int := clampI64 (a + b)

/-- An ARI window: its start and its end. -/
abbrev Window := Int × Int

def percentUsed (notBefore notAfter now : Int) : Int :=
  if notAfter ≤ notBefore then 100
  else
    let elapsed := max (saturatingSub now notBefore) 0
    let total := notAfter - notBefore
    max 0 (min (elapsed * 100 / total) 100)

def shouldRenewInWindow (notBefore notAfter now : Int) (window : Option Window) : Bool :=
  let used := percentUsed notBefore notAfter now
  match window with
  | none => decide (66 ≤ used)
  | some (start, _) => decide (start ≤ now) || decide (66 ≤ used)

def dueAt (notBefore notAfter : Int) (window : Option Window) : Int :=
  if notAfter ≤ notBefore then -9223372036854775808
  else
    let lifetime := notAfter - notBefore
    let twoThirdsOffset := min ((lifetime * 66 + 99) / 100) 9223372036854775807
    let twoThirds := saturatingAdd notBefore twoThirdsOffset
    match window with
    | some (start, _) => min start twoThirds
    | none => twoThirds

/-- `leaf_validity_der` of a leaf: `x509_parser` and the two times of its validity. -/
structure Readers where
  leafValidityDer : List UInt8 → Option (Int × Int)

/-- `str::split` at a non-empty pattern; `fuel` bounds the pieces. -/
def splitText (pattern : Text) : Nat → Text → List Text
  | 0, t => [t]
  | fuel + 1, t =>
    match Text.splitAtMatch pattern t with
    | none => [t]
    | some (before, rest) => before :: splitText pattern fuel (rest.drop pattern.length)

def pemBlock (chainPem : String) : Option (List UInt8) := do
  let chain := chainPem.toList
  let block ← (splitText "-----END CERTIFICATE-----".toList chain.length chain).find?
    (Text.contains "BEGIN CERTIFICATE".toList)
  let body := ((Text.lines block).filter (fun line => !Text.startsWith "-----".toList line)).flatten
  Base64.decode body

def Readers.leafValidityPem (readers : Readers) (chainPem : String) : Option (Int × Int) :=
  (pemBlock chainPem).bind readers.leafValidityDer

/-- `CHECK_INTERVAL`. -/
def checkInterval : Nat := 3600
/-- `FIRST_RETRY`. -/
def firstRetry : Nat := 60
/-- `MAX_RETRY`. -/
def maxRetry : Nat := checkInterval
/-- `MIN_CHECK_INTERVAL`. -/
def minCheckInterval : Nat := firstRetry
/-- `MIN_FORCED_INTERVAL`. -/
def minForcedInterval : Nat := 3600

/-- `Issued`. -/
structure Issued where
  chainPem : String
  keyPem : String
  deriving DecidableEq, Repr

/-- The two places where the loop reads the clock. -/
inductive Reading where
  | roundStart (force : Bool)
  | backoff
  deriving DecidableEq, Repr

/-- The seams of the loop: `Issuer`, `Installer`, `load_acme`, `now` and `sleep`. A
wait answers whether it ran to its end. -/
inductive AcmeOp : Type → Type 1
  | now (at_ : Reading) : AcmeOp Int
  | loadAcme : AcmeOp (Except String (Option (List UInt8)))
  | renewalWindow (leafDer : List UInt8) : AcmeOp (Option Window)
  | issue : AcmeOp (Except String Issued)
  | install (chainPem keyPem : String) : AcmeOp (Except AcmeChannelError Unit)
  | takePendingRenew : AcmeOp Bool
  | nextRequest : AcmeOp (Except AcmeChannelError Unit)
  | sleep (secs : Nat) : AcmeOp Bool

inductive Outcome where
  | renewed (notBefore notAfter : Int)
  | notDue (notBefore notAfter : Int) (window : Option Window)
  deriving DecidableEq, Repr

/-- `Held`: an issued pair that is not installed yet. -/
structure Held where
  chainPem : String
  key : String
  notBefore : Int
  notAfter : Int
  deriving DecidableEq, Repr

inductive RenewError where
  | load (reason : String)
  | issue (reason : String)
  | chain
  | install (err : AcmeChannelError)
  deriving DecidableEq, Repr

/-- What a round keeps for the next: `held` and `last_order`. -/
structure Kept where
  held : Option Held
  lastOrder : Option Int
  deriving DecidableEq, Repr

def forcedOrderAllowed (now : Int) : Option Int → Bool
  | none => true
  | some last => decide ((minForcedInterval : Int) ≤ saturatingSub now last)

def nextCheck (now notBefore notAfter : Int) (window : Option Window) : Nat :=
  let untilDue := max (saturatingSub (dueAt notBefore notAfter window) now) 0
  (max (min untilDue checkInterval) minCheckInterval).toNat

def install (pair : Held) (kept : Kept) : Prog AcmeOp (Except RenewError Outcome × Kept) := do
  match ← Prog.perform (.install pair.chainPem pair.key) with
  | .ok () => pure (.ok (.renewed pair.notBefore pair.notAfter), kept)
  | .error err => pure (.error (.install err), { kept with held := some pair })

/-- The end of `renew_once`: order a certificate and install it. -/
def order (readers : Readers) (now : Int) (kept : Kept) :
    Prog AcmeOp (Except RenewError Outcome × Kept) := do
  match ← Prog.perform .issue with
  | .error err => pure (.error (.issue err), kept)
  | .ok issued =>
    let kept := { kept with lastOrder := some now }
    match readers.leafValidityPem issued.chainPem with
    | none => pure (.error .chain, kept)
    | some (notBefore, notAfter) =>
      install ⟨issued.chainPem, issued.keyPem, notBefore, notAfter⟩ kept

def renewOnce (readers : Readers) (now : Int) (served : Option (List UInt8)) (force : Bool)
    (kept : Kept) : Prog AcmeOp (Except RenewError Outcome × Kept) :=
  match served with
  | none => order readers now kept
  | some leafDer =>
    match readers.leafValidityDer leafDer with
    | none => order readers now kept
    | some (notBefore, notAfter) =>
      if force && forcedOrderAllowed now kept.lastOrder then order readers now kept
      else do
        let window ← Prog.perform (.renewalWindow leafDer)
        if shouldRenewInWindow notBefore notAfter now window then order readers now kept
        else pure (.ok (.notDue notBefore notAfter window), kept)

/-- The part of `round` after the held pair: read the served pair, then renew. -/
def loadAndRenew (readers : Readers) (now : Int) (force : Bool) (kept : Kept) :
    Prog AcmeOp (Except RenewError Outcome × Kept) := do
  match ← Prog.perform .loadAcme with
  | .error err => pure (.error (.load err), kept)
  | .ok served => renewOnce readers now served force kept

def round (readers : Readers) (now : Int) (force : Bool) (kept : Kept) :
    Prog AcmeOp (Except RenewError Outcome × Kept) :=
  match kept.held with
  | none => loadAndRenew readers now force kept
  | some pair =>
    if now ≤ pair.notAfter then install pair { kept with held := none }
    else loadAndRenew readers now force { kept with held := none }

def successDelay (now : Int) : Outcome → Nat
  | .renewed notBefore notAfter => nextCheck now notBefore notAfter none
  | .notDue notBefore notAfter window => nextCheck now notBefore notAfter window

/-- Where a loop is: at its next turn, returned, or still in a backoff wait. -/
inductive Flow (α : Type) where
  | next (a : α)
  | returned
  | waiting
  deriving DecidableEq, Repr

/-- The variables of `run_loop`. -/
structure Loop where
  retry : Nat
  kept : Kept
  force : Bool
  deriving DecidableEq, Repr

/-- The wait after a failure, until `deadline`; `waits` bounds its turns. -/
def backoff (deadline : Int) : Nat → Nat → Bool → Prog AcmeOp (Flow Bool)
  | 0, _, _ => pure .waiting
  | waits + 1, wait, renewSeen => do
    if ← Prog.perform (.sleep wait) then pure (.next renewSeen)
    else
      match ← Prog.perform .nextRequest with
      | .error _ => pure .returned
      | .ok () =>
        let now ← Prog.perform (.now .backoff)
        backoff deadline waits (max (saturatingSub deadline now) 0).toNat true

/-- What follows a round that started at `startedAt` and ended with `result`. -/
def afterRound (waits : Nat) (startedAt : Int) (result : Except RenewError Outcome) (kept : Kept)
    (retry : Nat) (force : Bool) : Prog AcmeOp (Flow Loop) :=
  match result with
  | .ok outcome =>
    if force then pure (.next ⟨firstRetry, kept, force⟩)
    else do
      if ← Prog.perform (.sleep (successDelay startedAt outcome)) then
        pure (.next ⟨firstRetry, kept, force⟩)
      else
        match ← Prog.perform .nextRequest with
        | .ok () => pure (.next ⟨firstRetry, kept, true⟩)
        | .error _ => pure .returned
  | .error (.install (.channel .closed)) => pure .returned
  | .error _ => do
    match ← backoff (saturatingAdd startedAt retry) waits retry force with
    | .next renewSeen => pure (.next ⟨min (retry * 2) maxRetry, kept, renewSeen⟩)
    | .returned => pure .returned
    | .waiting => pure .waiting

/-- One turn of `run_loop`. -/
def turn (readers : Readers) (waits : Nat) (s : Loop) : Prog AcmeOp (Flow Loop) := do
  let startedAt ← Prog.perform (.now (.roundStart s.force))
  let (result, kept) ← round readers startedAt s.force s.kept
  let force ← Prog.perform .takePendingRenew
  afterRound waits startedAt result kept s.retry force

def turns (readers : Readers) (waits : Nat) : Nat → Loop → Prog AcmeOp (Flow Loop)
  | 0, s => pure (.next s)
  | bound + 1, s => do
    match ← turn readers waits s with
    | .next s => turns readers waits bound s
    | .returned => pure .returned
    | .waiting => pure .waiting

def runLoop (readers : Readers) (waits bound : Nat) : Prog AcmeOp (Flow Loop) := do
  let force ← Prog.perform .takePendingRenew
  turns readers waits bound ⟨firstRetry, ⟨none, none⟩, force⟩

end Detent.Source.Acme
