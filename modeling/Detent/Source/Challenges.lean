import Detent.Lib.Prog
import Detent.Source.Propagation

/-!
# The challenges of an order

`crates/detent-acme/src/order.rs:106-205` and `328-370`, with the `DnsRecord` and the
`DnsProvider` of `lib.rs`: the dns-01 flow of an order from its creation to the
certificate, as a program over what it asks of the certificate authority, of the DNS
provider, of `publish` and of the clock.

`instant-acme` is on the other side of the effects; an order is the list of its
authorizations. An error of the client is its text. Durations are nanoseconds. The
poll of `confirm_propagated` has no bound of its own: `polls` is how many turns of it a
run may take, and `none` the run that needs more.
-/
namespace Detent.Source.Challenges
open Lib
open Source.Propagation (DnsRecord validateValue)
open Prog (perform)

/-- `OrderStatus`. -/
inductive OrderStatus where
  | pending | ready | processing | valid | invalid
  deriving DecidableEq, Repr

/-- `io::ErrorKind`, as far as the flow tells kinds apart. -/
inductive ErrorKind where
  | notFound | alreadyExists | other
  deriving DecidableEq, Repr

/-- `AcmeError`, as far as this flow and the providers make it. -/
inductive AcmeError where
  | io (kind : ErrorKind)
  | invalidFqdn (fqdn : Text)
  | invalidValue (value : Text)
  | acme (why : String)
  | noDns01Challenge
  | invalidOrder (status : OrderStatus)
  | config (why : String)
  | notPropagated (why : String)
  deriving DecidableEq, Repr

instance : DecidableEq DnsRecord := fun a b =>
  decidable_of_iff (a.fqdn = b.fqdn ∧ a.value = b.value) (by cases a; cases b; simp)

/-- `DnsRecord::new`. -/
def newRecord (fqdn value : Text) : Except AcmeError DnsRecord :=
  if named : Tsig.validateFqdn fqdn = true then
    if valued : validateValue value = true then .ok { fqdn, value, named, valued }
    else .error (.invalidValue value)
  else .error (.invalidFqdn fqdn)

/-- `AuthorizationStatus`. -/
inductive AuthorizationStatus where
  | pending | valid | invalid | revoked | expired | deactivated
  deriving DecidableEq, Repr

/-- `Identifier`; of another kind than a DNS name it is what it displays. -/
inductive Identifier where
  | dns (name : Text)
  | other (shown : Text)
  deriving DecidableEq, Repr

def Identifier.domain : Identifier → Text
  | .dns name => name
  | .other shown => shown

/-- A dns-01 challenge, with the `dns_value` of its key authorization. -/
structure Challenge where
  url : Text
  dnsValue : Text
  deriving DecidableEq, Repr

structure Authorization where
  status : AuthorizationStatus
  identifier : Identifier
  dns01 : Option Challenge
  deriving DecidableEq, Repr

/-- What `account_and_order` returns. -/
structure Placed where
  account : Text
  authorizations : List Text
  profile : Option Text
  deriving DecidableEq, Repr

structure Issued where
  chainPem : Text
  keyPem : Text
  deriving DecidableEq, Repr

/-- What the flow asks of the outside. -/
inductive OrderOp : Type → Type 1
  | accountAndOrder : OrderOp (Except AcmeError Placed)
  /-- `authorizations.next()`. -/
  | authorization (url : Text) : OrderOp (Except AcmeError Authorization)
  | present (record : DnsRecord) : OrderOp (Except AcmeError Unit)
  | publish (record : DnsRecord) : OrderOp (Except AcmeError Unit)
  | waitPropagated (record : DnsRecord) : OrderOp (Except AcmeError Unit)
  | delete (record : DnsRecord) : OrderOp (Except AcmeError Unit)
  | now : OrderOp Nat
  | sleep (duration : Nat) : OrderOp Unit
  | setReady (challenge : Challenge) : OrderOp (Except AcmeError Unit)
  | pollReady : OrderOp (Except AcmeError OrderStatus)
  | finalize : OrderOp (Except AcmeError Text)
  | pollCertificate : OrderOp (Except AcmeError Text)

/-- `PropagationWait`. -/
structure PropagationWait where
  initialDelay : Nat
  maxDelay : Nat
  timeout : Nat
  deriving DecidableEq, Repr

/-- `PropagationWait::ONCE`. -/
def PropagationWait.once : PropagationWait := { initialDelay := 0, maxDelay := 0, timeout := 0 }

def millisecond : Nat := 1000000

/-- The end of a step of the flow; `none` when the poll needs more turns. -/
abbrev Ended (α : Type) := Option (Except AcmeError α)

/-- The loop of `confirm_propagated`, from a turn with the pause `delay` on. -/
def pollPropagation (wait : PropagationWait) (record : DnsRecord) (started : Nat) :
    Nat → Nat → Prog OrderOp (Ended Unit)
  | 0, _ => pure none
  | polls + 1, delay => do
    match ← perform (.waitPropagated record) with
    | .error (.notPropagated why) =>
      let now ← perform .now
      if wait.timeout ≤ now - started + delay then pure (some (.error (.notPropagated why)))
      else
        perform (.sleep delay)
        pollPropagation wait record started polls (min (delay * 2) wait.maxDelay)
    | other => pure (some other)

def confirmPropagated (polls : Nat) (wait : PropagationWait) (record : DnsRecord) :
    Prog OrderOp (Ended Unit) := do
  let started ← perform .now
  pollPropagation wait record started polls (max wait.initialDelay millisecond)

/-- `cleanup_challenges`. -/
def cleanupChallenges : List DnsRecord → Prog OrderOp Unit
  | [] => pure ()
  | record :: rest => do
    let _ ← perform (.delete record)
    cleanupChallenges rest

section Present

variable (polls : Nat) (wait : PropagationWait)

/-- A failure before the record of a turn is out. -/
def giveUp (presented : List DnsRecord) (err : AcmeError) :
    Prog OrderOp (Ended (List DnsRecord)) := do
  cleanupChallenges presented
  pure (some (.error err))

/-- A failure once the record of a turn is out. -/
def takeBack (record : DnsRecord) (presented : List DnsRecord) (err : AcmeError) :
    Prog OrderOp (Ended (List DnsRecord)) := do
  let _ ← perform (.delete record)
  giveUp presented err

/-- A turn of `present_challenges` from the record on. -/
def presentRecord (challenge : Challenge) (record : DnsRecord) (presented : List DnsRecord) :
    Prog OrderOp (Ended (List DnsRecord)) := do
  match ← perform (.present record) with
  | .error err => giveUp presented err
  | .ok () =>
    match ← perform (.publish record) with
    | .error err => takeBack record presented err
    | .ok () =>
      match ← confirmPropagated polls wait record with
      | none => pure none
      | some (.error err) => takeBack record presented err
      | some (.ok ()) =>
        match ← perform (.setReady challenge) with
        | .error err => takeBack record presented err
        | .ok () => pure (some (.ok (presented ++ [record])))

/-- The record of a challenge: at the bare identifier, also for a wildcard. -/
def recordOf (identifier : Identifier) (challenge : Challenge) : Except AcmeError DnsRecord :=
  newRecord ("_acme-challenge.".toList ++ identifier.domain) challenge.dnsValue

/-- A turn of `present_challenges` from the authorization on. -/
def presentAuthorization (authz : Authorization) (presented : List DnsRecord) :
    Prog OrderOp (Ended (List DnsRecord)) :=
  if authz.status ≠ .pending then pure (some (.ok presented))
  else
    match authz.dns01 with
    | none => giveUp presented .noDns01Challenge
    | some challenge =>
      match recordOf authz.identifier challenge with
      | .error err => giveUp presented err
      | .ok record => presentRecord polls wait challenge record presented

/-- `present_challenges`, from the authorizations that are left. -/
def presentChallenges : List Text → List DnsRecord → Prog OrderOp (Ended (List DnsRecord))
  | [], presented => pure (some (.ok presented))
  | url :: rest, presented => do
    match ← perform (.authorization url) with
    | .error err => giveUp presented err
    | .ok authz =>
      match ← presentAuthorization polls wait authz presented with
      | some (.ok presented) => presentChallenges rest presented
      | stopped => pure stopped

end Present

def finalize : Prog OrderOp (Except AcmeError Issued) := do
  match ← perform .finalize with
  | .error err => pure (.error err)
  | .ok keyPem =>
    match ← perform .pollCertificate with
    | .error err => pure (.error err)
    | .ok chainPem => pure (.ok { chainPem, keyPem })

def finishOrder : Prog OrderOp (Except AcmeError Issued) := do
  match ← perform .pollReady with
  | .error err => pure (.error err)
  | .ok status => if status ≠ .ready then pure (.error (.invalidOrder status)) else finalize

/-- `issue`; the account and the profile are returned beside the certificate. -/
def issue (polls : Nat) (wait : PropagationWait) :
    Prog OrderOp (Ended (Issued × Text × Option Text)) := do
  match ← perform .accountAndOrder with
  | .error err => pure (some (.error err))
  | .ok placed =>
    match ← presentChallenges polls wait placed.authorizations [] with
    | none => pure none
    | some (.error err) => pure (some (.error err))
    | some (.ok records) => do
      let issued ← finishOrder
      cleanupChallenges records
      pure (some (issued.map (fun issued => (issued, placed.account, placed.profile))))

end Detent.Source.Challenges
