import Detent.Source.Sha256

/-!
# The session table

`crates/detent-web/src/auth/session.rs:193-230,258-613`. The table is a list of
entries with one entry for each key. Instants and durations are in nanoseconds,
and fresh random values come with the call, `none` when the system has no
entropy. A poisoned lock does not occur: no operation panics while it holds it.
-/
namespace Detent.Source.Sessions

variable [Sha256]

/-- A point of the monotonic clock, and a span of it. -/
abbrev Instant := Nat

/-- `Duration::as_secs`. -/
def asSecs (span : Nat) : Nat := span / 1000000000

/-- A bearer string (`Secret`). -/
abbrev Secret := String

/-- The scopes a caller holds; reading is always one of them. -/
structure Scopes where
  write : Bool
  deriving DecidableEq, Repr

/-- `MIN_SECRET_BYTES`: the shortest key `TotpSecret::from_base32` takes. -/
def minSecretBytes : Nat := 16

/-- A shared key of the second factor. A generated one has twenty bytes. -/
structure TotpSecret where
  bytes : Bytes
  long : minSecretBytes ≤ bytes.length
  deriving DecidableEq, Repr

/-- `AuthError`, as far as the modelled functions answer it, without the texts. -/
inductive AuthError where
  | sessionLimit | entropy
  | userExists | unknownUser | unknownToken | tokenLimit
  | storeRead | storeMalformed | storeWrite
  | invalidCredentials | totpReplayed | totpSecretInvalid
  | totpEnrolled | totpNotEnrolled | totpNoPending | totpRequired
  | passwordUnchanged | unauthenticated
  | rateLimited | busy | passwordTooShort | passwordTooLong | passwordChangeRequired
  /-- The refusal of an extractor for a caller without the write scope. -/
  | scopeDenied
  deriving DecidableEq, Repr

/-- `PENDING_TOTP_TTL`: ten minutes. -/
def pendingTotpTtl : Nat := 600000000000

/-- One authenticated browser session. -/
structure Session where
  subject : String
  scopes : Scopes
  csrfToken : Secret
  created : Instant
  lastSeen : Instant
  totpSatisfied : Bool
  mustChangePassword : Bool
  handle : String
  stepUp : Option Instant
  deriving DecidableEq, Repr

/-- One stored session, the id it is reached by and the key it is enrolling. -/
structure Entry where
  id : Secret
  session : Session
  pendingTotp : Option (TotpSecret × Instant)
  deriving DecidableEq, Repr

/-- The map of the table. -/
abbrev Entries := List (Sha256Digest × Entry)

def Entries.get (entries : Entries) (key : Sha256Digest) : Option Entry :=
  (entries.find? (fun x => x.1 = key)).map Prod.snd

def Entries.remove (entries : Entries) (key : Sha256Digest) : Entries :=
  entries.filter (fun x => x.1 ≠ key)

/-- `HashMap::insert`, and an assignment through `get_mut`. -/
def Entries.put (entries : Entries) (key : Sha256Digest) (entry : Entry) : Entries :=
  (key, entry) :: entries.remove key

def Entries.retain (entries : Entries) (keep : Entry → Bool) : Entries :=
  entries.filter (fun x => keep x.2)

structure SessionStore where
  entries : Entries
  idle : Nat
  absolute : Nat
  capacity : Nat
  deriving Repr

/-- `SessionStore::with_capacity`. -/
def SessionStore.withCapacity (idle absolute capacity : Nat) : SessionStore :=
  { entries := [], idle, absolute, capacity := max capacity 1 }

/-- The random values of a new session. -/
structure Fresh where
  id : Secret
  csrfToken : Secret
  handle : String
  deriving DecidableEq, Repr

/-- The digest of a presented id, which is what the map is keyed on. -/
def keyOf (presented : String) : Sha256Digest := Sha256.of presented.toUTF8.toList

/-- Whether `session` has passed either limit. -/
def expired (session : Session) (idle absolute : Nat) (now : Instant) : Bool :=
  now - session.lastSeen ≥ idle || now - session.created ≥ absolute

namespace SessionStore

/-- Remove every expired entry. -/
def evictExpired (store : SessionStore) (now : Instant) : SessionStore :=
  { store with
    entries := store.entries.retain (fun e => !expired e.session store.idle store.absolute now) }

def put (store : SessionStore) (id : Secret) (entry : Entry) : SessionStore :=
  { store with entries := store.entries.put (keyOf id) entry }

def remove (store : SessionStore) (id : Secret) : SessionStore :=
  { store with entries := store.entries.remove (keyOf id) }

/-- Establish a session and return the id the cookie carries. -/
def create (store : SessionStore) (subject : String) (scopes : Scopes) (totpSatisfied : Bool)
    (now : Instant) (fresh : Option Fresh) : Except AuthError (Secret × Session) × SessionStore :=
  match fresh with
  | none => (.error .entropy, store)
  | some fresh =>
    let session : Session :=
      { subject, scopes, csrfToken := fresh.csrfToken, created := now, lastSeen := now,
        totpSatisfied, mustChangePassword := false, handle := fresh.handle, stepUp := none }
    let store := store.evictExpired now
    if store.entries.length ≥ store.capacity then (.error .sessionLimit, store)
    else (.ok (fresh.id, session), store.put fresh.id { id := fresh.id, session, pendingTotp := none })

/-- The session `presented` names, if it is live; an expired one is removed. -/
def lookup (store : SessionStore) (presented : String) (now : Instant) :
    Option Session × SessionStore :=
  match store.entries.get (keyOf presented) with
  | none => (none, store)
  | some entry =>
    if entry.id ≠ presented then (none, store)
    else if expired entry.session store.idle store.absolute now then
      (none, store.remove presented)
    else
      let session := { entry.session with lastSeen := now }
      (some session, store.put presented { entry with session })

/-- Replace the id and the CSRF token of a live session of `subject`. -/
def rotate (store : SessionStore) (presented subject : String) (scopes : Option Scopes)
    (totpSatisfied : Option Bool) (now : Instant) (fresh : Option Fresh) :
    Except AuthError (Option (Secret × Session)) × SessionStore :=
  match fresh with
  | none => (.error .entropy, store)
  | some fresh =>
    match store.entries.get (keyOf presented) with
    | none => (.ok none, store)
    | some old =>
      let store := store.remove presented
      if old.id ≠ presented || expired old.session store.idle store.absolute now then
        (.ok none, store)
      else if old.session.subject ≠ subject then (.ok none, store)
      else
        let session : Session :=
          { subject := old.session.subject
            scopes := scopes.getD old.session.scopes
            csrfToken := fresh.csrfToken
            created := old.session.created
            lastSeen := now
            totpSatisfied := totpSatisfied.getD old.session.totpSatisfied
            mustChangePassword := false
            handle := fresh.handle
            stepUp := none }
        (.ok (some (fresh.id, session)),
          store.put fresh.id { id := fresh.id, session, pendingTotp := none })

def retain (store : SessionStore) (keep : Entry → Bool) : SessionStore :=
  { store with entries := store.entries.retain keep }

/-- Invalidate every session belonging to `subject`. -/
def revokeSubject (store : SessionStore) (subject : String) : SessionStore :=
  store.retain (fun e => e.session.subject ≠ subject)

/-- End the session of `subject` that `handle` names. -/
def revokeHandle (store : SessionStore) (subject handle : String) : Bool × SessionStore :=
  let kept := store.retain (fun e => !(e.session.handle = handle && e.session.subject = subject))
  (store.entries.length != kept.entries.length, kept)

/-- End every session of `subject` except the one `keep` names. -/
def revokeOthers (store : SessionStore) (subject keep : String) : Nat × SessionStore :=
  let kept := store.retain (fun e => e.session.subject ≠ subject || e.session.handle = keep)
  (store.entries.length - kept.entries.length, kept)

/-- Invalidate a session. -/
def logout (store : SessionStore) (presented : String) : Bool × SessionStore :=
  match store.entries.get (keyOf presented) with
  | some entry => if entry.id = presented then (true, store.remove presented) else (false, store)
  | none => (false, store)

/-- Drop every expired session. -/
def sweep (store : SessionStore) (now : Instant) : Nat × SessionStore :=
  let kept := store.evictExpired now
  (store.entries.length - kept.entries.length, kept)

/-- How long `session` has left, idle and absolute limits combined. -/
def expiresIn (store : SessionStore) (session : Session) (now : Instant) : Nat :=
  min (store.idle - (now - session.lastSeen)) (store.absolute - (now - session.created))

/-- Record that the session `presented` names stepped up at `now`. -/
def stepUp (store : SessionStore) (presented : String) (now : Instant) : Bool × SessionStore :=
  match store.entries.get (keyOf presented) with
  | none => (false, store)
  | some entry =>
    if entry.id ≠ presented then (false, store)
    else if expired entry.session store.idle store.absolute now then
      (false, store.remove presented)
    else
      (true, store.put presented
        { entry with session := { entry.session with stepUp := some now } })

/-- Restrict the session `presented` names to changing its password. -/
def restrict (store : SessionStore) (presented : String) : Option Session × SessionStore :=
  match store.entries.get (keyOf presented) with
  | none => (none, store)
  | some entry =>
    if entry.id ≠ presented then (none, store)
    else
      let session := { entry.session with mustChangePassword := true }
      (some session, store.put presented { entry with session })

/-- Keep `secret` as the key the session `presented` names is enrolling. -/
def setPendingTotp (store : SessionStore) (presented : String) (secret : TotpSecret)
    (now : Instant) : Bool × SessionStore :=
  match store.entries.get (keyOf presented) with
  | none => (false, store)
  | some entry =>
    if entry.id ≠ presented then (false, store)
    else (true, store.put presented { entry with pendingTotp := some (secret, now) })

/-- The key the session `presented` names is enrolling; an expired one is dropped. -/
def pendingTotp (store : SessionStore) (presented : String) (now : Instant) :
    Option TotpSecret × SessionStore :=
  match store.entries.get (keyOf presented) with
  | none => (none, store)
  | some entry =>
    if entry.id ≠ presented then (none, store)
    else
      match entry.pendingTotp with
      | none => (none, store)
      | some (secret, started) =>
        if now - started ≥ pendingTotpTtl then
          (none, store.put presented { entry with pendingTotp := none })
        else (some secret, store)

/-- Remove the pending key of the session `presented` names. -/
def takePendingTotp (store : SessionStore) (presented : String) : Bool × SessionStore :=
  match store.entries.get (keyOf presented) with
  | none => (false, store)
  | some entry =>
    if entry.id ≠ presented then (false, store)
    else (entry.pendingTotp.isSome, store.put presented { entry with pendingTotp := none })

end SessionStore

/-- One entry of the session list. -/
structure SessionSummary where
  handle : String
  createdUnixS : Int
  lastSeenUnixS : Int
  expiresInSecs : Nat
  totpSatisfied : Bool
  current : Bool
  deriving DecidableEq, Repr

/-- `i64::MAX`. -/
def i64Max : Int := 9223372036854775807

/-- `instant` as Unix seconds, given that `now` is `nowUnix`. -/
def unixOf (instant now : Instant) (nowUnix : Int) : Int :=
  max (-i64Max - 1) (nowUnix - min (asSecs (now - instant) : Int) i64Max)

/-- Newest first, then by handle. -/
def SessionSummary.le (a b : SessionSummary) : Bool :=
  b.createdUnixS < a.createdUnixS || (a.createdUnixS = b.createdUnixS && a.handle ≤ b.handle)

/-- The live sessions of `subject`, newest first. -/
def SessionStore.list (store : SessionStore) (subject current : String) (now : Instant)
    (nowUnix : Int) : List SessionSummary × SessionStore :=
  let store := store.evictExpired now
  let own := store.entries.filter (fun x => x.2.session.subject = subject)
  let listed := own.map fun (_, entry) =>
    ({ handle := entry.session.handle
       createdUnixS := unixOf entry.session.created now nowUnix
       lastSeenUnixS := unixOf entry.session.lastSeen now nowUnix
       expiresInSecs := asSecs (store.expiresIn entry.session now)
       totpSatisfied := entry.session.totpSatisfied
       current := entry.session.handle = current } : SessionSummary)
  (listed.mergeSort SessionSummary.le, store)

/-- The operations of the table. -/
inductive Call where
  | create (subject : String) (scopes : Scopes) (totpSatisfied : Bool) (now : Instant)
      (fresh : Option Fresh)
  | lookup (presented : String) (now : Instant)
  | rotate (presented subject : String) (scopes : Option Scopes) (totpSatisfied : Option Bool)
      (now : Instant) (fresh : Option Fresh)
  | stepUp (presented : String) (now : Instant)
  | restrict (presented : String)
  | setPendingTotp (presented : String) (secret : TotpSecret) (now : Instant)
  | pendingTotp (presented : String) (now : Instant)
  | takePendingTotp (presented : String)
  | revokeSubject (subject : String)
  | revokeHandle (subject handle : String)
  | revokeOthers (subject keep : String)
  | logout (presented : String)
  | list (subject current : String) (now : Instant) (nowUnix : Int)
  | sweep (now : Instant)
  deriving DecidableEq, Repr

/-- What an operation answers. -/
inductive Answer where
  | created (result : Except AuthError (Secret × Session))
  | session (found : Option Session)
  | rotated (result : Except AuthError (Option (Secret × Session)))
  | done (flag : Bool)
  | key (pending : Option TotpSecret)
  | removed (count : Nat)
  | listed (sessions : List SessionSummary)
  | nothing

/-- Perform one call. -/
def SessionStore.perform (store : SessionStore) : Call → Answer × SessionStore
  | .create subject scopes totp now fresh =>
    (store.create subject scopes totp now fresh).map .created id
  | .lookup presented now => (store.lookup presented now).map .session id
  | .rotate presented subject scopes totp now fresh =>
    (store.rotate presented subject scopes totp now fresh).map .rotated id
  | .stepUp presented now => (store.stepUp presented now).map .done id
  | .restrict presented => (store.restrict presented).map .session id
  | .setPendingTotp presented secret now =>
    (store.setPendingTotp presented secret now).map .done id
  | .pendingTotp presented now => (store.pendingTotp presented now).map .key id
  | .takePendingTotp presented => (store.takePendingTotp presented).map .done id
  | .revokeSubject subject => (.nothing, store.revokeSubject subject)
  | .revokeHandle subject handle => (store.revokeHandle subject handle).map .done id
  | .revokeOthers subject keep => (store.revokeOthers subject keep).map .removed id
  | .logout presented => (store.logout presented).map .done id
  | .list subject current now nowUnix => (store.list subject current now nowUnix).map .listed id
  | .sweep now => (store.sweep now).map .removed id

end Detent.Source.Sessions
