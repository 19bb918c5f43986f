import Detent.Lib.Prog
import Detent.Source.Credentials

/-!
# Requests on an account

`UserStore` of `crates/detent-web/src/auth/users.rs:351-610`, the password change and the
login of `crates/detent-web/src/auth/routes.rs:486-663`, the step-up of
`crates/detent-web/src/auth/stepup.rs:118-194` and the enrolment of
`crates/detent-web/src/auth/enrolment.rs:325-502` as programs whose effects are the
acquisitions of a store's lock. Passwords are verified and hashed between two effects.
What the rate limiter, the limits of a body, the hashing cap and the header checks answer
comes with a request, and so do its clock readings and its random values. File operations
succeed. Audit records are left out.
-/
namespace Detent.Source.Accounts
open Lib Source.Sessions Source.Credentials

variable [Sha256]

/-- `Hasher`: a hash is accepted with exactly the password it was made of. -/
structure Hasher where
  hash : (password salt : String) → String
  verify : (password phc : String) → Bool
  needsRehash : (phc : String) → Bool
  verify_hash : ∀ password other salt, verify password (hash other salt) = decide (password = other)

/-- `TotpSecret::code_at`. -/
abbrev CodeAt := TotpSecret → Nat → String

/-- `STEP_SECS`. -/
def stepSecs : Nat := 30

/-- `WINDOW_STEPS`. -/
def windowSteps : Nat := 1

/-- The counters whose codes are accepted at `unixSecs`. -/
def window (unixSecs : Nat) : List Nat :=
  (List.range (windowSteps * 2 + 1)).map (fun offset => unixSecs / stepSecs - windowSteps + offset)

/-- `TotpSecret::verify`: the last counter of the window whose code it is and that is
later than `lastCounter`. -/
def verifyCode (codeAt : CodeAt) (secret : TotpSecret) (code : String) (unixSecs : Nat)
    (lastCounter : Option Nat) : Option Nat :=
  ((window unixSecs).filter (fun counter =>
    codeAt secret counter = code && lastCounter.all (fun last => counter > last))).getLast?

/-- `TotpSecret::check`. -/
def checkCode (codeAt : CodeAt) (secret : TotpSecret) (code : String) (unixSecs : Nat)
    (lastCounter : Option Nat) : Except AuthError Nat :=
  match verifyCode codeAt secret code unixSecs lastCounter with
  | some counter => .ok counter
  | none =>
    if (window unixSecs).any (fun counter => codeAt secret counter = code) then
      .error .totpReplayed
    else .error .invalidCredentials

/-- The contents of `users.json`, the records in memory and the session table. -/
structure Stores where
  file : List UserRecord
  users : List UserRecord
  sessions : SessionStore

/-- An acquisition of a store's lock. `record` is a look at the records in memory. -/
inductive StoreOp : Type → Type 1 where
  | refresh : StoreOp (Except AuthError Unit)
  | record (name : String) : StoreOp (Option UserRecord)
  | mutate (change : UserChange) : StoreOp (Except AuthError Unit)
  | lookup (presented : String) (now : Instant) : StoreOp (Option Session)
  | create (subject : String) (scopes : Scopes) (totpSatisfied : Bool) (now : Instant)
      (fresh : Option Fresh) : StoreOp (Except AuthError (Secret × Session))
  | rotate (presented subject : String) (scopes : Option Scopes) (totpSatisfied : Option Bool)
      (now : Instant) (fresh : Option Fresh) : StoreOp (Except AuthError (Option (Secret × Session)))
  | restrict (presented : String) : StoreOp (Option Session)
  | revokeSubject (subject : String) : StoreOp Unit
  | stepUp (presented : String) (now : Instant) : StoreOp Bool
  | setPendingTotp (presented : String) (secret : TotpSecret) (now : Instant) : StoreOp Bool
  | pendingTotp (presented : String) (now : Instant) : StoreOp (Option TotpSecret)
  | takePendingTotp (presented : String) : StoreOp Bool
  /-- The answer of the request leaves. -/
  | respond : StoreOp Unit

/-- The record the store uses for `name`. -/
def find (name : String) (users : List UserRecord) : Option UserRecord :=
  users.find? (fun record => record.name = name)

/-- `UserStore::credentials`, of one user. -/
def credentials (record : UserRecord) : String × Option StoredKey := (record.phc, record.totpSecret)

/-- Whether a refresh that goes from `before` to `after` ends the sessions of `name`. -/
def replaced (before after : List UserRecord) (name : String) : Bool :=
  match find name before with
  | none => false
  | some old =>
    match find name after with
    | none => true
    | some new => credentials new ≠ credentials old

/-- `refresh_locked_with_sessions`. -/
def Stores.refresh (s : Stores) : Stores :=
  { s with
    users := s.file
    sessions := (s.users.map (·.name)).foldl (fun sessions name =>
      if replaced s.users s.file name then sessions.revokeSubject name else sessions) s.sessions }

/-- `UserStore::mutate`. -/
def Stores.mutate (s : Stores) (change : UserChange) : Except AuthError Unit × Stores :=
  let s := s.refresh
  match change.apply s.users with
  | .error err => (.error err, s)
  | .ok users => (.ok (), { s with file := users, users })

def Stores.onSessions {β : Type} (s : Stores) (done : β × SessionStore) : β × Stores :=
  (done.1, { s with sessions := done.2 })

/-- What an acquisition gives and leaves behind. -/
def Stores.perform (s : Stores) : {β : Type} → StoreOp β → β × Stores
  | _, .refresh => (.ok (), s.refresh)
  | _, .record name => (find name s.users, s)
  | _, .mutate change => s.mutate change
  | _, .lookup presented now => s.onSessions (s.sessions.lookup presented now)
  | _, .create subject scopes totp now fresh =>
    s.onSessions (s.sessions.create subject scopes totp now fresh)
  | _, .rotate presented subject scopes totp now fresh =>
    s.onSessions (s.sessions.rotate presented subject scopes totp now fresh)
  | _, .restrict presented => s.onSessions (s.sessions.restrict presented)
  | _, .revokeSubject subject => s.onSessions ((), s.sessions.revokeSubject subject)
  | _, .stepUp presented now => s.onSessions (s.sessions.stepUp presented now)
  | _, .setPendingTotp presented secret now =>
    s.onSessions (s.sessions.setPendingTotp presented secret now)
  | _, .pendingTotp presented now => s.onSessions (s.sessions.pendingTotp presented now)
  | _, .takePendingTotp presented => s.onSessions (s.sessions.takePendingTotp presented)
  | _, .respond => ((), s)

/-- A request, or a part of one. -/
abbrev AccountM := ExceptT AuthError (Prog StoreOp)

/-- An acquisition whose error ends the request. -/
def attempt {α : Type} (op : StoreOp (Except AuthError α)) : AccountM α :=
  ExceptT.mk (Prog.perform op)

/-- A successful password verification. -/
structure VerifiedUser where
  name : String
  totp : Option TotpSecret
  totpLastCounter : Option Nat
  mustChangePassword : Bool
  deriving DecidableEq, Repr

variable (hasher : Hasher)

/-- `UserStore::verify_password`; `salt` and `now` are for a rehash. -/
def verifyPassword (name password salt now : String) : AccountM VerifiedUser := do
  attempt .refresh
  match ← Fallible.perform (.record name) with
  | none => throw .invalidCredentials
  | some record =>
    if !hasher.verify password record.phc then throw .invalidCredentials
    else do
      if hasher.needsRehash record.phc then
        attempt (.mutate (.rehash record.name record.phc (hasher.hash password salt) now))
      match record.totpSecret with
      | some (.unreadable _) => throw .totpSecretInvalid
      | some (.key secret) =>
        pure { name := record.name, totp := some secret, totpLastCounter := record.totpLastCounter
               mustChangePassword := record.mustChangePassword }
      | none =>
        pure { name := record.name, totp := none, totpLastCounter := record.totpLastCounter
               mustChangePassword := record.mustChangePassword }

/-- `UserStore::set_password`. -/
def setPassword (name password salt now : String) : AccountM Unit :=
  attempt (.mutate (.setPassword name password (hasher.hash password salt) now))

/-- `UserStore::set_totp`. -/
def setTotp (name : String) (secret : Option TotpSecret) (now : String) : AccountM Unit :=
  attempt (.mutate (.setTotp name secret now))

/-- `UserStore::note_totp_counter` of a code of `secret`. -/
def noteTotpCounter (name : String) (secret : TotpSecret) (counter : Nat) (now : String) :
    AccountM Unit :=
  attempt (.mutate (.noteTotpCounter name secret counter now))

/-- What comes with a request: what the checks before the stores answer, its clock
readings and its random values. -/
structure Ambient where
  admitted : Except AuthError Unit
  salt : String
  nowText : String
  unixSecs : Nat
  now : Instant
  fresh : Option Fresh
  freshAgain : Option Fresh
  deriving DecidableEq

/-- `Scopes::read_write`. -/
def readWrite : Scopes := { write := true }

variable (codeAt : CodeAt) (totpRequired : Bool) (ambient : Ambient)

/-- `check_totp`. -/
def checkTotp (verified : VerifiedUser) (code : Option String) : AccountM Bool :=
  match verified.totp with
  | none => if totpRequired then throw .invalidCredentials else pure false
  | some secret =>
    match code with
    | none => throw .invalidCredentials
    | some code => do
      let counter ← ExceptT.mk (pure
        (checkCode codeAt secret code ambient.unixSecs verified.totpLastCounter))
      noteTotpCounter verified.name secret counter ambient.nowText
      pure true

/-- The session of `attempt`: one of the user that was presented goes on under a new id. -/
def establish (verified : VerifiedUser) (totpSatisfied : Bool) (presented : Option String) :
    AccountM Secret := do
  let rotated ← match presented with
    | some presented =>
      attempt (.rotate presented verified.name (some readWrite) (some totpSatisfied) ambient.now
        ambient.fresh)
    | none => pure none
  match rotated with
  | some (id, _) => pure id
  | none => do
    let (id, _) ← attempt (.create verified.name readWrite totpSatisfied ambient.now
      ambient.freshAgain)
    pure id

/-- `attempt`: one login. -/
def login (name password : String) (code presented : Option String) : AccountM Secret := do
  ExceptT.mk (pure ambient.admitted)
  let verified ← verifyPassword hasher name password ambient.salt ambient.nowText
  let totpSatisfied ← checkTotp codeAt totpRequired ambient verified code
  let id ← establish ambient verified totpSatisfied presented
  if verified.mustChangePassword then do
    let _ ← Fallible.perform (.restrict id)
    pure id
  else pure id

/-- The caller of a cookie. `Caller::resolve_from`. -/
def callerOf (presented : String) : AccountM Session := do
  attempt .refresh
  match ← Fallible.perform (.lookup presented ambient.now) with
  | none => throw .unauthenticated
  | some session => pure session

/-- `WriteCaller`: a session that owes no password change and may write. -/
def writeCallerOf (presented : String) : AccountM Session := do
  let session ← callerOf ambient presented
  if session.mustChangePassword then throw .passwordChangeRequired
  else if !session.scopes.write then throw .scopeDenied
  else pure session

/-- `renew_session`. -/
def renewSession (subject : String) (totpSatisfied : Bool) : AccountM Secret := do
  Fallible.perform (.revokeSubject subject)
  let (id, _) ← attempt (.create subject readWrite totpSatisfied ambient.now ambient.fresh)
  pure id

/-- `change_password` and `replace_password`; `salt'` is that of the new hash. -/
def changePassword (presented current new salt' : String) : AccountM Secret := do
  let session ← callerOf ambient presented
  ExceptT.mk (pure ambient.admitted)
  let _ ← verifyPassword hasher session.subject current ambient.salt ambient.nowText
  if current = new then throw .passwordUnchanged
  else do
    setPassword hasher session.subject new salt' ambient.nowText
    renewSession ambient session.subject session.totpSatisfied

/-- `enrol` and `start_enrolment` of a generated key. -/
def startEnrolment (presented password : String) (secret : TotpSecret) : AccountM Unit := do
  let session ← writeCallerOf ambient presented
  ExceptT.mk (pure ambient.admitted)
  let verified ← verifyPassword hasher session.subject password ambient.salt ambient.nowText
  if verified.totp.isSome then throw .totpEnrolled
  else
    if ← Fallible.perform (.setPendingTotp presented secret ambient.now) then pure ()
    else throw .unauthenticated

/-- `confirm` and `confirm_enrolment`. -/
def confirmEnrolment (presented code : String) : AccountM Secret := do
  let session ← writeCallerOf ambient presented
  ExceptT.mk (pure ambient.admitted)
  attempt .refresh
  let record ← Fallible.perform (.record session.subject)
  if record.any (fun r => r.totpSecret.isSome) then throw .totpEnrolled
  else
    match ← Fallible.perform (.pendingTotp presented ambient.now) with
    | none => throw .totpNoPending
    | some secret => do
      let counter ← ExceptT.mk (pure (checkCode codeAt secret code ambient.unixSecs none))
      if ← Fallible.perform (.takePendingTotp presented) then do
        setTotp session.subject (some secret) ambient.nowText
        noteTotpCounter session.subject secret counter ambient.nowText
        renewSession ambient session.subject true
      else throw .totpNoPending

/-- `disable` and `turn_off`. -/
def turnOff (presented password code : String) : AccountM Secret := do
  let session ← writeCallerOf ambient presented
  ExceptT.mk (pure ambient.admitted)
  if totpRequired then throw .totpRequired
  else do
    let verified ← verifyPassword hasher session.subject password ambient.salt ambient.nowText
    match verified.totp with
    | none => throw .totpNotEnrolled
    | some secret => do
      let counter ← ExceptT.mk (pure
        (checkCode codeAt secret code ambient.unixSecs verified.totpLastCounter))
      noteTotpCounter session.subject secret counter ambient.nowText
      setTotp session.subject none ambient.nowText
      renewSession ambient session.subject false

/-- `reauth`. -/
def reauth (presented password : String) (code : Option String) : AccountM Unit := do
  let session ← writeCallerOf ambient presented
  ExceptT.mk (pure ambient.admitted)
  let verified ← verifyPassword hasher session.subject password ambient.salt ambient.nowText
  let _ ← checkTotp codeAt totpRequired ambient verified code
  if ← Fallible.perform (.stepUp presented ambient.now) then pure ()
  else throw .unauthenticated

/-- The requests on accounts. -/
inductive Request where
  | login (name password : String) (code presented : Option String) (ambient : Ambient)
  | changePassword (presented current new salt : String) (ambient : Ambient)
  | startEnrolment (presented password : String) (secret : TotpSecret) (ambient : Ambient)
  | confirmEnrolment (presented code : String) (ambient : Ambient)
  | turnOff (presented password code : String) (ambient : Ambient)
  | reauth (presented password : String) (code : Option String) (ambient : Ambient)
  deriving DecidableEq

/-- What a handler does for a request; the new session's id, if it gives one. -/
def Request.body : Request → AccountM (Option Secret)
  | .login name password code presented ambient =>
    some <$> Accounts.login hasher codeAt totpRequired ambient name password code presented
  | .changePassword presented current new salt ambient =>
    some <$> Accounts.changePassword hasher ambient presented current new salt
  | .startEnrolment presented password secret ambient => do
    Accounts.startEnrolment hasher ambient presented password secret
    pure none
  | .confirmEnrolment presented code ambient =>
    some <$> Accounts.confirmEnrolment codeAt ambient presented code
  | .turnOff presented password code ambient =>
    some <$> Accounts.turnOff hasher codeAt totpRequired ambient presented password code
  | .reauth presented password code ambient => do
    Accounts.reauth hasher codeAt totpRequired ambient presented password code
    pure none

/-- A request and its answer. -/
def Request.program (request : Request) : Prog StoreOp (Except AuthError (Option Secret)) := do
  let answer ← (request.body hasher codeAt totpRequired).run
  Prog.perform .respond
  pure answer

end Detent.Source.Accounts
