import Detent.Source.Sessions

/-!
# The credential files

`crates/detent-web/src/auth/users.rs:153-180,260-610` and
`crates/detent-web/src/auth/token.rs:91-110,200-461`. The two stores differ in their
records and changes and share `load`, `refresh` and `mutate`, here one process at the
granularity of its file operations. A version of a file is named by its fingerprint,
and `reading` says what reading and decoding that version gives; so equal fingerprints
mean equal contents. `confine_state_dir` and the mode of the file are left out, and
the lock serializes the operations of one process.
-/
namespace Detent.Source.Credentials
open Source.Sessions

/-- What `TotpSecret::from_base32` makes of a stored text. -/
inductive StoredKey where
  | key (secret : TotpSecret)
  | unreadable (text : String)
  deriving DecidableEq, Repr

/-- One user, as stored. -/
structure UserRecord where
  name : String
  phc : String
  totpSecret : Option StoredKey
  totpLastCounter : Option Nat
  mustChangePassword : Bool
  created : String
  updated : String
  deriving DecidableEq, Repr

/-- The changes a user store makes, with the values their closures capture. -/
inductive UserChange where
  | create (name phc : String) (mustChangePassword : Bool) (now : String)
  /-- The rehash inside `verify_password` of the hash `checked`. -/
  | rehash (name checked phc now : String)
  | setPassword (name password phc now : String)
  | setTotp (name : String) (secret : Option TotpSecret) (now : String)
  /-- The counter of a code of `secret`. -/
  | noteTotpCounter (name : String) (secret : TotpSecret) (counter : Nat) (now : String)
  | remove (name : String)
  deriving DecidableEq, Repr

/-- Change the first record of `name`. -/
def modifyNamed (name : String) (change : UserRecord → Except AuthError UserRecord) :
    List UserRecord → Except AuthError (List UserRecord)
  | [] => .error .unknownUser
  | record :: rest =>
    if record.name = name then do
      let changed ← change record
      pure (changed :: rest)
    else do
      let rest ← modifyNamed name change rest
      pure (record :: rest)

/-- `UserStore::update`: apply `change` to one named record. -/
def update (name now : String) (change : UserRecord → UserRecord) (users : List UserRecord) :
    Except AuthError (List UserRecord) :=
  modifyNamed name (fun record => .ok { change record with updated := now }) users

/-- What a change does to the records. -/
def UserChange.apply : UserChange → List UserRecord → Except AuthError (List UserRecord)
  | .create name phc mustChangePassword now, users =>
    if users.any (fun record => record.name = name) then .error .userExists
    else .ok (users ++ [{ name, phc, totpSecret := none, totpLastCounter := none,
                          mustChangePassword, created := now, updated := now }])
  | .rehash name _ phc now, users => update name now (fun record => { record with phc }) users
  | .setPassword name _ phc now, users =>
    update name now (fun record => { record with phc, mustChangePassword := false }) users
  | .setTotp name secret now, users =>
    update name now (fun record =>
      { record with totpSecret := secret.map .key, totpLastCounter := none }) users
  | .noteTotpCounter name _ counter now, users =>
    modifyNamed name (fun record =>
      if record.totpLastCounter.any (fun last => last ≥ counter) then .error .invalidCredentials
      else .ok { record with totpLastCounter := some counter, updated := now }) users
  | .remove name, users =>
    let kept := users.filter (fun record => record.name ≠ name)
    if kept.length = users.length then .error .unknownUser else .ok kept

/-- One API token, as stored. -/
structure TokenRecord where
  id : String
  label : String
  digest : Sha256Digest
  scope : Scopes
  created : String
  expiresAt : Option Int
  deriving DecidableEq, Repr

/-- `MAX_TOKENS`. -/
def maxTokens : Nat := 64

/-- The changes a token store makes. -/
inductive TokenChange where
  | issue (record : TokenRecord)
  | revoke (id : String)
  | sweepExpired (nowUnix : Int)
  deriving DecidableEq, Repr

def TokenChange.apply : TokenChange → List TokenRecord → Except AuthError (List TokenRecord)
  | .issue record, tokens =>
    if tokens.length ≥ maxTokens then .error .tokenLimit else .ok (tokens ++ [record])
  | .revoke id, tokens =>
    let kept := tokens.filter (fun record => record.id ≠ id)
    if kept.length = tokens.length then .error .unknownToken else .ok kept
  | .sweepExpired nowUnix, tokens =>
    .ok (tokens.filter (fun record => record.expiresAt.all (fun deadline => nowUnix < deadline)))

/-- A token that has just authenticated. -/
structure TokenIdentity where
  id : String
  label : String
  scopes : Scopes
  deriving DecidableEq, Repr

/-- `TokenStore::authenticate` on the records in memory: of several records with the
digest the last one counts, and an expired one is unknown. -/
def authenticate [Sha256] (tokens : List TokenRecord) (presented : String) (nowUnix : Int) :
    Except AuthError TokenIdentity :=
  match (tokens.filter (fun record => record.digest = keyOf presented)).getLast? with
  | none => .error .unknownToken
  | some record =>
    if record.expiresAt.any (fun deadline => nowUnix ≥ deadline) then .error .unknownToken
    else .ok { id := record.id, label := record.label, scopes := record.scope }

/-- A kind of store: what a change does to its records, and what the versions of its
file hold. -/
structure Kind (ρ χ : Type) where
  apply : χ → List ρ → Except AuthError (List ρ)
  reading : Nat → Except AuthError (List ρ)

/-- The user store. -/
def usersKind (reading : Nat → Except AuthError (List UserRecord)) : Kind UserRecord UserChange :=
  { apply := UserChange.apply, reading }

/-- The token store. -/
def tokensKind (reading : Nat → Except AuthError (List TokenRecord)) :
    Kind TokenRecord TokenChange :=
  { apply := TokenChange.apply, reading }

/-- A version of the file, by its fingerprint; `none` when there is no file. -/
abbrev Version := Option Nat

variable {ρ χ : Type}

/-- The records of a version of the file; a missing file holds none. -/
def Kind.recordsOf (kind : Kind ρ χ) : Version → Except AuthError (List ρ)
  | none => .ok []
  | some fp => kind.reading fp

/-- Where a process stands with the operation that holds its lock: `loading` has read
the file and not its fingerprint yet, `refreshing` has found the fingerprint `cur` and
reads, `writing` has the candidate of a change, and `written` has put it in place and
not asked for its fingerprint yet. -/
inductive Phase (ρ χ : Type) where
  | unloaded
  | loading (records : List ρ)
  | idle
  | refreshing (cur : Version) (change : Option χ)
  | writing (change : χ) (candidate : List ρ)
  | written (change : χ) (candidate : List ρ)
  deriving DecidableEq

/-- The records in memory, the fingerprint they go with, and the operation. -/
structure Proc (ρ χ : Type) where
  records : List ρ
  fp : Version
  phase : Phase ρ χ
  deriving DecidableEq

/-- A file operation of a process. -/
inductive FileEvent (χ : Type) where
  | loadRead
  | loadStat
  /-- A `refresh`, or a `mutate` with a change, begins: its first `stat`. -/
  | call (change : Option χ)
  | read
  /-- The rename of the new file, whose fingerprint is given. -/
  | write (fp : Nat)
  /-- The second `stat` of a `mutate`. -/
  | stat
  /-- The current file operation fails; after a rename `assigned` says that the records
  in memory were already replaced. -/
  | fail (assigned : Bool)
  deriving DecidableEq

/-- A call that returned: `none` is a `refresh`, `some change` a `mutate`. -/
structure Returned (χ : Type) where
  call : Option χ
  ok : Bool
  deriving DecidableEq, Repr

/-- The rest of a call whose records are fresh. -/
def Kind.proceed (kind : Kind ρ χ) (p : Proc ρ χ) : Option χ → Proc ρ χ × Option (Returned χ)
  | none => ({ p with phase := .idle }, some { call := none, ok := true })
  | some change =>
    match kind.apply change p.records with
    | .error _ => ({ p with phase := .idle }, some { call := some change, ok := false })
    | .ok candidate => ({ p with phase := .writing change candidate }, none)

/-- One file operation: the file after it, the process and the call that returned. -/
def Kind.step [DecidableEq ρ] (kind : Kind ρ χ) (file : Version) (p : Proc ρ χ) :
    FileEvent χ → Option (Version × Proc ρ χ × Option (Returned χ))
  | .loadRead =>
    match p.phase, file with
    | .unloaded, none => some (file, { records := [], fp := none, phase := .idle }, none)
    | .unloaded, some fp =>
      match kind.reading fp with
      | .ok records => some (file, { p with phase := .loading records }, none)
      | .error _ => some (file, p, none)
    | _, _ => none
  | .loadStat =>
    match p.phase with
    | .loading records => some (file, { records, fp := file, phase := .idle }, none)
    | _ => none
  | .call change =>
    match p.phase with
    | .idle =>
      if file = p.fp then some (file, kind.proceed p change)
      else some (file, { p with phase := .refreshing file change }, none)
    | _ => none
  | .read =>
    match p.phase with
    | .refreshing cur change =>
      match kind.recordsOf file with
      | .error _ => some (file, { p with phase := .idle }, some { call := change, ok := false })
      | .ok records => some (file, kind.proceed { p with records, fp := cur } change)
    | _ => none
  | .write fp =>
    match p.phase with
    | .writing change candidate =>
      match kind.reading fp with
      | .ok records =>
        if records = candidate then some (some fp, { p with phase := .written change candidate }, none)
        else none
      | .error _ => none
    | _ => none
  | .stat =>
    match p.phase with
    | .written change candidate =>
      some (file, { records := candidate, fp := file, phase := .idle },
        some { call := some change, ok := true })
    | _ => none
  | .fail assigned =>
    match p.phase with
    | .loading _ => some (file, { p with phase := .unloaded }, none)
    | .refreshing _ change => some (file, { p with phase := .idle }, some { call := change, ok := false })
    | .writing change _ =>
      some (file, { p with phase := .idle }, some { call := some change, ok := false })
    | .written change candidate =>
      some (file, { p with records := if assigned then candidate else p.records, phase := .idle },
        some { call := some change, ok := false })
    | _ => none

end Detent.Source.Credentials
