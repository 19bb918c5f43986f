import Detent.Lib.IpAddr
import Detent.Lib.Utf8
import Detent.Source.Operation
import Detent.Source.Sessions

/-!
# The cross-site guard and the caller of a request

`crates/detent-web/src/csrf.rs:43-277`, `auth/extract.rs:81-286` and
`auth/session.rs:214-220`: the decision of the guard before a handler, and the caller that
the extractor of the handler finds. Both look the session of the cookie up on their own.

What the user and the token store answer the extractor is a parameter. The records of
refused credentials are left out.
-/
namespace Detent.Source.Csrf
open Lib Lib.Text Source.Sessions

/-- The header lines of a request in the order they came. A name is in lower case. -/
abbrev HeaderMap := List (Text × ByteList)

def authorization : Text := "authorization".toList
def cookie : Text := "cookie".toList
def host : Text := "host".toList
def originName : Text := "origin".toList
/-- `CSRF_HEADER`. -/
def csrfHeader : Text := "x-detent-csrf".toList
/-- `SEC_FETCH_SITE`. -/
def secFetchSite : Text := "sec-fetch-site".toList
/-- `SAME_ORIGIN`. -/
def sameOrigin : Text := "same-origin".toList
/-- `SAME_SITE`. -/
def sameSite : Text := "same-site".toList
/-- `BEARER_SCHEME`. -/
def bearerScheme : Text := "bearer".toList
/-- `COOKIE_NAME`. -/
def cookieName : Text := "__Host-detent_session".toList

/-- `HeaderMap::get_all`. -/
def getAll (headers : HeaderMap) (name : Text) : List ByteList :=
  (headers.filter (fun line => line.1 == name)).map Prod.snd

/-- `HeaderValue::to_str`: a value of visible ASCII and tabs. -/
def toStr (value : ByteList) : Option Text :=
  if value.all (fun b => (32 ≤ b && b < 127) || b == 9) then
    some (value.map (fun b => Char.ofNat b.toNat))
  else none

/-- The one value of `name`: none when there is another. -/
def soleHeader (headers : HeaderMap) (name : Text) : Option Text :=
  match getAll headers name with
  | [first] => toStr first
  | _ => none

/-- The token of the first `Authorization` line. -/
def bearer (headers : HeaderMap) : Option Text := do
  let value ← (getAll headers authorization).head?
  let text ← toStr value
  let (scheme, token) ← splitOnceP (· == ' ') text
  if toAsciiLowercase scheme ≠ bearerScheme then none
  else
    let token := trim token
    if token.isEmpty then none else some token

/-- Whether exactly one `Authorization` line is there and carries a token. -/
def hasBearer (headers : HeaderMap) : Bool :=
  match getAll headers authorization with
  | [_] => (bearer headers).isSome
  | _ => false

/-- The session id of one pair of a `Cookie` line. -/
def cookiePair (pair : Text) : Option Text := do
  let (name, value) ← splitOnceP (· == '=') pair
  if trim name = cookieName then some (trim value) else none

/-- The session id out of a `Cookie` header. -/
def cookieValue (header : Text) : Option Text := (header.splitOn ';').findSome? cookiePair

/-- The session id carried by all `Cookie` lines, joined. -/
def cookieId (headers : HeaderMap) : Option Text :=
  cookieValue (join "; ".toList ((getAll headers cookie).filterMap toStr))

/-- The host of what follows the scheme, and the text of its port. The colons of an IPv6
literal in brackets are not the separator of the port. -/
def hostAndPort (rest : Text) : Option (Text × Option Text) :=
  match stripStart ['['] rest with
  | some after =>
    match splitOnceP (· == ']') after with
    | none => none
    | some (inside, []) => some ('[' :: toAsciiLowercase inside ++ [']'], none)
    | some (inside, other) =>
      (stripStart [':'] other).map (fun port =>
        ('[' :: toAsciiLowercase inside ++ [']'], some port))
  | none =>
    match splitOnceP (· == ':') rest with
    | some (host, port) => some (toAsciiLowercase host, some port)
    | none => some (toAsciiLowercase rest, none)

def defaultPort (scheme : Text) : Option Nat :=
  if scheme = "https".toList then some 443
  else if scheme = "http".toList then some 80
  else none

/-- A scheme, a host and a port that is not the default of the scheme, the letters in
lower case. -/
structure OriginParts where
  scheme : Text
  host : Text
  port : Option (Fin 65536)
  deriving DecidableEq, Repr

/-- `Origin::parse`, before its parts are put together. -/
def originParts (text : Text) : Option OriginParts := do
  let (scheme, found) ← splitAtMatch "://".toList text
  let rest := found.drop 3
  let scheme := toAsciiLowercase scheme
  let default ← defaultPort scheme
  if rest.isEmpty || '/' ∈ rest then none
  else
    let (host, digits) ← hostAndPort rest
    if host.isEmpty || host == "[]".toList then none
    else match digits with
      | none => some ⟨scheme, host, none⟩
      | some digits => do
        let number ← IpAddr.parseU16 digits
        some ⟨scheme, host, if number.val = default then none else some number⟩

/-- An origin, normalized for comparison. -/
structure Origin where
  normalized : Text
  deriving DecidableEq, Repr

def portText : Option (Fin 65536) → Text
  | some port => ':' :: Nat.toDigits 10 port.val
  | none => []

/-- `scheme://host[:port]`. -/
def OriginParts.normalized (parts : OriginParts) : Text :=
  parts.scheme ++ "://".toList ++ parts.host ++ portText parts.port

def Origin.parse (text : Text) : Option Origin :=
  (originParts text).map (fun parts => ⟨parts.normalized⟩)

/-- Whether a candidate names this origin. -/
def Origin.matches (origin : Origin) (candidate : Text) : Bool :=
  match Origin.parse candidate with
  | some other => other.normalized == origin.normalized
  | none => false

/-- What a refused request is answered. -/
inductive Refused where
  | csrfRejected | ambiguousCredentials
  | auth (error : AuthError)
  deriving DecidableEq, Repr

/-- The parts of a request that the guard and the extractor read. -/
structure Request where
  method : Text
  /-- The authority of the request's URI. -/
  authority : Option Text
  headers : HeaderMap
  deriving DecidableEq, Repr

def safeMethods : List Text := ["GET".toList, "HEAD".toList, "OPTIONS".toList]

/-- `ok_or(AuthError::CsrfRejected)`. -/
def orRejected {α : Type} : Option α → Except Refused α
  | some a => .ok a
  | none => .error .csrfRejected

/-- The authority of the URI or of the `Host` line, when only one of them is there. -/
def requestAuthority (request : Request) : Option Text :=
  match request.authority, soleHeader request.headers host with
  | some authority, none => some authority
  | none, some authority => some authority
  | _, _ => none

/-- The checks of a request with a live session. -/
def judge (request : Request) (session : Session) : Except Refused Unit := do
  let site ← orRejected (soleHeader request.headers secFetchSite)
  if site ≠ sameOrigin ∧ site ≠ sameSite then .error .csrfRejected
  else
    let authority ← orRejected (requestAuthority request)
    let origin ← orRejected (soleHeader request.headers originName)
    let expected ← orRejected (Origin.parse ("https://".toList ++ authority))
    if !expected.matches origin then .error .csrfRejected
    else
      let token ← orRejected (soleHeader request.headers csrfHeader)
      if session.csrfToken ≠ String.ofList token then .error .csrfRejected else .ok ()

variable [Sha256]

/-- The decision of the guard, and the table after its lookup. -/
def verdict (store : SessionStore) (request : Request) (now : Instant) :
    Except Refused Unit × SessionStore :=
  if request.method ∈ safeMethods then (.ok (), store)
  else if hasBearer request.headers then (.ok (), store)
  else
    match (getAll request.headers cookie).findSome? (fun value => (toStr value).bind cookieValue) with
    | none => (.ok (), store)
    | some presented =>
      match store.lookup (String.ofList presented) now with
      | (none, store) => (.ok (), store)
      | (some session, store) => (judge request session, store)

/-- What the user and the token store answer. -/
structure Stores where
  /-- `users.refresh`: the users whose sessions it ends. -/
  refresh : Except AuthError (List String)
  /-- `tokens.authenticate` and the request budget of the token: its id and scopes. -/
  authenticate : Text → Except AuthError (String × Scopes)

/-- Who is making a request, and what they may do. -/
structure Caller where
  identity : Identity
  scopes : Scopes
  session : Option Session
  sessionId : Option Text
  deriving DecidableEq, Repr

/-- `Caller::resolve_from`. -/
def Caller.resolve (stores : Stores) (store : SessionStore) (headers : HeaderMap) (now : Instant) :
    Except Refused Caller × SessionStore :=
  match cookieId headers, bearer headers with
  | some _, some _ => (.error .ambiguousCredentials, store)
  | some id, none =>
    match stores.refresh with
    | .error err => (.error (.auth err), store)
    | .ok changed =>
      match (changed.foldl SessionStore.revokeSubject store).lookup (String.ofList id) now with
      | (none, store) => (.error (.auth .unauthenticated), store)
      | (some session, store) =>
        (.ok ⟨⟨session.subject, .session⟩, session.scopes, some session, some id⟩, store)
  | none, some token =>
    match stores.authenticate token with
    | .error .unknownToken => (.error (.auth .unauthenticated), store)
    | .error err => (.error (.auth err), store)
    | .ok (id, scopes) => (.ok ⟨⟨"token:" ++ id, .token⟩, scopes, none, none⟩, store)
  | none, none => (.error (.auth .unauthenticated), store)

end Detent.Source.Csrf
