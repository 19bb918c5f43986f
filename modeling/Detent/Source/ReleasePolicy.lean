import Mathlib.Order.Lattice
import Detent.Lib.Text

/-!
# Release selection

`crates/detent-update/src/policy.rs` and the `check` of `update.rs:21-51,221-301`: which
release an update run acts on, and the report of `detent update --check`.

The versions of the `semver` crate are any linear order, with its parser and its display
as parameters; instants are nanoseconds, and so is the display of one. The list that
GitHub gives, and why it may fail, is a parameter of `check`.
-/
namespace Detent.Source.ReleasePolicy
open Lib

/-- `SECURITY_MARKER`. -/
def securityMarker : Text := "detent-security: true".toList

/-- `PolicyError`. -/
inductive PolicyError where
  | noUpdate
  | downgradeRefused (candidate current : Text)
  | tooYoung (tag : Text) (minAgeDays : Nat)
  | badTag (tag : Text)
  deriving DecidableEq, Repr

/-- `Policy`. -/
structure Policy where
  minAgeDays : Nat
  allowDowngrade : Bool
  deriving DecidableEq, Repr

/-- `Candidate`. -/
structure Candidate where
  tag : Text
  published : Option Int
  body : Text
  deriving DecidableEq, Repr

/-- The versions of the `semver` crate. -/
structure Semver (V : Type) where
  parse : Text → Option V
  display : V → Text

variable {V : Type}

/-- `version_of`. -/
def Semver.versionOf (semver : Semver V) (tag : Text) : Option V :=
  semver.parse ((Text.stripStart ['v'] tag).getD tag)

/-- `line.trim_matches([' ', '\t'])`. -/
def trimBlanks (line : Text) : Text :=
  (line.dropWhile (fun c => c == ' ' || c == '\t')).rdropWhile (fun c => c == ' ' || c == '\t')

/-- A line of the body is the marker. -/
def hasMarkerLine (body : Text) : Bool :=
  (Text.lines body).any (fun line => trimBlanks line == securityMarker)

/-- `Duration::whole_days`. -/
def wholeDays (age : Int) : Int := age.tdiv 86400000000000

/-- `i64::try_from(n).unwrap_or(i64::MAX)`. -/
def toI64 (n : Nat) : Int := if n ≤ 9223372036854775807 then n else 9223372036854775807

def gateAge (release : Candidate) (now : Int) (policy : Policy) : Except PolicyError Candidate :=
  if !hasMarkerLine release.body then
    match release.published with
    | some published =>
      if wholeDays (now - published) < toI64 policy.minAgeDays then
        .error (.tooYoung release.tag policy.minAgeDays)
      else .ok release
    | none => .error (.tooYoung release.tag policy.minAgeDays)
  else .ok release

variable [LinearOrder V]

/-- The order of the sort: the higher version first, then the later publication. -/
def newestFirst (left right : Candidate × V) : Bool :=
  ((compare right.2 left.2).then (compare right.1.published left.1.published)).isLE

/-- The loop of `select`. -/
def selectFrom (semver : Semver V) (current : V) (now : Int) (policy : Policy) :
    List (Candidate × V) → Option PolicyError → Except PolicyError Candidate
  | [], tooYoung => .error (tooYoung.getD .noUpdate)
  | (release, version) :: rest, tooYoung =>
    if current < version then
      match gateAge release now policy with
      | .ok _ => .ok release
      | .error (.tooYoung tag days) =>
        selectFrom semver current now policy rest (tooYoung <|> some (.tooYoung tag days))
      | .error error => .error error
    else if version = current then
      if tooYoung.isNone then .error .noUpdate
      else selectFrom semver current now policy rest tooYoung
    else if !policy.allowDowngrade then
      if tooYoung.isNone then .error (.downgradeRefused release.tag (semver.display current))
      else selectFrom semver current now policy rest tooYoung
    else
      match gateAge release now policy with
      | .ok _ => .ok release
      | .error (.tooYoung tag days) =>
        selectFrom semver current now policy rest (tooYoung <|> some (.tooYoung tag days))
      | .error error => .error error

/-- The releases with a version, each with it. -/
def parsed (semver : Semver V) (releases : List Candidate) : List (Candidate × V) :=
  releases.filterMap (fun release => (semver.versionOf release.tag).map (fun version =>
    (release, version)))

def select (semver : Semver V) (releases : List Candidate) (current : V) (now : Int)
    (policy : Policy) : Except PolicyError Candidate :=
  selectFrom semver current now policy ((parsed semver releases).mergeSort newestFirst) none

/-- `Held`. -/
inductive Held where
  | tooYoung (minAgeDays : Nat)
  | rejected
  deriving DecidableEq, Repr

/-- `CheckReport`. -/
structure CheckReport where
  updateAvailable : Bool
  current : Text
  tag : Option Text
  published : Option Text
  security : Bool
  held : Option Held
  deriving DecidableEq, Repr

/-- `Iterator::max_by` on versions: of equal ones the last. -/
def maxByVersion : List (V × Text) → Option (V × Text)
  | [] => none
  | first :: rest => some (rest.foldl (fun best next => if next.1 < best.1 then best else next) first)

/-- `check`, with the releases that GitHub lists. -/
def check {ε : Type} (semver : Semver V) (format : Int → Text) (listed : Except ε (List Candidate))
    (current : V) (policy : Policy) (now : Int) (bad : List Text) : Except ε CheckReport := do
  let releases ← listed
  let candidates := releases.filter (fun c => !bad.contains c.tag)
  .ok <| match select semver candidates current now policy with
    | .ok chosen =>
      ⟨true, semver.display current, some chosen.tag, chosen.published.map format,
        Text.contains securityMarker chosen.body, none⟩
    | .error .noUpdate =>
      let rejected := (maxByVersion (((bad.filter (fun tag =>
        releases.any (fun r => r.tag == tag))).filterMap (fun tag =>
          (semver.versionOf tag).map (fun version => (version, tag)))).filter (fun p =>
            decide (current < p.1)))).map (·.2)
      ⟨false, semver.display current, rejected, none, false, rejected.map (fun _ => .rejected)⟩
    | .error (.downgradeRefused candidate _) =>
      ⟨false, semver.display current, some candidate, none, false, none⟩
    | .error (.tooYoung tag minAgeDays) =>
      ⟨false, semver.display current, some tag, none, false, some (.tooYoung minAgeDays)⟩
    | .error (.badTag tag) => ⟨false, semver.display current, some tag, none, false, none⟩

end Detent.Source.ReleasePolicy
