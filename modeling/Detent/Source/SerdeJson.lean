import Detent.Lib.Text

/-!
# JSON values

`serde_json::Value` as `crates/detent-update/src/verify.rs` and
`crates/detent-web/src/api/modules.rs` use it: the pointers of RFC 6901 read or change
one place of a value.
-/
namespace Detent.Source.SerdeJson
open Lib Lib.Text

/-- `serde_json::Value`; numbers by their text. -/
inductive Value where
  | null
  | bool (b : Bool)
  | number (text : String)
  | string (s : String)
  | array (items : List Value)
  | object (members : List (String × Value))

def Value.asStr : Value → Option String
  | .string s => some s
  | _ => none

/-- The value of decimal digits. -/
def numberOf (digits : Text) : Nat := digits.foldl (fun n c => n * 10 + (c.toNat - 48)) 0

/-- `parse_index` of `Value::pointer`: no sign and no leading zero. -/
def parseIndex (token : Text) : Option Nat :=
  if token.isEmpty ∨ !token.all isAsciiDigit ∨ token.head? = some '0' ∧ token.length ≠ 1 then none
  else some (numberOf token)

/-- One token of a pointer. -/
def Value.member : Value → String → Option Value
  | .object members, token => members.lookup token
  | .array items, token => (parseIndex token.toList).bind (fun i => items[i]?)
  | _, _ => none

/-- `Value::pointer`, its tokens given. -/
def Value.pointer (value : Value) (tokens : List String) : Option Value :=
  tokens.foldlM Value.member value

/-- The tokens of a pointer text; a text that is not empty starts with a slash. -/
def pointerTokens (pointer : Text) : Option (List String) :=
  if pointer.isEmpty then some []
  else if pointer.head? ≠ some '/' then none
  else some (((pointer.splitOn '/').drop 1).map (fun token =>
    String.ofList (replace ['~', '0'] ['~'] (replace ['~', '1'] ['/'] token))))

/-- Change the value of the first member with a name. -/
def changeMember (token : String) (f : Value → Value) :
    List (String × Value) → List (String × Value)
  | [] => []
  | (name, value) :: rest =>
    if name = token then (name, f value) :: rest else (name, value) :: changeMember token f rest

/-- Change what `pointer_mut` gives, if it gives anything. -/
def Value.modifyAt (f : Value → Value) : List String → Value → Value
  | [], value => f value
  | token :: tokens, .object members =>
    .object (changeMember token (Value.modifyAt f tokens) members)
  | token :: tokens, .array items =>
    match parseIndex token.toList with
    | some i => .array (items.modify i (Value.modifyAt f tokens))
    | none => .array items
  | _ :: _, value => value

mutual

/-- `json_depth`. -/
def Value.depth : Value → Nat
  | .array items => depthOfItems items + 1
  | .object members => depthOfMembers members + 1
  | _ => 1

def depthOfItems : List Value → Nat
  | [] => 0
  | item :: rest => max item.depth (depthOfItems rest)

def depthOfMembers : List (String × Value) → Nat
  | [] => 0
  | (_, item) :: rest => max item.depth (depthOfMembers rest)

end

end Detent.Source.SerdeJson
