import Detent.Source.ReadScope
import Detent.Source.Samba

/-!
# The Samba module over JSON

`crates/modules/samba/src/lib.rs` behind the adapter of
`crates/detent-core/src/module.rs:344-430`. Of the findings only those of `validate_entry`
are computed here; what the host's version and the effective values add is a parameter.
-/
namespace Detent.Source.SambaJson
open Lib Lib.Text Source.Doc Source.SerdeJson Source.ReadScope

/-! ## `serde_json::to_value` and `from_value` of the model

The texts of shape errors are reduced to their kind. -/

def entryToJson (entry : Samba.Entry) : Value :=
  .object [("section", (entry.sectionName.map (fun s => Value.string (String.ofList s))).getD .null),
    ("key", .string (String.ofList entry.key)), ("value", .string (String.ofList entry.value))]

def modelToJson (model : Samba.Model) : Value :=
  .object [("entries", .array (model.entries.map entryToJson))]

/-- The fields of a struct with `deny_unknown_fields`: by name from an object, in order
from an array. -/
def structFields (names : List String) : Value → Except String (List (Option Value))
  | .object members =>
    if members.all (fun m => names.contains m.1) then .ok (names.map (fun name => members.lookup name))
    else .error "unknown field"
  | .array items =>
    if items.length = names.length then .ok (items.map some) else .error "invalid length"
  | _ => .error "invalid type"

def textField : Option Value → Except String Text
  | some (.string s) => .ok s.toList
  | some _ => .error "invalid type: expected a string"
  | none => .error "missing field"

/-- A missing `Option` field is `None`. -/
def optionalTextField : Option Value → Except String (Option Text)
  | some (.string s) => .ok (some s.toList)
  | some .null | none => .ok none
  | some _ => .error "invalid type: expected a string"

def entryFromJson (value : Value) : Except String Samba.Entry := do
  match ← structFields ["section", "key", "value"] value with
  | [sectionName, key, val] => do
    let sectionName ← optionalTextField sectionName
    let key ← textField key
    let val ← textField val
    pure { sectionName, key, value := val }
  | _ => .error "invalid length"

def modelFromJson (value : Value) : Except String Samba.Model := do
  match ← structFields ["entries"] value with
  | [some (.array items)] => do
    let entries ← items.mapM entryFromJson
    pure { entries }
  | _ => .error "missing field `entries`"

def finding (id field : String) (args : List (String × String)) : Diagnostic :=
  { severity := .error, id, field := some field, span := none, args }

def validateEntry (entry : Samba.Entry) (index : Nat) : List Diagnostic :=
  match entry.sectionName with
  | some name =>
    if name.isEmpty then [finding "samba-empty-section" s!"entries/{index}/section" []]
    else if name.any (fun c => c == '[' || c == ']' || c == '/') || name.getLast? == some '\\' then
      [finding "samba-bad-section" s!"entries/{index}/section" [("section", String.ofList name)]]
    else []
  | none =>
    (if entry.key.isEmpty then [finding "samba-empty-key" s!"entries/{index}/key" []]
      else if entry.key.head?.any (fun c => c == '[' || c == '/' || Samba.isCommentMark c) ||
          entry.key.getLast? == some '\\' then
        [finding "samba-bad-key" s!"entries/{index}/key" [("key", String.ofList entry.key)]]
      else []) ++
    (if entry.value.getLast? == some '\\' then
        [finding "samba-bad-value" s!"entries/{index}/value" [("value", String.ofList entry.value)]]
      else [])

def editErrorText : EditError → String
  | .lineBreakInValue value =>
    "value contains a line break or NUL and cannot be written: " ++ debug value
  | .indexOutOfRange index len => s!"line index {index} is out of range for a document of {len} lines"
  | .unsupported message => s!"edit not supported: {message}"

/-- `Dyn<SambaModule>`; `findings` are those of `validate_since` and `validate_values`. -/
def samba (descriptor : ModuleDescriptor) (schema : Value)
    (findings : List Samba.Entry → List Diagnostic) : JsonModule where
  descriptor
  schema
  secretPointers := []
  parseToModelJson src :=
    .ok (modelToJson { entries := (Samba.parse src).lines.filterMap (fun line =>
      if line.kind = .directive then Samba.parseEntry line.raw else none) })
  validateJson value := do
    let model ← modelFromJson value
    pure ((model.entries.zipIdx.flatMap (fun (entry, index) => validateEntry entry index)) ++
      findings model.entries)
  applyJson src value := do
    let model ← modelFromJson value
    match Samba.apply (Samba.parse src) model with
    | .ok (doc, _) => .ok doc.render
    | .error err => .error (editErrorText err)
  modelTargetJson value := do
    let _ ← modelFromJson value
    pure none

end Detent.Source.SambaJson
