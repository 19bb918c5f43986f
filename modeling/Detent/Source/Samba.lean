import Detent.Source.Doc

/-!
# `smb.conf`

`crates/modules/samba/src/lib.rs`: a line is blank, a comment, a `[section]`
header or a `key = value` directive, and any other line is copied through. The
classifier sees one physical line; a line that ends in a backslash is no entry.
-/
namespace Detent.Source.Samba
open Lib Lib.Text Source.Doc

/-- A `[section]` header has no key and no value, a directive no section. -/
structure Entry where
  sectionName : Option Text
  key : Text
  value : Text
  deriving DecidableEq, Repr

structure Model where
  entries : List Entry
  deriving DecidableEq, Repr

/-- The text between the brackets of `[...]`. -/
def bracketed : Text → Option Text
  | '[' :: rest => stripLast ']' rest
  | _ => none

def parseEntry (raw : Text) : Option Entry :=
  let trimmed := trim raw
  if trimmed.getLast? = some '\\' then none
  else match bracketed trimmed with
    | some inner =>
      let name := trim inner
      if name.isEmpty then none else some ⟨some name, [], []⟩
    | none =>
      match splitOnceP (· == '=') trimmed with
      | none => none
      | some (key, value) =>
        if (trim key).isEmpty then none else some ⟨none, trim key, trim value⟩

def isCommentMark (c : Char) : Bool := c == '#' || c == ';'

def classify (raw : Text) : LineKind :=
  if (trim raw).isEmpty then .blank
  else if (trimStart raw).head?.any isCommentMark then .comment
  else if (parseEntry raw).isSome then .directive
  else .unknown

def opensSection (raw : Text) : Bool := (trimStart raw).head? == some '['

/-- The first refusal of `render_line`: what `smb.conf` would read as syntax. -/
def refusal (entry : Entry) : Option EditError :=
  match entry.sectionName with
  | some name =>
    if name.any (fun c => c == '[' || c == ']' || c == '/') || name.getLast? == some '\\' then
      some (.unsupported ("section name would not round-trip: " ++ debug name))
    else none
  | none =>
    if entry.key.head?.any (fun c => c == '[' || c == '/' || isCommentMark c) ||
        entry.key.getLast? == some '\\' || entry.value.getLast? == some '\\' then
      some (.unsupported ("entry would not round-trip due to smb.conf syntax: " ++
        "Entry \x7b section: None, key: " ++ debug entry.key ++ ", value: " ++ debug entry.value ++
        " \x7d"))
    else none

/-- The text of an entry's line. -/
def lineOf (entry : Entry) : Text :=
  match entry.sectionName with
  | some name => '[' :: name ++ [']']
  | none =>
    if entry.value.isEmpty then entry.key ++ [' ', '='] else entry.key ++ [' ', '=', ' '] ++ entry.value

def isBreak (c : Char) : Bool := c == '\n' || c == '\r' || c == '\x00'

def renderLine (entry : Entry) : Except EditError Text :=
  match refusal entry with
  | some err => .error err
  | none =>
    let raw := lineOf entry
    if raw.any isBreak then .error (.lineBreakInValue raw)
    else if parseEntry raw = some entry then .ok raw
    else .error (.unsupported ("entry does not round-trip through the file format: " ++ debug raw))

def parse (src : Text) : Document := Doc.parse src classify

def apply (doc : Document) (model : Model) : Except EditError (Document × EditReport) :=
  doc.editEntries model.entries parseEntry renderLine opensSection

end Detent.Source.Samba
