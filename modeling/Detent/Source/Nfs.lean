import Detent.Source.Doc

/-!
# `exports`

`crates/modules/nfs/src/lib.rs`: a line is blank, a comment or one export, an
absolute path with its clients; any other line is copied through.
-/
namespace Detent.Source.Nfs
open Lib Lib.Text Source.Doc

structure Client where
  host : Text
  options : List Text
  deriving DecidableEq, Repr

structure Export where
  path : Text
  clients : List Client
  deriving DecidableEq, Repr

structure Model where
  entries : List Export
  deriving DecidableEq, Repr

/-- The characters that the file format would truncate or fold at. -/
def isSpecial (c : Char) : Bool := c == '#' || c == '"' || c == '\\'

def isParen (c : Char) : Bool := c == '(' || c == ')'

/-- The host of a client token and the text of its option list. -/
def splitClient (token : Text) : Option (Text × Text) :=
  match splitOnceP (· == '(') token with
  | some (host, rest) =>
    match stripLast ')' rest with
    | some optionsRaw => if optionsRaw.any isParen then none else some (host, optionsRaw)
    | none => none
  | none => some (token, [])

def parseClient (token : Text) : Option Client :=
  match splitClient token with
  | none => none
  | some (host, optionsRaw) =>
    if host.isEmpty || host.any isSpecial || host.head? == some '-' then none
    else if optionsRaw.any isSpecial then none
    else some ⟨host, (optionsRaw.splitOn ',').filter (fun option => !option.isEmpty)⟩

def parseExport (raw : Text) : Option Export :=
  if (trim raw).getLast? = some '\\' then none
  else match splitWhitespace raw with
    | [] => none
    | path :: tokens =>
      if path.head? ≠ some '/' then none
      else if path.any isSpecial then none
      else (tokens.mapM parseClient).map (fun clients => ⟨path, clients⟩)

def classify (raw : Text) : LineKind :=
  if (trim raw).isEmpty then .blank
  else if (trimStart raw).head? = some '#' then .comment
  else if (parseExport raw).isSome then .directive
  else .unknown

/-- The first option of a client that is refused. -/
def refusedOption (client : Client) : Option Text := client.options.find? (·.any isSpecial)

/-- What `render_line` refuses in one client. -/
def refusedClient (client : Client) : Option EditError :=
  if client.host.head? == some '-' || client.host.any isSpecial then
    some (.unsupported ("export host would not round-trip: " ++ debug client.host))
  else (refusedOption client).map (fun option =>
    .unsupported ("export option would not round-trip: " ++ debug option))

/-- The first refusal of `render_line`. -/
def refusal (entry : Export) : Option EditError :=
  if entry.path.any isSpecial then
    some (.unsupported ("export path would not round-trip: " ++ debug entry.path))
  else entry.clients.findSome? refusedClient

/-- The text of a client in a line. -/
def clientText (client : Client) : Text :=
  if client.options.isEmpty then client.host
  else client.host ++ '(' :: join [','] client.options ++ [')']

/-- The text of an export's line. -/
def lineOf (entry : Export) : Text :=
  entry.path ++ entry.clients.flatMap (fun client => ' ' :: clientText client)

def isBreak (c : Char) : Bool := c == '\n' || c == '\r' || c == '\x00'

def renderLine (entry : Export) : Except EditError Text :=
  match refusal entry with
  | some err => .error err
  | none =>
    let raw := lineOf entry
    if raw.any isBreak then .error (.lineBreakInValue raw)
    else if parseExport raw = some entry then .ok raw
    else .error (.unsupported ("export does not round-trip through the file format: " ++ debug raw))

def parse (src : Text) : Document := Doc.parse src classify

def apply (doc : Document) (model : Model) : Except EditError (Document × EditReport) :=
  doc.editEntries model.entries parseExport renderLine (fun _ => false)

end Detent.Source.Nfs
