import Detent.Source.Doc
import Detent.Source.ExecDeny

/-!
# `dnsmasq.conf` and Kea

`crates/modules/dhcp/src/lib.rs`: two formats behind one module. A Kea document is a tree
that keeps every character of its text, comments and white space as trivia of the node they
stand at; an edit of it is rendered and read again before it is kept. Everything else is a
line document of `dnsmasq` settings.
-/
namespace Detent.Source.Dhcp
open Lib Lib.Text Source.Doc
open Source.ExecDeny (lit hexDigit charFromU32)

structure DnsmasqSetting where
  key : Text
  value : Option Text
  deriving DecidableEq, Repr

structure KeaPool where
  pool : Text
  deriving DecidableEq, Repr

/-- `id` is a `u32`. -/
structure KeaSubnet where
  id : Nat
  subnet : Text
  pools : List KeaPool
  routers : List Text
  domainServers : List Text
  deriving DecidableEq, Repr

/-- `valid_lifetime` is a `u32`. -/
structure KeaConfig where
  interfaces : List Text := []
  validLifetime : Option Nat := none
  subnets : List KeaSubnet := []
  deriving DecidableEq, Repr

structure Model where
  dnsmasq : List DnsmasqSetting
  keaV4 : KeaConfig
  keaV6 : KeaConfig
  deriving DecidableEq, Repr

/-! ## `dnsmasq` -/

def includeKeys : List Text :=
  [lit "conf-file", lit "conf-dir", lit "include", lit "includedir", lit "script",
    lit "dhcp-script", lit "dhcp-luascript", lit "dhcp-scriptuser", lit "conf-script"]

def isValidDnsmasqKey (key : Text) : Bool :=
  !key.isEmpty && key.all (fun c => isAsciiAlphanumeric c || c == '-' || c == '_' || c == '.')

def parseDnsmasq (raw : Text) : Option DnsmasqSetting :=
  let trimmed := trim raw
  if trimmed.isEmpty || trimmed.head? == some '#' then none
  else match splitOnceP (· == '=') trimmed with
    | some (key, value) =>
      if isValidDnsmasqKey (trim key) then some ⟨trim key, some (trim value)⟩ else none
    | none => if isValidDnsmasqKey trimmed then some ⟨trimmed, none⟩ else none

def classifyDnsmasq (raw : Text) : LineKind :=
  if (trim raw).isEmpty then .blank
  else if (trimStart raw).head? = some '#' then .comment
  else if (parseDnsmasq raw).isSome then .directive
  else .unknown

def isBreak (c : Char) : Bool := c == '\n' || c == '\r' || c == '\x00'

def renderDnsmasq (setting : DnsmasqSetting) : Except EditError Text :=
  if includeKeys.contains (toAsciiLowercase setting.key) then
    .error (.unsupported
      ("external-file directive cannot be rendered: " ++ String.ofList setting.key))
  else
    let raw := match setting.value with
      | some value => setting.key ++ '=' :: value
      | none => setting.key
    if raw.any isBreak then .error (.lineBreakInValue raw)
    else if parseDnsmasq raw = some setting then .ok raw
    else .error
      (.unsupported ("setting does not round-trip through the file format: " ++ debug raw))

def applyDnsmasq (doc : Document) (settings : List DnsmasqSetting) :
    Except EditError (Document × EditReport) :=
  doc.editEntries settings parseDnsmasq renderDnsmasq (fun _ => false)

/-! ## Lexemes of JSON with comments -/

def maxJsoncDepth : Nat := 128

def isBlank (c : Char) : Bool := c == ' ' || c == '\t' || c == '\r' || c == '\n'

mutual

/-- Trivia, then an opening brace; a lone `/` starts a line comment here. -/
def sniffsJsonc : Text → Bool
  | [] => false
  | '/' :: '*' :: src => sniffsBlock src
  | '/' :: src => sniffsLine src
  | c :: src => if isBlank c then sniffsJsonc src else c == '\x7b'

def sniffsBlock : Text → Bool
  | [] => false
  | '*' :: '/' :: src => sniffsJsonc src
  | _ :: src => sniffsBlock src

def sniffsLine : Text → Bool
  | [] => false
  | '\n' :: src => sniffsJsonc src
  | _ :: src => sniffsLine src

end

/-- Four hex digits as a number. -/
def decodeHex4 (a b c d : Char) : Option Nat :=
  [a, b, c, d].foldlM (fun value digit => (hexDigit digit).map (fun n => 16 * value + n)) 0

/-- What the letter of a short escape means. -/
def shortEscape (c : Char) : Option Char :=
  match c with
  | '"' => some '"'
  | '\\' => some '\\'
  | '/' => some '/'
  | 'b' => some '\x08'
  | 'f' => some '\x0c'
  | 'n' => some '\n'
  | 'r' => some '\r'
  | 't' => some '\t'
  | _ => none

/-- The character that two surrogates spell. -/
def surrogatePair (first second : Nat) : Option Char :=
  if 0xDC00 ≤ second ∧ second ≤ 0xDFFF then
    charFromU32 (0x10000 + (first - 0xD800) * 1024 + (second - 0xDC00))
  else none

/-- The loop of `decode_json_string`, over what stands between the quotes. -/
def decodeChars : Text → Option Text
  | [] => some []
  | c :: chars =>
    if c ≠ '\\' then (decodeChars chars).map (c :: ·)
    else match chars with
      | [] => none
      | escape :: chars =>
        if escape = 'u' then
          match chars with
          | a :: b :: c :: d :: chars =>
            match decodeHex4 a b c d with
            | none => none
            | some first =>
              if 0xD800 ≤ first ∧ first ≤ 0xDBFF then
                match chars with
                | slash :: letter :: a :: b :: c :: d :: chars =>
                  if slash = '\\' ∧ letter = 'u' then
                    match (decodeHex4 a b c d).bind (surrogatePair first) with
                    | none => none
                    | some decoded => (decodeChars chars).map (decoded :: ·)
                  else none
                | _ => none
              else match charFromU32 first with
                | none => none
                | some decoded => (decodeChars chars).map (decoded :: ·)
          | _ => none
        else match shortEscape escape with
          | none => none
          | some decoded => (decodeChars chars).map (decoded :: ·)

/-- `inner` is the token without its quotes. -/
def decodeJsonString (raw : Text) : Option Text :=
  match raw with
  | '"' :: rest => (stripLast '"' rest).bind decodeChars
  | _ => none

def escapeChar (c : Char) : Text :=
  if c = '"' then ['\\', '"']
  else if c = '\\' then ['\\', '\\']
  else if c = '\n' then ['\\', 'n']
  else if c = '\r' then ['\\', 'r']
  else if c = '\t' then ['\\', 't']
  else if c.toNat < 0x20 then
    ['\\', 'u', '0', '0', Nat.digitChar (c.toNat / 16), Nat.digitChar (c.toNat % 16)]
  else [c]

def jsonEscape (s : Text) : Text := s.flatMap escapeChar

/-! ## The tree -/

inductive Lit where
  | str (raw value : Text)
  | raw (raw : Text)
  deriving DecidableEq, Repr

mutual

inductive Jsonc where
  | obj (obj : Obj)
  | arr (arr : Arr)
  | lit (lit : Lit)

/-- `open` of the source is `opening`. -/
structure Obj where
  opening : Text
  members : List Member
  close : Text

structure Arr where
  opening : Text
  items : List ArrItem
  close : Text

structure Member where
  key : Lit
  colon : Text
  value : Jsonc
  post : Text
  comma : Text
  tail : Text

structure ArrItem where
  value : Jsonc
  post : Text
  comma : Text
  tail : Text

end

/-- The trivia before and after the root object, and the object. -/
structure JsoncRoot where
  lead : Text
  root : Obj
  trail : Text

def Lit.render : Lit → Text
  | .str token _ => token
  | .raw token => token

mutual

def Jsonc.render : Jsonc → Text
  | .obj object => object.render
  | .arr array => array.render
  | .lit leaf => leaf.render

def Obj.render : Obj → Text
  | ⟨opening, members, close⟩ => opening ++ (renderMembers members ++ close)

def Arr.render : Arr → Text
  | ⟨opening, items, close⟩ => opening ++ (renderItems items ++ close)

def renderMembers : List Member → Text
  | [] => []
  | ⟨key, colon, value, post, comma, tail⟩ :: members =>
    key.render ++ (colon ++ (value.render ++ (post ++ (comma ++ (tail ++ renderMembers members)))))

def renderItems : List ArrItem → Text
  | [] => []
  | ⟨value, post, comma, tail⟩ :: items =>
    value.render ++ (post ++ (comma ++ (tail ++ renderItems items)))

end

def JsoncRoot.render (root : JsoncRoot) : Text := root.lead ++ (root.root.render ++ root.trail)

def Lit.asStr : Lit → Option Text
  | .str _ value => some value
  | .raw _ => none

/-- `str::parse::<u32>`. -/
def parseU32 (text : Text) : Option Nat :=
  let digits := match text with
    | '+' :: digits => digits
    | digits => digits
  if !digits.isEmpty && digits.all isAsciiDigit && Nat.ofDigitChars 10 digits 0 < 2 ^ 32 then
    some (Nat.ofDigitChars 10 digits 0)
  else none

def Lit.asU32 : Lit → Option Nat
  | .raw token => parseU32 token
  | .str _ _ => none

def Jsonc.asObj : Jsonc → Option Obj
  | .obj object => some object
  | _ => none

def Jsonc.asStr : Jsonc → Option Text
  | .lit leaf => leaf.asStr
  | _ => none

def Jsonc.asU32 : Jsonc → Option Nat
  | .lit leaf => leaf.asU32
  | _ => none

def Member.keyName (member : Member) : Option Text := member.key.asStr

/-- Whether a member's key is `key`. -/
def Member.named (key : Text) (member : Member) : Bool := member.keyName == some key

def Obj.memberByKey (obj : Obj) (key : Text) : Option Member :=
  obj.members.find? (Member.named key)

/-! ## The parser

A parser takes the text from the cursor on and returns what it read with the text after it. -/

mutual

/-- A maximal run of white space and comments. -/
def trivia : Text → Option (Text × Text)
  | [] => some ([], [])
  | '/' :: '*' :: src => (blockComment src).map (fun (run, rest) => ('/' :: '*' :: run, rest))
  | '/' :: '/' :: src => (lineComment src).map (fun (run, rest) => ('/' :: '/' :: run, rest))
  | c :: src =>
    if isBlank c then (trivia src).map (fun (run, rest) => (c :: run, rest))
    else some ([], c :: src)

def blockComment : Text → Option (Text × Text)
  | [] => none
  | '*' :: '/' :: src => (trivia src).map (fun (run, rest) => ('*' :: '/' :: run, rest))
  | c :: src => (blockComment src).map (fun (run, rest) => (c :: run, rest))

/-- The line feed that ends the comment is white space. -/
def lineComment : Text → Option (Text × Text)
  | [] => some ([], [])
  | '\n' :: src => (trivia src).map (fun (run, rest) => ('\n' :: run, rest))
  | c :: src => (lineComment src).map (fun (run, rest) => (c :: run, rest))

end

def eat (c : Char) (src : Text) : Option Text :=
  match src with
  | [] => none
  | d :: rest => if d = c then some rest else none

/-- The rest of a string token, its closing quote included. -/
def stringBody : Text → Option (Text × Text)
  | [] => none
  | c :: src =>
    if c = '"' then some (['"'], src)
    else if c = '\\' then
      match src with
      | [] => none
      | d :: src => (stringBody src).map (fun (run, rest) => ('\\' :: d :: run, rest))
    else if c.toNat < 0x20 then none
    else (stringBody src).map (fun (run, rest) => (c :: run, rest))

def parseStringLit (src : Text) : Option (Lit × Text) := do
  let src ← eat '"' src
  let (run, rest) ← stringBody src
  let value ← decodeJsonString ('"' :: run)
  pure (.str ('"' :: run) value, rest)

def isRawChar (c : Char) : Bool := isAsciiAlphanumeric c || c == '+' || c == '-' || c == '.'

def parseRaw (src : Text) : Option (Lit × Text) :=
  let token := src.takeWhile isRawChar
  if token.isEmpty then none else some (.raw token, src.dropWhile isRawChar)

section Bodies

variable (parseValue : Text → Option (Jsonc × Text))

/-- The loop of `parse_obj`; each turn reads a member, so that the text's length bounds
the turns. -/
def parseMembers : Nat → Text → Option (List Member × Text × Text)
  | 0, _ => none
  | turns + 1, src => do
    let (key, src) ← parseStringLit src
    let (pre, src) ← trivia src
    let src ← eat ':' src
    let (post, src) ← trivia src
    let (value, src) ← parseValue src
    let (after, src) ← trivia src
    match eat ',' src with
    | some src => do
      let (tail, src) ← trivia src
      let member : Member :=
        { key, colon := pre ++ ':' :: post, value, post := after, comma := [','], tail }
      match eat '\x7d' src with
      | some src => pure ([member], ['\x7d'], src)
      | none => do
        let (members, close, src) ← parseMembers turns src
        pure (member :: members, close, src)
    | none => do
      let src ← eat '\x7d' src
      pure ([{ key, colon := pre ++ ':' :: post, value, post := [], comma := [], tail := [] }],
        after ++ ['\x7d'], src)

def parseObj (src : Text) : Option (Obj × Text) := do
  let src ← eat '\x7b' src
  let (lead, src) ← trivia src
  match eat '\x7d' src with
  | some src => pure (⟨'\x7b' :: lead, [], ['\x7d']⟩, src)
  | none => do
    let (members, close, src) ← parseMembers parseValue src.length src
    pure (⟨'\x7b' :: lead, members, close⟩, src)

/-- The loop of `parse_arr`; the last turn may read the bracket only. -/
def parseItems : Nat → Text → Option (List ArrItem × Text × Text)
  | 0, _ => none
  | turns + 1, src => do
    let (lead, src) ← trivia src
    match eat ']' src with
    | some src => pure ([], lead ++ [']'], src)
    | none => do
      let (value, src) ← parseValue src
      let (after, src) ← trivia src
      match eat ',' src with
      | some src => do
        let (tail, src) ← trivia src
        let (items, close, src) ← parseItems turns src
        pure ({ value, post := after, comma := [','], tail } :: items, close, src)
      | none => do
        let src ← eat ']' src
        pure ([{ value, post := [], comma := [], tail := [] }], after ++ [']'], src)

def parseArr (src : Text) : Option (Arr × Text) := do
  let src ← eat '[' src
  let (lead, src) ← trivia src
  let (items, close, src) ← parseItems parseValue src.length src
  pure (⟨'[' :: lead, items, close⟩, src)

end Bodies

/-- `parse_value` at the depth that leaves `levels` levels up to `MAX_JSONC_DEPTH`, its own
among them. -/
def parseValue : Nat → Text → Option (Jsonc × Text)
  | 0, _ => none
  | levels + 1, src => do
    let (_, src) ← trivia src
    match src.head? with
    | some '\x7b' => (parseObj (parseValue levels) src).map (fun (obj, src) => (.obj obj, src))
    | some '[' => (parseArr (parseValue levels) src).map (fun (arr, src) => (.arr arr, src))
    | some '"' => (parseStringLit src).map (fun (leaf, src) => (.lit leaf, src))
    | _ => (parseRaw src).map (fun (leaf, src) => (.lit leaf, src))

/-- The root object stands at depth 1. -/
def parseJsonc (src : Text) : Option JsoncRoot := do
  let (lead, src) ← trivia src
  let (root, src) ← parseObj (parseValue (maxJsoncDepth - 1)) src
  let (trail, src) ← trivia src
  if src.isEmpty then pure { lead, root, trail } else none

/-- The string under `key`. -/
def Obj.strAt (obj : Obj) (key : Text) : Option Text :=
  (obj.memberByKey key).bind (fun member => member.value.asStr)

/-- The `u32` under `key`. -/
def Obj.u32At (obj : Obj) (key : Text) : Option Nat :=
  (obj.memberByKey key).bind (fun member => member.value.asU32)

/-! ## Canonical values -/

def litStr (value : Text) : Lit := .str ('"' :: jsonEscape value ++ ['"']) value

def canonLit (value : Text) : Jsonc := .lit (litStr value)

def canonU32 (value : Nat) : Jsonc := .lit (.raw (Nat.toDigits 10 value))

/-- Every item carries a comma, the last one too. -/
def canonStrs (values : List Text) : Jsonc :=
  .arr { opening := ['['], close := [']'],
         items := values.map (fun v =>
           { value := canonLit v, post := [], comma := [','], tail := [] }) }

/-- The members of a canonical object; the last one carries no comma. -/
def canonMembers : List (Text × Jsonc) → List Member
  | [] => []
  | (key, value) :: rest =>
    { key := litStr key, colon := [':'], value, post := [],
      comma := if rest.isEmpty then [] else [','], tail := [] } :: canonMembers rest

def canonObj (members : List (Text × Jsonc)) : Jsonc :=
  .obj { opening := ['\x7b'], members := canonMembers members, close := ['\x7d'] }

def canonItems : List Jsonc → List ArrItem
  | [] => []
  | value :: rest =>
    { value, post := [], comma := if rest.isEmpty then [] else [','], tail := [] } ::
      canonItems rest

def canonArr (items : List Jsonc) : Jsonc :=
  .arr { opening := ['['], items := canonItems items, close := [']'] }

/-! ## Edits of an object -/

def EditReport.changed (report : EditReport) : EditReport :=
  { report with changedLines := report.changedLines + 1 }

def EditReport.grown (report : EditReport) : EditReport := { report with added := report.added + 1 }

def EditReport.shrunk (report : EditReport) : EditReport :=
  { report with removed := report.removed + 1 }

/-- The value of the first member named `key`, replaced through `member_mut_by_key`. -/
def putValue (key : Text) (value : Jsonc) : List Member → List Member
  | [] => []
  | member :: members =>
    if member.named key then { member with value } :: members
    else member :: putValue key value members

/-- `last.comma = ","` where there is a last member. -/
def setLastMemberComma : List Member → List Member
  | [] => []
  | [last] => [{ last with comma := [','] }]
  | member :: members => member :: setLastMemberComma members

/-- The object with the value of its first member named `key` replaced. -/
def Obj.put (obj : Obj) (key : Text) (value : Jsonc) : Obj :=
  { obj with members := putValue key value obj.members }

def setMember (obj : Obj) (key : Text) (value : Jsonc) (report : EditReport) : Obj × EditReport :=
  match obj.memberByKey key with
  | some _ => (obj.put key value, EditReport.changed report)
  | none =>
    let member : Member :=
      { key := litStr key, colon := [':'], value, post := [], comma := [], tail := [] }
    ({ obj with members := setLastMemberComma obj.members ++ [member] }, EditReport.grown report)

def removeMember (obj : Obj) (key : Text) (report : EditReport) : Obj × EditReport :=
  match obj.memberByKey key with
  | some _ =>
    ({ obj with members := obj.members.eraseP (Member.named key) }, EditReport.shrunk report)
  | none => (obj, report)

/-! ## Projections -/

inductive KeaFlavor where
  | v4
  | v6
  deriving DecidableEq, Repr

def KeaFlavor.configKey : KeaFlavor → Text
  | .v4 => lit "Dhcp4"
  | .v6 => lit "Dhcp6"

def KeaFlavor.subnetsKey : KeaFlavor → Text
  | .v4 => lit "subnet4"
  | .v6 => lit "subnet6"

def projectInterfaces (inner : Obj) : Option (List Text) :=
  match inner.memberByKey (lit "interfaces") with
  | none => some []
  | some member =>
    match member.value with
    | .arr arr => some (arr.items.filterMap (fun item => item.value.asStr))
    | _ => none

def projectInterfacesConfig (obj : Obj) : Option (List Text) :=
  match obj.memberByKey (lit "interfaces-config") with
  | none => some []
  | some member => member.value.asObj.bind projectInterfaces

/-- The outer `Option` is whether the member is absent or parseable. -/
def projectValidLifetime (obj : Obj) : Option (Option Nat) :=
  match obj.memberByKey (lit "valid-lifetime") with
  | none => some none
  | some member => member.value.asU32.map some

def projectPool (value : Jsonc) : Option Text :=
  value.asObj.bind (fun obj => obj.strAt (lit "pool"))

def projectPools (obj : Obj) : Option (List Text) :=
  match obj.memberByKey (lit "pools") with
  | none => some []
  | some member =>
    match member.value with
    | .arr arr => some (arr.items.filterMap (fun item => projectPool item.value))
    | _ => none

/-- The name and the data of an entry of `option-data`. -/
def optionEntry (value : Jsonc) : Option (Text × Text) := do
  let entry ← value.asObj
  let name ← entry.strAt (lit "name")
  let data ← entry.strAt (lit "data")
  pure (name, data)

/-- The loop of `project_option_data`. -/
def optionLists : List ArrItem → List Text × List Text
  | [] => ([], [])
  | item :: items =>
    let (routers, domainServers) := optionLists items
    match optionEntry item.value with
    | none => (routers, domainServers)
    | some (name, data) =>
      if name = lit "routers" then (data :: routers, domainServers)
      else if name = lit "domain-name-servers" then (routers, data :: domainServers)
      else (routers, domainServers)

def projectOptionData (obj : Obj) : List Text × List Text :=
  match obj.memberByKey (lit "option-data") with
  | none => ([], [])
  | some member =>
    match member.value with
    | .arr arr => optionLists arr.items
    | _ => ([], [])

def projectSubnet (obj : Obj) : Option KeaSubnet := do
  let id ← obj.u32At (lit "id")
  let subnet ← obj.strAt (lit "subnet")
  let pools ← projectPools obj
  pure { id, subnet, pools := pools.map KeaPool.mk, routers := (projectOptionData obj).1,
         domainServers := (projectOptionData obj).2 }

def projectSubnets (obj : Obj) (subnetsKey : Text) : Option (List KeaSubnet) :=
  match obj.memberByKey subnetsKey with
  | none => some []
  | some member =>
    match member.value with
    | .arr arr => some (arr.items.filterMap (fun item => item.value.asObj.bind projectSubnet))
    | _ => none

def projectKeaConfig (obj : Obj) (flavor : KeaFlavor) : KeaConfig where
  interfaces := (projectInterfacesConfig obj).getD []
  validLifetime := (projectValidLifetime obj).getD none
  subnets := (projectSubnets obj flavor.subnetsKey).getD []

/-! ## Canonical Kea elements -/

def canonInterfacesConfig (interfaces : List Text) : Jsonc :=
  canonObj [(lit "interfaces", canonStrs interfaces)]

def canonOptionEntry (name data : Text) : Jsonc :=
  canonObj [(lit "name", canonLit name), (lit "data", canonLit data)]

def canonPool (pool : Text) : Jsonc := canonObj [(lit "pool", canonLit pool)]

def canonPools (pools : List Text) : Jsonc := canonArr (pools.map canonPool)

def canonOptionData (routers domainServers : List Text) : Jsonc :=
  canonArr (routers.map (canonOptionEntry (lit "routers")) ++
    domainServers.map (canonOptionEntry (lit "domain-name-servers")))

def canonSubnet (subnet : KeaSubnet) : Jsonc :=
  let members := [(lit "id", canonU32 subnet.id), (lit "subnet", canonLit subnet.subnet)]
  let members :=
    if subnet.pools.isEmpty then members
    else members ++ [(lit "pools", canonArr (subnet.pools.map (fun p => canonPool p.pool)))]
  let members :=
    if subnet.routers.isEmpty && subnet.domainServers.isEmpty then members
    else members ++ [(lit "option-data", canonOptionData subnet.routers subnet.domainServers)]
  canonObj members

def canonSubnets (subnets : List KeaSubnet) : Jsonc := canonArr (subnets.map canonSubnet)

/-! ## Edits of a list -/

/-- `last.comma = ","` where there is a last item. -/
def setLastItemComma : List ArrItem → List ArrItem
  | [] => []
  | [last] => [{ last with comma := [','] }]
  | item :: items => item :: setLastItemComma items

def appendItems : List ArrItem → List ArrItem → EditReport → List ArrItem × EditReport
  | items, [], report => (items, report)
  | items, item :: fresh, report =>
    appendItems (setLastItemComma items ++ [item]) fresh (EditReport.grown report)

def freshItem (value : Jsonc) : ArrItem := { value, post := [], comma := [], tail := [] }

section Sync

variable {P : Type}

/-- The `while` loop of `sync_modeled_items` and `sync_subnets`, with the wanted entries not
yet matched: an entry with no partner goes, other items stay. -/
def syncLoop (modeled : Jsonc → Bool) (rewrite : Jsonc → P → EditReport → Jsonc × EditReport) :
    List ArrItem → List P → EditReport → List ArrItem × List P × EditReport
  | [], wanted, report => ([], wanted, report)
  | item :: items, wanted, report =>
    if modeled item.value then
      match wanted with
      | [] => syncLoop modeled rewrite items [] (EditReport.shrunk report)
      | entry :: wanted =>
        let (value, report) := rewrite item.value entry report
        let (items, wanted, report) := syncLoop modeled rewrite items wanted report
        ({ item with value } :: items, wanted, report)
    else
      let (items, wanted, report) := syncLoop modeled rewrite items wanted report
      (item :: items, wanted, report)

/-- The loop, then the entries that found no item. -/
def syncItems (modeled : Jsonc → Bool) (rewrite : Jsonc → P → EditReport → Jsonc × EditReport)
    (render : P → Jsonc) (items : List ArrItem) (wanted : List P) (report : EditReport) :
    List ArrItem × EditReport :=
  let (items, left, report) := syncLoop modeled rewrite items wanted report
  appendItems items (left.map (fun entry => freshItem (render entry))) report

def syncModeledItems [DecidableEq P] (items : List ArrItem) (wanted : List P)
    (project : Jsonc → Option P) (render : P → Jsonc) (report : EditReport) :
    List ArrItem × EditReport :=
  syncItems (fun value => (project value).isSome)
    (fun value entry report =>
      if project value = some entry then (value, report)
      else (render entry, EditReport.changed report))
    render items wanted report

def syncListMember [DecidableEq P] (obj : Obj) (key : Text) (want : List P)
    (project : Jsonc → Option P) (renderItem : P → Jsonc) (renderMember : List P → Jsonc)
    (report : EditReport) : Obj × EditReport :=
  match obj.memberByKey key with
  | none => if want.isEmpty then (obj, report) else setMember obj key (renderMember want) report
  | some member =>
    match member.value with
    | .arr arr =>
      let (items, report) := syncModeledItems arr.items want project renderItem report
      (obj.put key (.arr { arr with items }), report)
    | _ =>
      if want.isEmpty then (obj, report)
      else (obj.put key (renderMember want), EditReport.changed report)

end Sync

/-! ## Edits of a Kea element -/

def applyInterfacesConfig (obj : Obj) (want : List Text) (report : EditReport) : Obj × EditReport :=
  if projectInterfacesConfig obj = some want then (obj, report)
  else match obj.memberByKey (lit "interfaces-config") with
    | none =>
      if want.isEmpty then (obj, report)
      else setMember obj (lit "interfaces-config") (canonInterfacesConfig want) report
    | some member =>
      match member.value with
      | .obj inner =>
        let (inner, report) :=
          syncListMember inner (lit "interfaces") want Jsonc.asStr canonLit canonStrs report
        (obj.put (lit "interfaces-config") (.obj inner), report)
      | _ =>
        if want.isEmpty then (obj, report)
        else (obj.put (lit "interfaces-config") (canonInterfacesConfig want),
          EditReport.changed report)

def applyValidLifetime (obj : Obj) (want : Option Nat) (report : EditReport) : Obj × EditReport :=
  if projectValidLifetime obj = some want then (obj, report)
  else match obj.memberByKey (lit "valid-lifetime") with
    | none =>
      match want with
      | some lifetime => setMember obj (lit "valid-lifetime") (canonU32 lifetime) report
      | none => (obj, report)
    | some member =>
      match member.value.asU32, want with
      | some _, none => removeMember obj (lit "valid-lifetime") report
      | _, some lifetime =>
        (obj.put (lit "valid-lifetime") (canonU32 lifetime), EditReport.changed report)
      -- a value that is no number stays
      | none, none => (obj, report)

/-- The `data` of an entry of `option-data` named `wanted`. -/
def namedData (value : Jsonc) (wanted : Text) : Option Text := do
  let entry ← value.asObj
  if entry.strAt (lit "name") ≠ some wanted then none
  else entry.strAt (lit "data")

/-- The last part of `merge_subnet`: one pass for each managed option. -/
def mergeOptionData (obj : Obj) (want : KeaSubnet) (report : EditReport) : Obj × EditReport :=
  if projectOptionData obj = (want.routers, want.domainServers) then (obj, report)
  else
    let empty := want.routers.isEmpty && want.domainServers.isEmpty
    match obj.memberByKey (lit "option-data") with
    | none =>
      if empty then (obj, report)
      else
        setMember obj (lit "option-data") (canonOptionData want.routers want.domainServers) report
    | some member =>
      match member.value with
      | .arr arr =>
        let (items, report) := syncModeledItems arr.items want.routers
          (fun value => namedData value (lit "routers")) (canonOptionEntry (lit "routers")) report
        let (items, report) := syncModeledItems items want.domainServers
          (fun value => namedData value (lit "domain-name-servers"))
          (canonOptionEntry (lit "domain-name-servers")) report
        (obj.put (lit "option-data") (.arr { arr with items }), report)
      | _ =>
        if empty then (obj, report)
        else (obj.put (lit "option-data") (canonOptionData want.routers want.domainServers),
          EditReport.changed report)

def mergeSubnet (obj : Obj) (want : KeaSubnet) (report : EditReport) : Obj × EditReport :=
  if projectSubnet obj = some want then (obj, report)
  else
    let (obj, report) :=
      if obj.u32At (lit "id") = some want.id then
        (obj, report)
      else setMember obj (lit "id") (canonU32 want.id) report
    let (obj, report) :=
      if obj.strAt (lit "subnet") =
          some want.subnet then (obj, report)
      else setMember obj (lit "subnet") (canonLit want.subnet) report
    let (obj, report) := syncListMember obj (lit "pools") (want.pools.map KeaPool.pool) projectPool
      canonPool canonPools report
    mergeOptionData obj want report

def syncSubnets (items : List ArrItem) (wanted : List KeaSubnet) (report : EditReport) :
    List ArrItem × EditReport :=
  syncItems (fun value => (value.asObj.bind projectSubnet).isSome)
    (fun value entry report =>
      match value with
      | .obj obj =>
        let (obj, report) := mergeSubnet obj entry report
        (.obj obj, report)
      | value => (value, report))
    canonSubnet items wanted report

def applySubnets (obj : Obj) (flavor : KeaFlavor) (want : List KeaSubnet) (report : EditReport) :
    Obj × EditReport :=
  if projectSubnets obj flavor.subnetsKey = some want then (obj, report)
  else match obj.memberByKey flavor.subnetsKey with
    | none =>
      if want.isEmpty then (obj, report)
      else setMember obj flavor.subnetsKey (canonSubnets want) report
    | some member =>
      match member.value with
      | .arr arr =>
        let (items, report) := syncSubnets arr.items want report
        (obj.put flavor.subnetsKey (.arr { arr with items }), report)
      | _ =>
        if want.isEmpty then (obj, report)
        else (obj.put flavor.subnetsKey (canonSubnets want), EditReport.changed report)

/-- The three edits of a server's element. -/
def editElement (obj : Obj) (flavor : KeaFlavor) (config : KeaConfig) (report : EditReport) :
    Obj × EditReport :=
  let (obj, report) := applyInterfacesConfig obj config.interfaces report
  let (obj, report) := applyValidLifetime obj config.validLifetime report
  applySubnets obj flavor config.subnets report

/-- The edited element is rendered and read again. -/
def applyKeaConfig (root : Obj) (flavor : KeaFlavor) (config : KeaConfig) (report : EditReport) :
    Except EditError (Obj × EditReport) :=
  match root.memberByKey flavor.configKey with
  | none =>
    if config = {} then .ok (root, report)
    else .error (.unsupported ("the " ++ String.ofList flavor.configKey ++
      " element of the Kea configuration file is missing"))
  | some member =>
    match member.value with
    | .obj obj =>
      let (obj, report) := editElement obj flavor config report
      match parseJsonc obj.render with
      | none => .error
          (.unsupported "the Kea configuration element failed to re-parse after an edit")
      | some fresh =>
        .ok (root.put flavor.configKey (.obj fresh.root), report)
    | _ =>
      if config = {} then .ok (root, report)
      else .error (.unsupported ("the " ++ String.ofList flavor.configKey ++
        " element of the Kea configuration file is not an object"))

/-! ## The module -/

inductive DhcpDoc where
  | dnsmasq (doc : Document)
  | kea (flavor : KeaFlavor) (root : JsoncRoot)

def DhcpDoc.render : DhcpDoc → Text
  | .dnsmasq doc => doc.render
  | .kea _ root => root.render

def keaFlavor (root : Obj) : Option KeaFlavor :=
  if (root.memberByKey (lit "Dhcp4")).isSome then some .v4
  else if (root.memberByKey (lit "Dhcp6")).isSome then some .v6
  else none

/-- A Kea document, where the text is one. -/
def parseKea (src : Text) : Option DhcpDoc :=
  if sniffsJsonc src then do
    let document ← parseJsonc src
    let flavor ← keaFlavor document.root
    pure (.kea flavor document)
  else none

def parse (src : Text) : DhcpDoc :=
  (parseKea src).getD (.dnsmasq (Doc.parse src classifyDnsmasq))

def toModel : DhcpDoc → Model
  | .dnsmasq doc =>
    { dnsmasq := (doc.lines.filter (fun line => line.kind = .directive)).filterMap
        (fun line => parseDnsmasq line.raw),
      keaV4 := {}, keaV6 := {} }
  | .kea flavor root =>
    let config := (((root.root.memberByKey flavor.configKey).bind
      (fun member => member.value.asObj)).map (fun obj => projectKeaConfig obj flavor)).getD {}
    match flavor with
    | .v4 => { dnsmasq := [], keaV4 := config, keaV6 := {} }
    | .v6 => { dnsmasq := [], keaV4 := {}, keaV6 := config }

/-- Every text of a model section. -/
def keaStrings (config : KeaConfig) : List Text :=
  config.interfaces ++ config.subnets.flatMap (fun subnet =>
    subnet.subnet :: (subnet.pools.map KeaPool.pool ++ (subnet.routers ++ subnet.domainServers)))

def checkKeaInjection (config : KeaConfig) : Except EditError Unit :=
  match (keaStrings config).find? (fun value => value.any isBreak) with
  | some value => .error (.lineBreakInValue value)
  | none => .ok ()

/-- The section of a model that a document's flavor reads, and the other one. -/
def Model.section (model : Model) : KeaFlavor → KeaConfig
  | .v4 => model.keaV4
  | .v6 => model.keaV6

def KeaFlavor.other : KeaFlavor → KeaFlavor
  | .v4 => .v6
  | .v6 => .v4

def apply (doc : DhcpDoc) (model : Model) : Except EditError (DhcpDoc × EditReport) :=
  match doc with
  | .dnsmasq doc =>
    if model.keaV4 ≠ {} ∨ model.keaV6 ≠ {} then
      .error (.unsupported "kea settings cannot be applied to a dnsmasq configuration file")
    else (applyDnsmasq doc model.dnsmasq).map (fun (doc, report) => (.dnsmasq doc, report))
  | .kea flavor root => do
    if model.dnsmasq ≠ [] ∨ model.section flavor.other ≠ {} then
      .error (.unsupported "dnsmasq settings cannot be applied to a Kea configuration file")
    else
      checkKeaInjection (model.section flavor)
      let (obj, report) ← applyKeaConfig root.root flavor (model.section flavor) ⟨0, 0, 0⟩
      pure (.kea flavor { root with root := obj }, report)

end Detent.Source.Dhcp
