import Mathlib.Data.Char
import Mathlib.Data.List.Lex
import Detent.Lib.IpAddr
import Detent.Source.Doc

/-!
# Interface configuration across four backends

`crates/modules/network/src/lib.rs`: systemd-networkd, NetworkManager, ifupdown and
netplan behind one model. One classifier and one reader serve all four; an edit
guesses the backend of a file from the shapes of its lines and renders the model in
that syntax.
-/
namespace Detent.Source.Network
open Lib Lib.Text Source.Align Source.Doc

structure Route where
  dest : Text
  via : Text
  deriving DecidableEq, Repr

structure Vlan where
  link : Text
  id : Fin 65536
  deriving DecidableEq, Repr

structure Bridge where
  members : List Text
  deriving DecidableEq, Repr

structure Interface where
  name : Text
  dhcpV4 : Bool := false
  dhcpV6 : Bool := false
  addresses : List Text := []
  gatewayV4 : Option Text := none
  gatewayV6 : Option Text := none
  dns : List Text := []
  routes : List Route := []
  vlan : Option Vlan := none
  bridge : Option Bridge := none
  deriving DecidableEq, Repr

structure Model where
  interfaces : List Interface
  deriving DecidableEq, Repr

section Lines

def isCommentStart (raw : Text) : Bool :=
  match trimStart raw with
  | c :: _ => c == '#' || c == ';'
  | [] => false

/-- A `Key=Value` line of the two INI formats. -/
def parseKvEquals (raw : Text) : Option (Text × Text) :=
  let trimmed := trim raw
  if trimmed.isEmpty || isCommentStart trimmed || trimmed.head? == some '[' then none
  else match splitOnceP (· == '=') trimmed with
    | none => none
    | some (key, value) =>
      let key := trim key
      if key.isEmpty || key.any isWhitespace then none else some (key, trim value)

/-- A section header `[Name]`. -/
def parseSection (raw : Text) : Option Text :=
  match trim raw with
  | '[' :: rest =>
    match stripLast ']' rest with
    | some inner =>
      let inner := trim inner
      if inner.isEmpty then none else some inner
    | none => none
  | _ => none

def networkdKeys : List Text :=
  ["Name", "DHCP", "Address", "Gateway", "DNS", "Destination", "Id", "Kind", "VLAN", "Bridge"].map
    String.toList

def isNetworkdKey (key : Text) : Bool := networkdKeys.contains key

def networkdSections : List Text :=
  ["Match", "Network", "Address", "Route", "VLAN", "NetDev"].map String.toList

def isNetworkdSection (section_ : Text) : Bool := networkdSections.contains section_

def nmKeys : List Text :=
  ["id", "type", "method", "addresses", "gateway", "dns", "interface-name", "master", "slave-type",
    "parent"].map String.toList

def isNmKey (key : Text) : Bool := nmKeys.contains key

def nmSections : List Text :=
  ["connection", "ethernet", "ipv4", "ipv6", "bridge", "vlan", "wifi"].map String.toList

def isNmSection (section_ : Text) : Bool := nmSections.contains section_

def startsWithSpace (t : Text) : Bool :=
  match t with
  | c :: _ => isWhitespace c
  | [] => false

/-- `auto <iface>`. -/
def parseIfupdownAuto (raw : Text) : Option Text :=
  match stripStart "auto".toList (trim raw) with
  | some rest =>
    if !startsWithSpace rest then none
    else
      let name := trim rest
      if name.isEmpty || name.any isWhitespace then none else some name
  | none => none

/-- `iface <name> inet <method>`. -/
def parseIfupdownIface (raw : Text) : Option (Text × Text) :=
  match stripStart "iface".toList (trim raw) with
  | some rest =>
    if !startsWithSpace rest then none
    else match splitWhitespace rest with
      | [name, inet, method] =>
        if inet = "inet".toList ∨ inet = "inet6".toList then some (name, method) else none
      | _ => none
  | none => none

def ifupdownOptions : List Text :=
  ["address", "netmask", "gateway", "dns-nameservers", "dns-nameserver", "vlan-raw-device",
    "vlan_id", "bridge_ports", "bridge-ports", "up", "mtu"].map String.toList

/-- An indented option of a stanza. -/
def parseIfupdownOption (raw : Text) : Option (Text × Text) :=
  if !startsWithSpace raw then none
  else
    let t := trim raw
    if t.isEmpty || isCommentStart t then none
    else if startsWith "auto".toList t || startsWith "iface".toList t ||
        startsWith "source".toList t then none
    else
      let key := t.takeWhile (fun c => !isWhitespace c)
      let value := trim (t.dropWhile (fun c => !isWhitespace c))
      if ifupdownOptions.contains key then some (key, value) else none

/-- `source` and `source-directory`. -/
def isIfupdownSource (raw : Text) : Bool :=
  startsWith "source ".toList (trim raw) || startsWith "source-directory ".toList (trim raw)

/-- Leading spaces; a tab counts as two. -/
def indentOf (raw : Text) : Nat :=
  ((raw.takeWhile (fun c => c == ' ' || c == '\t')).map (fun c => if c = '\t' then 2 else 1)).sum

def knownLeaves : List Text :=
  ["network", "version", "ethernets", "vlans", "bridges", "dhcp4", "dhcp6", "addresses", "gateway4",
    "gateway6", "nameservers", "routes", "to", "via", "id", "link", "interfaces", "optional"].map
    String.toList

/-- Anchors, aliases and tags are opaque. -/
def isOpaque (value : Text) : Bool :=
  match value with
  | c :: _ => c == '&' || c == '*' || c == '!'
  | [] => false

/-- A netplan `key: value` line: its indent, key and value. -/
def parseNetplanKv (raw : Text) : Option (Nat × Text × Text) :=
  let t := trim raw
  if t.isEmpty || isCommentStart t || t.head? == some '-' then none
  else match splitOnceP (· == ':') t with
    | none => none
    | some (key, value) =>
      let key := trim key
      let value := trim value
      if key.isEmpty || key.any isWhitespace || key.any (· == '/') then none
      else if !knownLeaves.contains key && !value.isEmpty then none
      else if isOpaque value then none
      else some (indentOf raw, key, value)

def netplanCollections : List Text := ["ethernets", "vlans", "bridges"].map String.toList

def netplanIfaceKeys : List Text :=
  ["dhcp4", "dhcp6", "addresses", "gateway4", "gateway6", "nameservers", "routes", "id", "link",
    "interfaces"].map String.toList

def isModeledNetplanPath (path : List Text) : Bool :=
  match path with
  | [network] => network = "network".toList
  | [network, key] =>
    network = "network".toList && (key = "version".toList || netplanCollections.contains key)
  | [network, collection, _] => network = "network".toList && netplanCollections.contains collection
  | [network, collection, _, key] =>
    network = "network".toList && netplanCollections.contains collection &&
      netplanIfaceKeys.contains key
  | [network, collection, _, nameservers, addresses] =>
    network = "network".toList && nameservers = "nameservers".toList &&
      addresses = "addresses".toList && netplanCollections.contains collection
  | _ => false

def opensNetplanBlock (raw : Text) : Bool :=
  match parseNetplanKv raw with
  | some (indent, _, value) => decide (indent ≤ 4) && value.isEmpty
  | none => false

/-- A netplan `- ...` item: its indent and value. -/
def parseNetplanListItem (raw : Text) : Option (Nat × Text) :=
  let t := trim raw
  if !startsWith "- ".toList t && t ≠ ['-'] then none
  else
    let value := trim ((stripStart "- ".toList t).getD [])
    if isOpaque value then none else some (indentOf raw, value)

def classify (raw : Text) : LineKind :=
  if (trim raw).isEmpty then .blank
  else if isCommentStart raw then .comment
  else match parseSection raw with
    | some section_ =>
      if isNetworkdSection section_ || isNmSection section_ then .directive else .unknown
    | none =>
      match parseKvEquals raw with
      | some (key, _) => if isNetworkdKey key || isNmKey key then .directive else .unknown
      | none =>
        if (parseIfupdownAuto raw).isSome || (parseIfupdownIface raw).isSome ||
            (parseIfupdownOption raw).isSome then .directive
        else if (parseNetplanKv raw).isSome || (parseNetplanListItem raw).isSome then .directive
        else .unknown

def isDirectiveLike (raw : Text) : Bool := classify raw == .directive

/-- `trim_matches` of one character. -/
def trimMatches (c : Char) (t : Text) : Text := (t.dropWhile (· == c)).rdropWhile (· == c)

/-- An inline list `[a, b]`. -/
def parseInlineList (value : Text) : Option (List Text) :=
  match trim value with
  | '[' :: rest =>
    match stripLast ']' rest with
    | some inner =>
      if (trim inner).isEmpty then some []
      else some (((inner.splitOn ',').map
        (fun part => trimMatches '\'' (trimMatches '"' (trim part)))).filter (!·.isEmpty))
    | none => none
  | _ => none

end Lines

section Reader

/-- The locals of `build_model_from_lines`. `ifaces` holds each name once, in the order
of first mention; `consumed` says that the next line was read with the one before. -/
structure Builder where
  ifaces : List Interface := []
  currentIface : Option Text := none
  currentSection : Text := []
  netplanStack : List (Nat × Text) := []
  netplanIface : Option Text := none
  pendingRouteTo : Option Text := none
  unmodeled : List Nat := []
  consumed : Bool := false
  deriving DecidableEq, Repr

/-- `entry(name).or_insert_with(..)`. -/
def Builder.ensure (builder : Builder) (name : Text) : Builder :=
  if builder.ifaces.any (fun iface => decide (iface.name = name)) then builder
  else { builder with ifaces := builder.ifaces ++ [{ name }] }

/-- `get_mut(name)`, where there is such an entry. -/
def Builder.update (builder : Builder) (name : Option Text) (f : Interface → Interface) : Builder :=
  match name with
  | some name =>
    { builder with ifaces := builder.ifaces.map (fun iface => if iface.name = name then f iface else iface) }
  | none => builder

/-- A gateway goes to the family it is written in. -/
def setGateway (gateway : Text) (iface : Interface) : Interface :=
  if gateway.any (· == ':') then { iface with gatewayV6 := some gateway }
  else { iface with gatewayV4 := some gateway }

def setVlanId (link : Text) (id : Fin 65536) (iface : Interface) : Interface :=
  { iface with vlan := some ⟨(iface.vlan.map (·.link)).getD link, id⟩ }

def setVlanLink (link : Text) (iface : Interface) : Interface :=
  { iface with vlan := some ⟨link, (iface.vlan.map (·.id)).getD 0⟩ }

/-- The leaf of an interface in netplan. -/
def netplanLeaf (path : List Text) (key value : Text) (iface : Interface) : Interface :=
  let truth := decide (value = "true".toList ∨ value = "yes".toList)
  if key = "dhcp4".toList then { iface with dhcpV4 := truth }
  else if key = "dhcp6".toList then { iface with dhcpV6 := truth }
  else if key = "gateway4".toList ∧ value ≠ [] then { iface with gatewayV4 := some value }
  else if key = "gateway6".toList ∧ value ≠ [] then { iface with gatewayV6 := some value }
  else if key = "addresses".toList then
    match parseInlineList value with
    | some list =>
      if path.reverse[1]? = some "nameservers".toList then { iface with dns := iface.dns ++ list }
      else { iface with addresses := iface.addresses ++ list }
    | none =>
      if value ≠ [] ∧ value.head? ≠ some '[' then { iface with addresses := iface.addresses ++ [value] }
      else iface
  else if key = "id".toList then
    match IpAddr.parseU16 value with
    | some id => setVlanId [] id iface
    | none => iface
  else if key = "link".toList ∧ value ≠ [] then setVlanLink value iface
  else if key = "interfaces".toList then
    match parseInlineList value with
    | some list => { iface with bridge := some ⟨list⟩ }
    | none => iface
  else iface

/-- A netplan key, with the stack it leaves. -/
def Builder.netplanKv (builder : Builder) (row indent : Nat) (key value : Text) : Builder :=
  let stack := builder.netplanStack.rdropWhile (fun (depth, _) => decide (depth ≥ indent)) ++
    [(indent, key)]
  let path := stack.map (·.2)
  let builder := { builder with netplanStack := stack }
  let modeled := isModeledNetplanPath path
  let builder :=
    if !modeled then { builder with unmodeled := builder.unmodeled ++ [row] }
    else if path.length = 3 then { builder.ensure key with netplanIface := some key }
    else builder.update builder.netplanIface (netplanLeaf path key value)
  if modeled && path.getLast? == some "nameservers".toList && !value.isEmpty then
    match parseInlineList value with
    | some list => builder.update builder.netplanIface (fun iface => { iface with dns := iface.dns ++ list })
    | none => builder
  else builder

/-- The `via:` line that follows a `- to:` item and belongs to it. -/
def viaAfter (indent : Nat) (next : Option Text) : Option Text :=
  match next.bind parseNetplanKv with
  | some (nextIndent, key, value) =>
    if key = "via".toList ∧ nextIndent > indent then some value else none
  | none => none

/-- A `- via:` item completes the pending route. -/
def completeRoute (dest via : Text) (iface : Interface) : Interface :=
  match iface.routes.getLast? with
  | some last =>
    if last.dest = dest ∧ last.via = [] then
      { iface with routes := iface.routes.dropLast ++ [{ last with via }] }
    else { iface with routes := iface.routes ++ [⟨dest, via⟩] }
  | none => { iface with routes := iface.routes ++ [⟨dest, via⟩] }

/-- An item of the `routes` list. -/
def Builder.netplanRoute (builder : Builder) (indent : Nat) (value : Text) (next : Option Text) :
    Builder :=
  match stripStart "to:".toList value with
  | some dest =>
    let dest := trim dest
    let builder := { builder with pendingRouteTo := some dest }
    match viaAfter indent next with
    | some via =>
      { builder.update builder.netplanIface
          (fun iface => { iface with routes := iface.routes ++ [⟨dest, via⟩] }) with consumed := true }
    | none => builder
  | none =>
    match stripStart "via:".toList value, builder.netplanIface, builder.pendingRouteTo with
    | some via, some _, some dest =>
      { builder.update builder.netplanIface (completeRoute dest (trim via)) with
        pendingRouteTo := none }
    | _, _, _ => builder

/-- A netplan list item. -/
def Builder.netplanItem (builder : Builder) (row indent : Nat) (value : Text) (next : Option Text) :
    Builder :=
  let path := builder.netplanStack.map (·.2)
  let parent := path.getLast?.getD []
  if !isModeledNetplanPath path || !(parent = "addresses".toList || parent = "routes".toList ||
      parent = "nameservers".toList) then { builder with unmodeled := builder.unmodeled ++ [row] }
  else if parent = "addresses".toList then
    if value.isEmpty then builder
    else if path.reverse[1]? = some "nameservers".toList then
      builder.update builder.netplanIface (fun iface => { iface with dns := iface.dns ++ [value] })
    else builder.update builder.netplanIface
      (fun iface => { iface with addresses := iface.addresses ++ [value] })
  else if parent = "routes".toList then builder.netplanRoute indent value next
  else if value.isEmpty then builder
  else builder.update builder.netplanIface (fun iface => { iface with dns := iface.dns ++ [value] })

/-- `DHCP=` of networkd. -/
def networkdDhcp (value : Text) (iface : Interface) : Interface :=
  let low := toAsciiLowercase value
  if low = "ipv4".toList then { iface with dhcpV4 := true, dhcpV6 := false }
  else if low = "ipv6".toList then { iface with dhcpV4 := false, dhcpV6 := true }
  else
    let on := decide (low = "yes".toList ∨ low = "true".toList)
    { iface with dhcpV4 := on, dhcpV6 := on }

/-- The nonempty parts of a list value. -/
def partsOf (isSep : Char → Bool) (value : Text) : List Text :=
  ((value.splitOnP isSep).map trim).filter (!·.isEmpty)

/-- One `address/prefix[,gateway]` of an `addresses=` list. -/
def nmAddress (iface : Interface) (part : Text) : Interface :=
  match part.splitOn ',' with
  | [] => iface
  | address :: rest =>
    let address := trim address
    let iface := if address.isEmpty then iface
      else { iface with addresses := iface.addresses ++ [address] }
    match rest with
    | [] => iface
    | gateway :: _ => if (trim gateway).isEmpty then iface else setGateway (trim gateway) iface

/-- What a key of the two INI formats says of the current interface. -/
def iniKey (section_ : Text) (ifaceName key value : Text) (iface : Interface) : Interface :=
  let inRoute := decide (section_ = "Route".toList)
  let inIp := decide (section_ = "ipv4".toList ∨ section_ = "ipv6".toList)
  let isV4 := decide (section_ = "ipv4".toList)
  if key = "DHCP".toList then networkdDhcp value iface
  else if key = "Address".toList ∧ value ≠ [] then
    { iface with addresses := iface.addresses ++ [value] }
  else if key = "Gateway".toList ∧ value ≠ [] ∧ !inRoute then setGateway value iface
  else if key = "DNS".toList ∧ value ≠ [] then
    { iface with dns := iface.dns ++ partsOf (fun c => c == ',' || c == ' ') value }
  else if key = "Destination".toList ∧ inRoute ∧ value ≠ [] then
    { iface with routes := iface.routes ++ [⟨value, []⟩] }
  else if key = "VLAN".toList ∧ value ≠ [] then
    match splitOnceP (· == ':') value with
    | some (link, id) =>
      match IpAddr.parseU16 (trim id) with
      | some id => { iface with vlan := some ⟨trim link, id⟩ }
      | none => iface
    | none => iface
  else if key = "Id".toList ∧ section_ = "VLAN".toList then
    match IpAddr.parseU16 value with
    | some id => setVlanId ifaceName id iface
    | none => iface
  else if key = "method".toList ∧ inIp then
    if value = "auto".toList then
      if isV4 then { iface with dhcpV4 := true } else { iface with dhcpV6 := true }
    else if value = "manual".toList then
      if isV4 then { iface with dhcpV4 := false } else { iface with dhcpV6 := false }
    else iface
  else if key = "addresses".toList ∧ inIp ∧ value ≠ [] then
    (partsOf (· == ';') value).foldl nmAddress iface
  else if key = "gateway".toList ∧ inIp ∧ value ≠ [] then setGateway value iface
  else if key = "dns".toList ∧ inIp ∧ value ≠ [] then
    { iface with dns := iface.dns ++ partsOf (· == ';') value }
  else iface

/-- `Gateway=` after a `Destination=`. -/
def routeGateway (value : Text) (iface : Interface) : Interface :=
  match iface.routes.getLast? with
  | some last =>
    if last.via = [] then { iface with routes := iface.routes.dropLast ++ [{ last with via := value }] }
    else iface
  | none => iface

def Builder.ini (builder : Builder) (key value : Text) : Builder :=
  if (builder.currentSection = "connection".toList ∧ key = "id".toList ∧ value ≠ []) ∨
      (key = "Name".toList ∧ builder.currentSection = "Match".toList ∧ value ≠ []) then
    { builder.ensure value with currentIface := some value }
  else
    let section_ := builder.currentSection
    builder.update builder.currentIface (fun iface =>
      let iface := iniKey section_ iface.name key value iface
      if key = "Gateway".toList ∧ section_ = "Route".toList then routeGateway value iface else iface)

/-- `up ip route add <to> via <via>`. -/
def routeCommand (value : Text) : Option Route :=
  match splitWhitespace value with
  | ip :: route :: add :: words =>
    if ip = "ip".toList ∧ route = "route".toList ∧ add = "add".toList ∧ words.length ≥ 2 then
      let position := (ip :: route :: add :: words).idxOf "via".toList
      if position = words.length + 1 then
        let dest := join [' '] (words.take (words.length - 2))
        let via := (words.getLast?).getD []
        if dest ≠ [] ∧ via ≠ [] then some ⟨dest, via⟩ else none
      else none
    else none
  | _ => none

/-- What an option of a stanza says of its interface. -/
def ifupdownOption (key value : Text) (iface : Interface) : Interface :=
  if key = "address".toList ∧ value ≠ [] then { iface with addresses := iface.addresses ++ [value] }
  else if key = "gateway".toList ∧ value ≠ [] then setGateway value iface
  else if (key = "dns-nameservers".toList ∨ key = "dns-nameserver".toList) ∧ value ≠ [] then
    { iface with dns := iface.dns ++ splitWhitespace value }
  else if key = "vlan-raw-device".toList ∧ value ≠ [] then setVlanLink value iface
  else if key = "vlan_id".toList then
    match IpAddr.parseU16 value with
    | some id => setVlanId iface.name id iface
    | none => iface
  else if (key = "bridge_ports".toList ∨ key = "bridge-ports".toList) ∧ value ≠ [] then
    { iface with bridge := some ⟨splitWhitespace value⟩ }
  else if key = "up".toList ∧ value ≠ [] then
    match routeCommand value with
    | some route => { iface with routes := iface.routes ++ [route] }
    | none => iface
  else iface

/-- The family is the third word: the name may itself read `inet6`. -/
def ifaceMethod (raw method : Text) (iface : Interface) : Interface :=
  if method = "dhcp".toList then
    if (splitWhitespace raw)[2]? = some "inet6".toList then { iface with dhcpV6 := true }
    else { iface with dhcpV4 := true }
  else iface

/-- One line. The netplan shapes are tried first, then INI, then ifupdown. -/
def Builder.step (builder : Builder) (row : Nat) (raw : Text) (next : Option Text) : Builder :=
  match parseNetplanKv raw with
  | some (indent, key, value) => builder.netplanKv row indent key value
  | none =>
    match parseNetplanListItem raw with
    | some (indent, value) => builder.netplanItem row indent value next
    | none =>
      match parseSection raw with
      | some section_ => { builder with currentSection := section_ }
      | none =>
        match parseKvEquals raw with
        | some (key, value) => builder.ini key value
        | none =>
          match parseIfupdownAuto raw with
          | some name => { builder.ensure name with currentIface := some name }
          | none =>
            match parseIfupdownIface raw with
            | some (name, method) =>
              let builder := { builder.ensure name with currentIface := some name }
              builder.update (some name) (ifaceMethod raw method)
            | none =>
              match parseIfupdownOption raw with
              | some (key, value) => builder.update builder.currentIface (ifupdownOption key value)
              | none => builder

/-- The `while` loop, from line `row` on. -/
def buildFrom : Nat → List Text → Builder → Builder
  | _, [], builder => builder
  | row, raw :: rest, builder =>
    if builder.consumed then buildFrom (row + 1) rest { builder with consumed := false }
    else buildFrom (row + 1) rest (builder.step row raw rest.head?)

def byName (a b : Interface) : Prop := a.name ≤ b.name

instance : DecidableRel byName := fun a b => inferInstanceAs (Decidable (a.name ≤ b.name))

/-- The model of some lines, and the rows of the netplan lines it does not read. -/
def buildModelFromLines (lines : List Text) : Model × List Nat :=
  let builder := buildFrom 0 lines {}
  (⟨builder.ifaces.insertionSort byName⟩, builder.unmodeled)

end Reader

section Flavor

inductive BackendFlavor where
  | networkd
  | networkManager
  | ifupdown
  | netplan
  deriving DecidableEq, Repr

/-- The backend that the shape of a directive is counted for. -/
def shapeOf (raw : Text) : Option BackendFlavor :=
  match parseSection raw with
  | some section_ =>
    if isNetworkdSection section_ then some .networkd
    else if isNmSection section_ then some .networkManager
    else none
  | none =>
    match parseKvEquals raw with
    | some (key, _) =>
      if isNetworkdKey key then some .networkd
      else if isNmKey key then some .networkManager
      else none
    | none =>
      if (parseIfupdownAuto raw).isSome || (parseIfupdownIface raw).isSome ||
          (parseIfupdownOption raw).isSome then some .ifupdown
      else if (parseNetplanKv raw).isSome || (parseNetplanListItem raw).isSome then some .netplan
      else none

/-- The backend that a line is counted for: a `source` line is no directive, but only
ifupdown has it. -/
def countedFor (line : Line) : Option BackendFlavor :=
  if isIfupdownSource line.raw then some .ifupdown
  else if line.kind ≠ .directive then none
  else shapeOf line.raw

def detectFlavor (doc : Document) : BackendFlavor :=
  let count := fun flavor => doc.lines.countP (fun line => countedFor line == some flavor)
  let most := max (max (max (count .networkd) (count .networkManager)) (count .ifupdown))
    (count .netplan)
  if most = 0 then .networkd
  else if count .netplan = most then .netplan
  else if count .ifupdown = most then .ifupdown
  else if count .networkManager = most then .networkManager
  else .networkd

end Flavor

section Render

def isValidIp (t : Text) : Bool := (IpAddr.parse t).isSome

/-- `addr/prefix`, the prefix required. -/
def isValidCidr (t : Text) : Bool :=
  match splitOnceP (· == '/') t with
  | none => false
  | some (ip, bits) =>
    if ip.isEmpty || !bits.all isAsciiDigit then false
    else if !isValidIp ip then false
    else match IpAddr.parseUnsigned 256 bits with
      | none => false
      | some bits => if ip.any (· == ':') then decide (bits.val ≤ 128) else decide (bits.val ≤ 32)

/-- A route is one destination and one next hop. -/
def checkRoute (route : Route) (viaRequired : Bool) : Except EditError Unit :=
  if (route.dest = "default".toList || isValidCidr route.dest || isValidIp route.dest) &&
      (isValidIp route.via || (!viaRequired && route.via.isEmpty)) then .ok ()
  else .error (.unsupported ("route " ++ debug route.dest ++ " via " ++ debug route.via ++
    " is not a destination and a next-hop address"))

def isValidIfname (t : Text) : Bool :=
  !t.isEmpty && t.all (fun c => isAsciiAlphanumeric c || c == '-' || c == '_' || c == '.')

/-- The first value of an interface that is not its field's syntax. -/
def badValue (iface : Interface) : Option Text :=
  ((iface.name :: (iface.vlan.toList.map (·.link) ++ iface.bridge.toList.flatMap (·.members))).find?
      (fun name => !isValidIfname name)).or
    ((iface.addresses.find? (fun address => !isValidCidr address)).or
      ((iface.gatewayV4.filter (fun gateway => (IpAddr.parseV4 gateway).isNone)).or
        ((iface.gatewayV6.filter (fun gateway => (IpAddr.parseV6 gateway).isNone)).or
          (iface.dns.find? (fun server => !isValidIp server)))))

def checkInterface (iface : Interface) : Except EditError Unit :=
  match badValue iface with
  | none => .ok ()
  | some value => .error (.unsupported (debug value ++ " is not valid for its field of interface " ++
      debug iface.name))

def u16 (n : Fin 65536) : Text := Nat.toDigits 10 n.val

def renderNetworkdRoute (route : Route) : Except EditError (List Text) := do
  checkRoute route false
  pure [[], "[Route]".toList, "Destination=".toList ++ route.dest, "Gateway=".toList ++ route.via]

def renderNetworkd (iface : Interface) : Except EditError (List Text) := do
  if iface.bridge.isSome then
    throw (.unsupported ("systemd-networkd cannot hold the bridge of " ++ debug iface.name))
  let dhcp := match iface.dhcpV4, iface.dhcpV6 with
    | true, true => "yes"
    | true, false => "ipv4"
    | false, true => "ipv6"
    | false, false => "no"
  let routes ← iface.routes.mapM renderNetworkdRoute
  pure (["[Match]".toList, "Name=".toList ++ iface.name, [], "[Network]".toList,
      "DHCP=".toList ++ dhcp.toList] ++
    iface.addresses.map ("Address=".toList ++ ·) ++
    iface.gatewayV4.toList.map ("Gateway=".toList ++ ·) ++
    iface.gatewayV6.toList.map ("Gateway=".toList ++ ·) ++
    (if iface.dns.isEmpty then [] else ["DNS=".toList ++ join [' '] iface.dns]) ++
    iface.vlan.toList.map (fun vlan => "VLAN=".toList ++ vlan.link ++ ':' :: u16 vlan.id) ++
    routes.flatten ++
    (iface.vlan.toList.filter (fun vlan => decide (vlan.id ≠ 0))).flatMap
      (fun vlan => [[], "[VLAN]".toList, "Id=".toList ++ u16 vlan.id]))

/-- `key=` and the values, where there are any. -/
def nmList (key : String) (values : List Text) : List Text :=
  if values.isEmpty then [] else [key.toList ++ join [';'] values]

def isV6 (value : Text) : Bool := value.any (· == ':')

def renderNm (iface : Interface) : Except EditError (List Text) := do
  if !iface.routes.isEmpty || iface.bridge.isSome then
    throw (.unsupported ("NetworkManager keyfiles cannot hold the routes or bridge of " ++
      debug iface.name))
  let v4 := (iface.addresses.filter (!isV6 ·)).map (fun address =>
    match iface.gatewayV4 with
    | some gateway => address ++ ',' :: gateway
    | none => address)
  pure (["[connection]".toList, "id=".toList ++ iface.name, "type=ethernet".toList,
      "interface-name=".toList ++ iface.name, [], "[ethernet]".toList, [], "[ipv4]".toList] ++
    (if iface.addresses.isEmpty then ["method=auto".toList]
      else "method=manual".toList :: nmList "addresses=" v4) ++
    nmList "dns=" (iface.dns.filter (!isV6 ·)) ++
    [[], "[ipv6]".toList] ++
    (if iface.dhcpV6 then ["method=auto".toList]
      else "method=disabled".toList :: iface.gatewayV6.toList.map ("gateway=".toList ++ ·)) ++
    nmList "addresses=" (iface.addresses.filter isV6) ++
    nmList "dns=" (iface.dns.filter isV6) ++
    iface.vlan.toList.flatMap (fun vlan =>
      [[], "[vlan]".toList, "id=".toList ++ u16 vlan.id, "parent=".toList ++ vlan.link]))

def renderIfupdownRoute (route : Route) : Except EditError Text := do
  checkRoute route true
  pure ("\tup ip route add ".toList ++ route.dest ++ " via ".toList ++ route.via)

def renderBridgePorts (iface : Interface) (bridge : Bridge) : Except EditError Text :=
  if bridge.members.isEmpty then
    .error (.unsupported ("ifupdown cannot hold the memberless bridge " ++ debug iface.name))
  else .ok ("\tbridge_ports ".toList ++ join [' '] bridge.members)

def renderIfupdown (iface : Interface) : Except EditError (List Text) := do
  let method :=
    if iface.dhcpV4 && iface.addresses.isEmpty then "dhcp"
    else if iface.name = "lo".toList ∧ iface.addresses.isEmpty then "loopback"
    else "static"
  let v6 := iface.addresses.filter isV6
  let ports ← iface.bridge.toList.mapM (renderBridgePorts iface)
  let routes ← iface.routes.mapM renderIfupdownRoute
  pure (["auto ".toList ++ iface.name,
      "iface ".toList ++ iface.name ++ " inet ".toList ++ method.toList] ++
    (iface.addresses.filter (!isV6 ·)).map ("\taddress ".toList ++ ·) ++
    (if !v6.isEmpty then
      ("iface ".toList ++ iface.name ++ " inet6 static".toList) :: v6.map ("\taddress ".toList ++ ·) ++
        iface.gatewayV6.toList.map ("\tgateway ".toList ++ ·)
    else if iface.dhcpV6 then ["iface ".toList ++ iface.name ++ " inet6 dhcp".toList]
    else []) ++
    iface.gatewayV4.toList.map ("\tgateway ".toList ++ ·) ++
    (if iface.dns.isEmpty then [] else ["\tdns-nameservers ".toList ++ join [' '] iface.dns]) ++
    iface.vlan.toList.flatMap (fun vlan =>
      ["\tvlan-raw-device ".toList ++ vlan.link, "\tvlan_id ".toList ++ u16 vlan.id]) ++
    ports ++ routes)

def renderNetplanRoute (route : Route) : Except EditError (List Text) := do
  checkRoute route false
  pure ["        - to: ".toList ++ route.dest, "          via: ".toList ++ route.via]

def yamlBool (value : Bool) : Text := if value then "true".toList else "false".toList

/-- The keys that every kind of netplan interface shares. -/
def renderNetplanIface (iface : Interface) : Except EditError (List Text) := do
  let routes ← iface.routes.mapM renderNetplanRoute
  pure (["      dhcp4: ".toList ++ yamlBool iface.dhcpV4,
      "      dhcp6: ".toList ++ yamlBool iface.dhcpV6] ++
    (if iface.addresses.isEmpty then []
      else "      addresses:".toList :: iface.addresses.map ("        - ".toList ++ ·)) ++
    iface.gatewayV4.toList.map ("      gateway4: ".toList ++ ·) ++
    iface.gatewayV6.toList.map ("      gateway6: ".toList ++ ·) ++
    (if iface.dns.isEmpty then []
      else ["      nameservers:".toList,
        "        addresses: [".toList ++ join [',', ' '] iface.dns ++ [']']]) ++
    (if iface.routes.isEmpty then [] else "      routes:".toList :: routes.flatten))

/-- One collection: its header, and each interface with the lines of its kind. -/
def renderCollection (header : String) (members : List (Interface × List Text)) :
    Except EditError (List Text) := do
  let blocks ← members.mapM (fun (iface, kind) => do
    let shared ← renderNetplanIface iface
    pure (("    ".toList ++ iface.name ++ [':']) :: kind ++ shared))
  pure (if members.isEmpty then [] else header.toList :: blocks.flatten)

def renderNetplan (model : Model) : Except EditError (List Text) := do
  let ethernets := (model.interfaces.filter
    (fun iface => iface.vlan.isNone && iface.bridge.isNone)).map (fun iface => (iface, []))
  let vlans := model.interfaces.flatMap (fun iface => iface.vlan.toList.map (fun vlan =>
    (iface, ["      id: ".toList ++ u16 vlan.id, "      link: ".toList ++ vlan.link])))
  let bridges := model.interfaces.flatMap (fun iface => iface.bridge.toList.map (fun bridge =>
    (iface, ["      interfaces: [".toList ++ join [',', ' '] bridge.members ++ [']']])))
  let ethernets ← renderCollection "  ethernets:" ethernets
  let vlans ← renderCollection "  vlans:" vlans
  let bridges ← renderCollection "  bridges:" bridges
  pure (["network:".toList, "  version: 2".toList] ++ ethernets ++ vlans ++ bridges)

/-- The blocks of the interfaces with a blank line between them. -/
def blankBetween : List (List Text) → List Text
  | [] => []
  | [block] => block
  | block :: blocks => block ++ [] :: blankBetween blocks

def renderModelLines (flavor : BackendFlavor) (model : Model) : Except EditError (List Text) := do
  model.interfaces.forM checkInterface
  match flavor with
  | .networkd => do
    let blocks ← model.interfaces.mapM renderNetworkd
    pure (blankBetween blocks)
  | .networkManager => do
    let blocks ← model.interfaces.mapM renderNm
    pure (blankBetween blocks)
  | .ifupdown => do
    let blocks ← model.interfaces.mapM renderIfupdown
    pure (blankBetween blocks)
  | .netplan => renderNetplan model

end Render

section Edit

def parse (src : Text) : Document := Doc.parse src classify

def toModel (doc : Document) : Model := (buildModelFromLines (doc.lines.map (·.raw))).1

/-- Whether a document parses back to `model`, ignoring interface order. -/
def roundTrips (doc : Document) (model : Model) : Bool :=
  (toModel (parse doc.render)).interfaces.insertionSort byName = model.interfaces.insertionSort byName

/-- The `(section, key)` of a networkd directive; a header has an empty key. -/
def networkdScope (raw current : Text) : Option (Text × Text) :=
  match parseSection raw with
  | some section_ => if isNetworkdSection section_ then some (section_, []) else none
  | none =>
    match parseKvEquals raw with
    | some (key, _) => if isNetworkdKey key && !current.isEmpty then some (current, key) else none
    | none => none

/-- The section in force after a line of the document. -/
def sectionAfter (raw current : Text) : Text :=
  match parseSection raw with
  | some section_ => if isNetworkdSection section_ then section_ else []
  | none => current

/-- The directive lines inside a known networkd section, as `(row, raw, scope)`. -/
def managedFrom : Nat → Text → List Line → List (Nat × Text × Text × Text)
  | _, _, [] => []
  | row, current, line :: lines =>
    let rest := managedFrom (row + 1) (sectionAfter line.raw current) lines
    if line.kind = .directive then
      match networkdScope line.raw current with
      | some scope => (row, line.raw, scope) :: rest
      | none => rest
    else rest

def managedLines (doc : Document) : List (Nat × Text × Text × Text) := managedFrom 0 [] doc.lines

/-- The planned lines that have a scope, with it. -/
def scopedFrom : Text → List Text → List (Text × Text × Text)
  | _, [] => []
  | current, raw :: lines =>
    match networkdScope raw current with
    | some (section_, key) =>
      (raw, section_, key) :: scopedFrom (if key.isEmpty then section_ else current) lines
    | none => scopedFrom current lines

/-- Pairs the removed and added lines of one run of changes by scope, in order. -/
def settleScopes (scopes : List (Text × Text)) :
    List (Nat × Text × Text) → List Nat → List (Nat × Nat) → List (Nat × Nat)
  | _, [], partner => partner
  | deleted, new :: inserted, partner =>
    match scopes[new]?.bind (fun scope => deleted.find? (fun x => decide (x.2 = scope))) with
    | some (old, scope) =>
      settleScopes scopes (deleted.erase (old, scope)) inserted (partner ++ [(old, new)])
    | none => settleScopes scopes deleted inserted partner

/-- The partners `(managed, planned)` that an edit script gives. -/
def pairSteps (managed : List (Nat × Text × Text × Text)) (scopes : List (Text × Text)) :
    List Step → List (Nat × Text × Text) → List Nat → List (Nat × Nat) → List (Nat × Nat)
  | [], deleted, inserted, partner => settleScopes scopes deleted inserted partner
  | .delete old :: steps, deleted, inserted, partner =>
    pairSteps managed scopes steps
      (deleted ++ (managed[old]?.map (fun line => (old, line.2.2))).toList) inserted partner
  | .insert new :: steps, deleted, inserted, partner =>
    pairSteps managed scopes steps deleted (inserted ++ [new]) partner
  | .equal old new :: steps, deleted, inserted, partner =>
    pairSteps managed scopes steps [] []
      (settleScopes scopes deleted inserted partner ++ [(old, new)])

def pairAligned (managed : List (Nat × Text × Text × Text)) (planned : List (Text × Text × Text)) :
    List (Nat × Nat) :=
  pairSteps managed (planned.map (·.2))
    (alignOrReplace (managed.map (·.2.1)) (planned.map (·.1))) [] [] []

/-- The first loop: each managed line is kept, rewritten or removed. -/
def placeManaged (planned : List (Text × Text × Text)) (partner : List (Nat × Nat)) :
    Nat → List (Nat × Text × Text × Text) → EntryPlan → List (Nat × Nat) →
      Except EditError (EntryPlan × List (Nat × Nat))
  | _, [], plan, placed => pure (plan, placed)
  | index, (row, raw, _) :: managed, plan, placed =>
    match (partner.lookup index).bind (fun new => planned[new]?.map (fun line => (new, line.1))) with
    | none => placeManaged planned partner (index + 1) managed (plan.addRemove row) placed
    | some (new, want) => do
      let plan ← if raw ≠ want then plan.addReplace row want else pure plan
      placeManaged planned partner (index + 1) managed plan (placed ++ [(new, row + 1)])

/-- `placed.range(..new).next_back()`: the place of the last planned line before `new`. -/
def placedBefore (placed : List (Nat × Nat)) (new : Nat) : Option Nat :=
  ((placed.filter (fun x => decide (x.1 < new))).insertionSort (fun a b => a.1 ≤ b.1)).getLast?.map
    (·.2)

/-- The second loop: surplus planned lines go after their planned predecessor, and
those without one to the end. -/
def placeSurplus (doc : Document) : Nat → List (Text × Text × Text) → EntryPlan →
    List (Nat × Nat) → List Text → Except EditError (EntryPlan × List Text)
  | _, [], plan, _, atEnd => pure (plan, atEnd)
  | new, (raw, _) :: planned, plan, placed, atEnd =>
    if placed.any (fun x => decide (x.1 = new)) then
      placeSurplus doc (new + 1) planned plan placed atEnd
    else match placedBefore placed new with
      | some after => do
        let place :=
          if (parseSection raw).isSome then
            sectionEnd doc.lines after doc.lines.length (fun line => (parseSection line).isSome)
          else after
        let plan ← plan.addInsert place raw
        placeSurplus doc (new + 1) planned plan (placed ++ [(new, place)]) atEnd
      | none => placeSurplus doc (new + 1) planned plan placed (atEnd ++ [raw])

def networkdPlan (doc : Document) (newLines : List Text) : Except EditError EntryPlan := do
  let planned := scopedFrom [] (newLines.filter isDirectiveLike)
  let managed := managedLines doc
  let partner := pairAligned managed planned
  let (plan, placed) ← placeManaged planned partner 0 managed {} []
  let (plan, atEnd) ← placeSurplus doc 0 planned plan placed []
  atEnd.foldlM (fun plan raw => plan.addInsert doc.lines.length raw) plan

def refusing : EditError := .unsupported "edit would not round-trip; refusing"

/-- `edit_networkd_sections`: the document after the call, and what the call returns. -/
def editNetworkdSections (doc : Document) (newLines : List Text) (model : Model) :
    Document × Except EditError EditReport :=
  match networkdPlan doc newLines with
  | .error err => (doc, .error err)
  | .ok plan =>
    let (edited, report) := doc.applyPlan plan
    if roundTrips edited model then (edited, .ok report) else (doc, .error refusing)

def hasNetworkdSection (doc : Document) : Bool :=
  doc.lines.any (fun line => (parseSection line.raw).any isNetworkdSection)

def netplanUnmodeledRows (doc : Document) : List Nat :=
  (buildModelFromLines (doc.lines.map (·.raw))).2

/-- The key or item that a line stands for in the outline. -/
def outlineNode (raw : Text) : Text :=
  match parseNetplanListItem raw with
  | some (_, value) => value
  | none =>
    match splitOnceP (· == ':') (trim raw) with
    | some (key, _) => trim key
    | none => trim raw

def outlineFrom (unmodeled : List Nat) : Nat → List (Nat × Text) → List Line → List (Text × List Text)
  | _, _, [] => []
  | row, above, line :: lines =>
    if line.kind = .blank ∨ line.kind = .comment then outlineFrom unmodeled (row + 1) above lines
    else
      let indent := indentOf line.raw
      let above := above.rdropWhile (fun (depth, _) => decide (depth ≥ indent))
      let rest := outlineFrom unmodeled (row + 1) (above ++ [(indent, outlineNode line.raw)]) lines
      if line.kind = .unknown ∨ row ∈ unmodeled then (line.raw, above.map (·.2)) :: rest else rest

/-- Each netplan line that the model does not read, with the keys above it. -/
def netplanUnmodeledOutline (doc : Document) : List (Text × List Text) :=
  outlineFrom (netplanUnmodeledRows doc) 0 [] doc.lines

/-- The document whose entries are the lines that the model reads. -/
def netplanEntries (doc : Document) : Document :=
  { doc with lines := normalize (doc.lines.zipIdx.map (fun (line, row) =>
      if row ∈ netplanUnmodeledRows doc then
        { kind := .unknown, raw := line.raw, ending := line.ending, span := ⟨0, 0⟩ }
      else line)) }

def editNetplan (doc : Document) (planned : List Text) : Except EditError (Document × EditReport) := do
  let plan ← (netplanEntries doc).planEntries planned some .ok opensNetplanBlock
  let (edited, report) := doc.applyPlan plan
  if netplanUnmodeledOutline edited ≠ netplanUnmodeledOutline doc then
    .error (.unsupported "edit would move netplan lines detent does not model; refusing")
  else .ok (edited, report)

def hasInjection (t : Text) : Bool := t.any (fun c => c == '\n' || c == '\r' || c == '\x00')

/-- The values of an interface, in the order in which they are checked. -/
def valuesOf (iface : Interface) : List Text :=
  iface.name :: (iface.addresses ++ iface.gatewayV4.toList ++ iface.gatewayV6.toList ++ iface.dns ++
    iface.routes.flatMap (fun route => [route.dest, route.via]) ++ iface.vlan.toList.map (·.link) ++
    iface.bridge.toList.flatMap (·.members))

/-- The checks of pass 1 on one interface. -/
def checkValues (iface : Interface) : Except EditError Unit :=
  match (valuesOf iface).find? hasInjection with
  | some value => .error (.lineBreakInValue value)
  | none =>
    if iface.vlan.any (fun vlan => decide (vlan.id.val = 0 ∨ vlan.id.val > 4094)) then
      .error (.unsupported ("VLAN id " ++
        String.ofList ((iface.vlan.map (fun vlan => u16 vlan.id)).getD []) ++ " out of range"))
    else if iface.name.isEmpty || iface.name.any isWhitespace then
      .error (.unsupported "interface name cannot round-trip")
    else .ok ()

/-- A rendered line is empty or a directive. -/
def checkLine (line : Text) : Except EditError Unit :=
  if !line.isEmpty && !isDirectiveLike line && !(trim line).isEmpty then
    .error (.unsupported ("rendered line does not round-trip: " ++ debug line))
  else .ok ()

/-- The lines of pass 1 that `apply` would write, where the model changes. -/
def newLinesFor (doc : Document) (model : Model) : Except EditError (List Text) := do
  let newLines ← renderModelLines (detectFlavor doc) model
  newLines.forM checkLine
  pure newLines

/-- The edit of the flavors without sections of their own. -/
def editFlat (doc : Document) (newLines : List Text) : Except EditError (Document × EditReport) :=
  let planned := newLines.filter isDirectiveLike
  if detectFlavor doc = .netplan then editNetplan doc planned
  else doc.editEntries planned some .ok (fun raw => (parseSection raw).isSome)

/-- `apply`: the document after the call, and what the call returns. -/
def apply (doc : Document) (model : Model) : Document × Except EditError EditReport :=
  match model.interfaces.forM checkValues with
  | .error err => (doc, .error err)
  | .ok () =>
    if toModel doc = model then (doc, .ok ⟨0, 0, 0⟩)
    else match newLinesFor doc model with
      | .error err => (doc, .error err)
      | .ok newLines =>
        if detectFlavor doc = .networkd ∧ hasNetworkdSection doc then
          editNetworkdSections doc newLines model
        else match editFlat doc newLines with
          | .error err => (doc, .error err)
          | .ok (edited, report) =>
            if roundTrips edited model then (edited, .ok report) else (doc, .error refusing)

end Edit

section Targets

inductive Os where
  | linux
  | macOs
  | other
  deriving DecidableEq, Repr

structure HostProfile where
  os : Os
  serviceVersions : List (Text × Text)
  deriving DecidableEq, Repr

def HostProfile.serviceVersion (profile : HostProfile) (service : String) : Option Text :=
  profile.serviceVersions.lookup service.toList

def netplanBackendDetect (profile : HostProfile) : Bool :=
  profile.os = .linux && (profile.serviceVersion "netplan").isSome

def nmBackendDetect (profile : HostProfile) : Bool :=
  !netplanBackendDetect profile && profile.os = .linux &&
    (profile.serviceVersion "NetworkManager").isSome

def networkdBackendDetect (profile : HostProfile) : Bool :=
  !netplanBackendDetect profile && !nmBackendDetect profile && profile.os = .linux &&
    (profile.serviceVersion "systemd-networkd").isSome

def ifupdownBackendDetect (profile : HostProfile) : Bool :=
  !netplanBackendDetect profile && !nmBackendDetect profile && !networkdBackendDetect profile &&
    profile.os = .linux && (profile.serviceVersion "ifupdown").isSome

/-- A file of `TARGETS`. -/
structure FileTarget where
  path : Text
  backendDetect : HostProfile → Bool

/-- The file that is edited for each backend. -/
def fileTarget : BackendFlavor → FileTarget
  | .networkd => ⟨"/etc/systemd/network/10-detent.network".toList, networkdBackendDetect⟩
  | .networkManager =>
    ⟨"/etc/NetworkManager/system-connections/detent.nmconnection".toList, nmBackendDetect⟩
  | .ifupdown => ⟨"/etc/network/interfaces".toList, ifupdownBackendDetect⟩
  | .netplan => ⟨"/etc/netplan/90-detent.yaml".toList, netplanBackendDetect⟩

end Targets

end Detent.Source.Network
