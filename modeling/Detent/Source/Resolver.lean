import Detent.Lib.IpAddr
import Detent.Source.Doc

/-!
# `resolv.conf`, `resolved.conf` and `unbound.conf`

`crates/modules/resolver/src/lib.rs`: one module for three line formats. The
flavour of a line is the first parser that accepts it; an edit plans the lines of
each flavour on their own and carries the three plans out in one pass.
-/
namespace Detent.Source.Resolver
open Lib Lib.Text Source.Doc

structure DnsServer where
  ip : IpAddr
  name : Option Text
  deriving DecidableEq, Repr

inductive ResolvEntry where
  | nameserver (ip : IpAddr)
  | search (domains : List Text)
  | domain (domain : Text)
  | options (options : List Text)
  deriving DecidableEq, Repr

inductive ResolvedDnsSec where
  | yes
  | no
  | allowDowngrade
  deriving DecidableEq, Repr

def ResolvedDnsSec.display : ResolvedDnsSec → Text
  | .yes => "yes".toList
  | .no => "no".toList
  | .allowDowngrade => "allow-downgrade".toList

/-- `FromStr`: the mode a value displays as. -/
def ResolvedDnsSec.parse (value : Text) : Option ResolvedDnsSec :=
  [.yes, .no, .allowDowngrade].find? (fun mode => mode.display = value)

inductive ResolvedDnsOverTls where
  | yes
  | no
  | opportunistic
  deriving DecidableEq, Repr

def ResolvedDnsOverTls.display : ResolvedDnsOverTls → Text
  | .yes => "yes".toList
  | .no => "no".toList
  | .opportunistic => "opportunistic".toList

def ResolvedDnsOverTls.parse (value : Text) : Option ResolvedDnsOverTls :=
  [.yes, .no, .opportunistic].find? (fun mode => mode.display = value)

inductive ResolvedEntry where
  | resolve
  | dns (servers : List DnsServer)
  | fallbackDns (servers : List DnsServer)
  | domains (domains : List Text)
  | dnsSec (mode : ResolvedDnsSec)
  | dnsOverTls (mode : ResolvedDnsOverTls)
  deriving DecidableEq, Repr

inductive UnboundEntry where
  | server
  | forwardZone
  | hardening (key : Text) (enabled : Bool)
  | forwardName (name : Text)
  | forwardAddr (addr : Text)
  | forwardTls (enabled : Bool)
  deriving DecidableEq, Repr

structure Model where
  resolv : List ResolvEntry
  resolved : List ResolvedEntry
  unbound : List UnboundEntry
  deriving DecidableEq, Repr

inductive Entry where
  | resolv (entry : ResolvEntry)
  | resolved (entry : ResolvedEntry)
  | unbound (entry : UnboundEntry)
  deriving DecidableEq, Repr

section Parse

def parseResolv (raw : Text) : Option ResolvEntry :=
  match splitWhitespace raw with
  | [] => none
  | word :: tokens =>
    if word = "nameserver".toList then
      match tokens with
      | [ip] => (IpAddr.parse ip).map .nameserver
      | _ => none
    else if word = "search".toList then
      if tokens.isEmpty then none else some (.search tokens)
    else if word = "domain".toList then
      match tokens with
      | [domain] => some (.domain domain)
      | _ => none
    else if word = "options".toList then
      if tokens.isEmpty then none else some (.options tokens)
    else none

/-- One token of a `DNS=` list: `ip` or `ip#auth-name`. -/
def parseDnsServer (token : Text) : Option DnsServer :=
  match splitOnceP (· == '#') token with
  | some (ip, name) =>
    if name.isEmpty then none else (IpAddr.parse ip).map (fun ip => ⟨ip, some name⟩)
  | none => (IpAddr.parse token).map (fun ip => ⟨ip, none⟩)

def parseDnsServers (value : Text) : Option (List DnsServer) :=
  (splitWhitespace value).mapM parseDnsServer

def parseResolved (raw : Text) : Option ResolvedEntry :=
  let trimmed := trim raw
  if trimmed = "[Resolve]".toList then some .resolve
  else match splitOnceP (· == '=') trimmed with
    | none => none
    | some (key, value) =>
      let key := trim key
      let value := trim value
      if key = "DNS".toList then (parseDnsServers value).map .dns
      else if key = "FallbackDNS".toList then (parseDnsServers value).map .fallbackDns
      else if key = "Domains".toList then
        let domains := splitWhitespace value
        if domains.isEmpty then none else some (.domains domains)
      else if key = "DNSSEC".toList then (ResolvedDnsSec.parse value).map .dnsSec
      else if key = "DNSOverTLS".toList then (ResolvedDnsOverTls.parse value).map .dnsOverTls
      else none

def knownHardening : List Text :=
  ["qname-minimisation", "qname-minimisation-strict", "aggressive-nsec", "harden-glue",
    "harden-dnssec-stripped", "harden-below-nxdomain", "harden-referral-path", "hide-identity",
    "hide-version"].map String.toList

def isQuoteOrSpace (c : Char) : Bool := c == '"' || c == ' '

/-- `trim_matches` of quotes and spaces. -/
def stripQuotes (value : Text) : Text :=
  (value.dropWhile isQuoteOrSpace).rdropWhile isQuoteOrSpace

def parseYesNo (value : Text) : Option Bool :=
  if value = "yes".toList then some true
  else if value = "no".toList then some false
  else none

def parseUnbound (raw : Text) : Option UnboundEntry :=
  let trimmed := trim raw
  if trimmed = "server:".toList then some .server
  else if trimmed = "forward-zone:".toList then some .forwardZone
  else match splitOnceP (· == ':') trimmed with
    | none => none
    | some (key, value) =>
      let key := trim key
      let value := trim value
      if key = "name".toList then some (.forwardName (stripQuotes value))
      else if key = "forward-addr".toList then some (.forwardAddr (stripQuotes value))
      else if key = "forward-tls-upstream".toList then (parseYesNo value).map .forwardTls
      else if key ∈ knownHardening then (parseYesNo value).map (.hardening key)
      else none

def parseEntry (raw : Text) : Option Entry :=
  match parseResolv raw with
  | some entry => some (.resolv entry)
  | none =>
    match parseResolved raw with
    | some entry => some (.resolved entry)
    | none => (parseUnbound raw).map .unbound

def isCommentMark (c : Char) : Bool := c == '#' || c == ';'

def classify (raw : Text) : LineKind :=
  if (trim raw).isEmpty then .blank
  else if (trimStart raw).head?.any isCommentMark then .comment
  else if (parseEntry raw).isSome then .directive
  else .unknown

def resolvOf (raw : Text) : Option ResolvEntry :=
  match parseEntry raw with
  | some (.resolv entry) => some entry
  | _ => none

def resolvedOf (raw : Text) : Option ResolvedEntry :=
  match parseEntry raw with
  | some (.resolved entry) => some entry
  | _ => none

def unboundOf (raw : Text) : Option UnboundEntry :=
  match parseEntry raw with
  | some (.unbound entry) => some entry
  | _ => none

def endsSectionName (c : Char) : Bool := c == ':' || c == ' ' || c == '\t' || c == '"' || c == '#'

/-- A bare `name:` clause. -/
def opensUnboundSection (raw : Text) : Bool :=
  match stripLast ':' (trim raw) with
  | some name => !name.isEmpty && !name.any endsSectionName
  | none => false

end Parse

section Render

def isBreak (c : Char) : Bool := c == '\n' || c == '\r' || c == '\x00'

def finishRender {T : Type} [DecidableEq T] (entry : T) (raw : Text) (reparse : Text → Option T) :
    Except EditError Text :=
  if raw.any isBreak then .error (.lineBreakInValue raw)
  else if reparse raw = some entry then .ok raw
  else .error (.unsupported ("entry does not round-trip through the file format: " ++ debug raw))

def resolvLine : ResolvEntry → Text
  | .nameserver ip => "nameserver ".toList ++ ip.display
  | .search domains => "search ".toList ++ join [' '] domains
  | .domain domain => "domain ".toList ++ domain
  | .options options => "options ".toList ++ join [' '] options

def renderResolv (entry : ResolvEntry) : Except EditError Text :=
  finishRender entry (resolvLine entry) parseResolv

def renderDnsServer (server : DnsServer) : Text :=
  match server.name with
  | some name => server.ip.display ++ '#' :: name
  | none => server.ip.display

def renderDnsServers (servers : List DnsServer) : Text := join [' '] (servers.map renderDnsServer)

def resolvedLine : ResolvedEntry → Text
  | .resolve => "[Resolve]".toList
  | .dns servers => "DNS=".toList ++ renderDnsServers servers
  | .fallbackDns servers => "FallbackDNS=".toList ++ renderDnsServers servers
  | .domains domains => "Domains=".toList ++ join [' '] domains
  | .dnsSec mode => "DNSSEC=".toList ++ mode.display
  | .dnsOverTls mode => "DNSOverTLS=".toList ++ mode.display

def renderResolved (entry : ResolvedEntry) : Except EditError Text :=
  finishRender entry (resolvedLine entry) parseResolved

def isValidLabel (label : Text) : Bool :=
  !label.isEmpty && decide (len label ≤ 63) && label.head? != some '-' && label.getLast? != some '-' &&
    label.all (fun c => isAsciiAlphanumeric c || c == '-')

def isValidDomain (name : Text) : Bool :=
  let name := match name with
    | '~' :: rest => rest
    | _ => name
  if name = ['.'] then true
  else
    let name := (stripLast '.' name).getD name
    !name.isEmpty && decide (len name ≤ 253) && (name.splitOn '.').all isValidLabel

/-- `ip[@port][#auth-name]`. -/
def isValidForwardAddr (addr : Text) : Bool :=
  let (server, auth) := match splitOnceP (· == '#') addr with
    | some (server, auth) => (server, some auth)
    | none => (addr, none)
  if auth.any (fun auth => auth.isEmpty || !isValidDomain auth) then false
  else match splitOnceP (· == '@') server with
    | some (ip, port) =>
      (IpAddr.parse ip).isSome && !port.isEmpty && (IpAddr.parseU16 port).isSome
    | none => (IpAddr.parse server).isSome

/-- The refusals of `render_unbound` before anything is rendered. -/
def unboundRefusal : UnboundEntry → Option EditError
  | .forwardName name =>
    if name.any (fun c => c == ' ' || c == '\t' || c == ':' || c == '#') then
      some (.unsupported ("forward name would not round-trip: " ++ debug name))
    else none
  | .forwardAddr addr =>
    if addr.any (fun c => c == ' ' || c == '\t') ||
        (addr.any (fun c => c == ':' || c == '#') && !isValidForwardAddr addr) then
      some (.unsupported ("forward addr would not round-trip: " ++ debug addr))
    else none
  | _ => none

def yesNo (enabled : Bool) : Text := if enabled then "yes".toList else "no".toList

def unboundLine : UnboundEntry → Text
  | .server => "server:".toList
  | .forwardZone => "forward-zone:".toList
  | .hardening key enabled => "    ".toList ++ key ++ ": ".toList ++ yesNo enabled
  | .forwardName name => "    name: ".toList ++ name
  | .forwardAddr addr => "    forward-addr: ".toList ++ addr
  | .forwardTls enabled => "    forward-tls-upstream: ".toList ++ yesNo enabled

def renderUnbound (entry : UnboundEntry) : Except EditError Text :=
  match unboundRefusal entry with
  | some err => .error err
  | none => finishRender entry (unboundLine entry) parseUnbound

end Render

def parse (src : Text) : Document := Doc.parse src classify

def Model.push (model : Model) : Entry → Model
  | .resolv entry => { model with resolv := model.resolv ++ [entry] }
  | .resolved entry => { model with resolved := model.resolved ++ [entry] }
  | .unbound entry => { model with unbound := model.unbound ++ [entry] }

def toModel (doc : Document) : Model :=
  ((doc.lines.filter (·.kind == .directive)).filterMap (fun line => parseEntry line.raw)).foldl
    Model.push ⟨[], [], []⟩

/-- The three plans, built read-only from one document. -/
def plan (doc : Document) (model : Model) : Except EditError EntryPlan := do
  let resolv ← doc.planEntries model.resolv resolvOf renderResolv (fun _ => false)
  let resolved ← doc.planEntries model.resolved resolvedOf renderResolved (fun _ => false)
  let unbound ← doc.planEntries model.unbound unboundOf renderUnbound opensUnboundSection
  pure ((resolv.extend resolved).extend unbound)

/-- `apply`: the document after the call, and what the call returns. -/
def apply (doc : Document) (model : Model) : Document × Except EditError EditReport :=
  match plan doc model with
  | .error err => (doc, .error err)
  | .ok plan => ((doc.applyPlan plan).1, .ok (doc.applyPlan plan).2)

end Detent.Source.Resolver
