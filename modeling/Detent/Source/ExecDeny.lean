import Mathlib.Algebra.Group.Nat.Defs
import Detent.Lib.Utf8
import Detent.Source.Sha256

/-!
# The execution deny-list

`crates/detent-platform/src/privsep/exec_deny.rs` and
`crates/detent-core/src/fstab.rs`: the recogniser of directives that make a
privileged daemon run or load code, one reader for each module that has one, and
the comparison of a candidate with the previous contents. Texts are lists of
characters; both byte strings are decoded with `from_utf8_lossy` first.
-/
namespace Detent.Source.ExecDeny
open Lib Lib.Text

/-- The readable form of a literal. -/
def lit (s : String) : Text := s.toList

/-- Runs of whitespace collapsed to one space, ends trimmed. -/
def squash (text : Text) : Text := join [' '] (splitWhitespace text)

/-- A line ending in `\` continues on the next one (smb.conf, exports). -/
def joinContinuations (text : Text) : Text :=
  replace ['\\', '\n'] [' '] (replace ['\\', '\r', '\n'] [' '] text)

/-- The part of a line before its last `\`, when the line ends in a newline and
`joins` accepts what stands between the two. -/
def joinedHead (joins : Text → Bool) (line : Text) : Option Text :=
  match stripLast '\n' line with
  | none => none
  | some body =>
    let tail := body.rtakeWhile (fun c => c ≠ '\\')
    match (body.rdropWhile (fun c => c ≠ '\\')).reverse with
    | [] => none
    | _ :: head => if joins tail then some head.reverse else none

/-- `text` with each line joined to the next where `joinedHead` says so. -/
def joinWhere (text : Text) (joins : Text → Bool) : Text :=
  (linesInclusive text).flatMap (fun line =>
    match joinedHead joins line with
    | some head => head ++ [' ']
    | none => line)

/-- `key == value` of a split at the first `=`; the whole line without one. -/
def splitAssignment (line : Text) : Text × Text :=
  (splitOnceP (· == '=') line).getD (line, [])

def startsWithAny (chars : List Char) (text : Text) : Bool :=
  match text with
  | [] => false
  | c :: _ => c ∈ chars

/-- smb.conf directives, one per line of `text`. -/
def sambaDirectives (text : Text) : List Text :=
  (lines text).filterMap (fun line =>
    let line := trim line
    if line.isEmpty || startsWithAny ['#', ';', '['] line then none
    else
      let (key, value) := splitAssignment line
      let key := toAsciiLowercase (key.filter (fun c => !isWhitespace c && c ≠ '_'))
      let exec := contains (lit "exec") key || endsWith (lit "script") key ||
        endsWith (lit "command") key || endsWith (lit "backend") key ||
        key ∈ [lit "include", lit "configfile", lit "panicaction", lit "vfsobjects",
          lit "preloadmodules"]
      if exec then some (key ++ ['='] ++ squash value) else none)

/-- smb.conf, read four ways; each directive is tagged with its reading, and a
comment or section line that ends in `\` counts as a directive. -/
def samba (text : Text) : List Text :=
  let readings :=
    [text, joinWhere text List.isEmpty, joinContinuations text,
      joinWhere text (fun tail => tail.all (fun c => c == ' ' || c == '\t' || c == '\r'))]
  let continued := ((lines text).map trim).filter (fun line =>
    startsWithAny ['#', ';', '['] line && endsWith ['\\'] line)
  continued.map (fun line => lit "continued " ++ squash line) ++
    (readings.zipIdx.flatMap (fun (reading, view) =>
      (sambaDirectives reading).map (fun directive => lit s!"{view}:" ++ directive)))

/-- dnsmasq `key=value` lines. -/
def dnsmasq (text : Text) : List Text :=
  (lines text).filterMap (fun line =>
    let line := trim line
    if startsWithAny ['#'] line then none
    else
      let (key, value) := splitAssignment line
      let key := toAsciiLowercase ((trim key).dropWhile (· == '-'))
      if key ∈ [lit "dhcp-script", lit "dhcp-luascript", lit "dhcp-scriptuser", lit "conf-file",
          lit "conf-dir", lit "conf-script"] then
        some (key ++ ['='] ++ squash value)
      else none)

/-- `char::to_digit(16)`. -/
def hexDigit (c : Char) : Option Nat :=
  if isAsciiDigit c then some (c.toNat - 48)
  else if 'a' ≤ c && c ≤ 'f' then some (c.toNat - 87)
  else if 'A' ≤ c && c ≤ 'F' then some (c.toNat - 55)
  else none

/-- `u32::from_str_radix(hex, 16)` of four characters: a leading `+` is allowed. -/
def parseHex (hex : Text) : Option Nat :=
  let digits := match hex with
    | '+' :: rest => rest
    | hex => hex
  if digits.isEmpty then none
  else digits.foldlM (fun acc c => (hexDigit c).map (fun d => 16 * acc + d)) 0

/-- `char::from_u32`. -/
def charFromU32 (n : Nat) : Option Char :=
  if n.isValidChar then some (Char.ofNat n) else none

/-- `\uXXXX` escapes replaced by their character; everything else kept. The
counter skips the characters of the escape just decoded. -/
def decodeJsonEscapesFrom : Nat → Text → Text
  | _, [] => []
  | skip + 1, _ :: t => decodeJsonEscapesFrom skip t
  | 0, c :: t =>
    match c, t with
    | '\\', 'u' :: after =>
      let decoded := if (after.take 4).length = 4 then
        (parseHex (after.take 4)).bind charFromU32 else none
      match decoded with
      | some d => d :: decodeJsonEscapesFrom 5 t
      | none => c :: decodeJsonEscapesFrom 0 t
    | _, _ => c :: decodeJsonEscapesFrom 0 t

def decodeJsonEscapes (text : Text) : Text := decodeJsonEscapesFrom 0 text

/-- The loop state of `bracketed`. -/
structure Bracketing where
  depth : Nat
  inString : Bool
  escaped : Bool
  deriving DecidableEq, Repr

def bracketedFrom : Bracketing → Text → Text
  | _, [] => []
  | st, c :: text =>
    if st.inString then
      let st := match st.escaped, c with
        | true, _ => { st with escaped := false }
        | false, '\\' => { st with escaped := true }
        | false, '"' => { st with inString := false }
        | false, _ => st
      c :: bracketedFrom st text
    else if c = '"' then c :: bracketedFrom { st with inString := true } text
    else if c = '[' || c = Char.ofNat 123 then
      c :: bracketedFrom { st with depth := st.depth + 1 } text
    else if c = ']' || c = Char.ofNat 125 then
      let depth := st.depth - 1
      if depth = 0 then [c] else c :: bracketedFrom { st with depth } text
    else c :: bracketedFrom st text

/-- `text` through the first balanced group, skipping string contents; all of
`text` when the group never closes. -/
def bracketed (text : Text) : Text :=
  bracketedFrom { depth := 0, inString := false, escaped := false } text

/-- Kea JSON: every `hooks-libraries` value, whole, and every `<?include?>`. -/
def kea (text : Text) : List Text :=
  let doc := toAsciiLowercase (squash (decodeJsonEscapes text))
  (matchSuffixes (lit "\"hooks-libraries\"") doc).map bracketed ++
    (matchSuffixes (lit "<?include") doc).map (fun rest =>
      match splitAtMatch (lit "?>") rest with
      | some (before, _) => before ++ lit "?>"
      | none => rest)

/-- chrony `directive args` lines. -/
def chrony (text : Text) : List Text :=
  (lines text).filterMap (fun line =>
    let line := trim line
    if startsWithAny ['#', '!', ';', '%'] line then none
    else
      let (key, value) := (splitOnceP isWhitespace line).getD (line, [])
      let key := toAsciiLowercase key
      if key ∈ [lit "include", lit "confdir", lit "sourcedir", lit "pidfile", lit "user"] then
        some (key ++ [' '] ++ squash value)
      else none)

/-- The tokens of one unbound line; `line` is the line without its comment. -/
def unboundTokens (line : Text) : List Text → List Text
  | [] => []
  | token :: tokens =>
    match splitOnceP (· == ':') token with
    | none => unboundTokens line tokens
    | some (key, value) =>
      let key := toAsciiLowercase key
      let exec := key ∈ [lit "include", lit "include-toplevel", lit "python-script",
        lit "dynlib-file"]
      let moduleConfig := key = lit "module-config"
      if ¬ exec ∧ ¬ moduleConfig then unboundTokens line tokens
      else
        let rest := toAsciiLowercase line
        let directive (value : Text) : List Text :=
          if moduleConfig then
            if contains (lit "python") rest || contains (lit "dynlib") rest then
              [key ++ lit ": " ++ squash rest]
            else []
          else [key ++ lit ": " ++ value]
        if value.isEmpty then
          match tokens with
          | [] => directive []
          | next :: tokens => directive next ++ unboundTokens line tokens
        else directive value ++ unboundTokens line tokens

/-- unbound: its lexer is token based. -/
def unbound (text : Text) : List Text :=
  (lines text).flatMap (fun line =>
    let line := line.takeWhile (· ≠ '#')
    unboundTokens line (splitWhitespace line))

/-- Characters `/bin/sh` reads as plain text in an unquoted word, plus the space
and tab between words. -/
def isShellInert (c : Char) : Bool :=
  isAsciiAlphanumeric c || c ∈ ['.', ':', '/', '-', '_', '+', ',', '=', ' ', '\t']

/-- A word of address characters only. -/
def isPlainWord (word : Text) : Bool :=
  !word.isEmpty && word.all (fun c => isAsciiAlphanumeric c || c ∈ ['.', ':', '/'])

/-- `up ip route add <to> via <via>` with plain `<to>` and `<via>`. -/
def isRouteForm (line : Text) : Bool :=
  match splitWhitespace line with
  | [up, ip, route, add, dest, via, gateway] =>
    up == lit "up" && ip == lit "ip" && route == lit "route" && add == lit "add" &&
      via == lit "via" && isPlainWord dest && isPlainWord gateway
  | _ => false

/-- The ifupdown keywords whose value is run or read as configuration. -/
def hookNames : List Text :=
  [lit "up", lit "down", lit "pre-up", lit "post-up", lit "pre-down", lit "post-down",
    lit "source", lit "source-directory", lit "mapping", lit "script", lit "map"]

/-- A word that ifupdown takes as an option name. -/
def isOptionName (word : Text) : Bool :=
  (match word with
    | [] => false
    | c :: _ => isAsciiAlphanumeric c) &&
    word.all (fun c => isAsciiAlphanumeric c || c == '-' || c == '_')

/-- Whether `ifupdown` reports a trimmed line. -/
def ifupdownFlags (line : Text) : Bool :=
  if startsWithAny ['#'] line then false
  else match splitWhitespace line with
    | [] => false
    | first :: _ =>
      let key := toAsciiLowercase (match splitOnceP (· == '=') first with
        | some (key, _) => key
        | none => first)
      let hook := key ∈ hookNames
      let shell := isOptionName first && !line.all isShellInert
      (hook && !(key == lit "up" && isRouteForm line)) || shell

/-- ifupdown hooks, `mapping` scripts and option lines with a character the
shell expands. -/
def ifupdown (text : Text) : List Text :=
  (lines text).filterMap (fun line =>
    let line := trim line
    if ifupdownFlags line then some (squash line) else none)

/-- `x-systemd.` options that name no program and pull in no unit. -/
def safeSystemdOptions : List Text :=
  [lit "automount", lit "idle-timeout", lit "mount-timeout", lit "device-timeout", lit "rw-only"]

def protectedTrees : List Text :=
  ["/bin", "/boot", "/etc", "/lib", "/lib32", "/lib64", "/libx32", "/root", "/run", "/sbin",
    "/usr", "/var/lib/detent", "/var/lock", "/var/run"].map lit

def writableDirs : List Text := ["/tmp", "/var/tmp", "/dev/shm"].map lit

/-- The byte three octal digits stand for. -/
def octalByte (a b c : UInt8) : Option UInt8 :=
  if [a, b, c].all (fun d => 48 ≤ d.toNat && d.toNat ≤ 55) then
    let n := 64 * (a.toNat - 48) + 8 * (b.toNat - 48) + (c.toNat - 48)
    if n < 256 then some (UInt8.ofNat n) else none
  else none

/-- `unmangle`: the `\ooo` escapes of an fstab field decoded; the counter skips
the digits of the escape just decoded. -/
def unmangleFrom : Nat → Bytes → Bytes
  | _, [] => []
  | skip + 1, _ :: rest => unmangleFrom skip rest
  | 0, byte :: rest =>
    match byte == 92, rest with
    | true, a :: b :: c :: _ =>
      match octalByte a b c with
      | some decoded => decoded :: unmangleFrom 3 rest
      | none => byte :: unmangleFrom 0 rest
    | _, _ => byte :: unmangleFrom 0 rest

def unmangle (raw : Bytes) : Bytes := unmangleFrom 0 raw

/-- The components of an absolute path: no empty and no `.` parts. -/
def pathComponents (path : Text) : List Text :=
  (path.splitOn '/').filter (fun part => !part.isEmpty && part ≠ ['.'])

/-- Whether a mount on the fstab field `raw` could replace system files. -/
def protectedMountpoint (raw : Text) : Bool :=
  if raw = lit "none" || raw = lit "swap" then false
  else
    match ofUtf8 (unmangle (utf8 raw)) with
    | none => true
    | some path =>
      let parts := pathComponents path
      if !startsWith ['/'] path || parts.contains ['.', '.'] then true
      else
        protectedTrees.any (fun tree =>
          (pathComponents tree).isPrefixOf parts || parts.isPrefixOf (pathComponents tree)) ||
        writableDirs.any (fun dir =>
          (pathComponents dir).isPrefixOf parts && parts ≠ pathComponents dir)

/-- An fstab entry that binds, rbinds or overlays other files onto its mount
point, or whose mount point is protected. -/
def replacesSystemFiles (fields : List Text) : Bool :=
  match fields with
  | spec :: mountpoint :: rest =>
    if startsWithAny ['#'] spec then false
    else
      let overlay := match rest[0]? with
        | some kind => contains (lit "overlay") (toAsciiLowercase kind)
        | none => false
      let binds := match rest[1]? with
        | some options => ((toAsciiLowercase options).splitOn ',').any (fun option =>
            option = lit "bind" || option = lit "rbind" ||
              [lit "lowerdir=", lit "upperdir=", lit "workdir="].any (startsWith · option))
        | none => false
      overlay || binds || protectedMountpoint mountpoint
  | _ => false

/-- fstab: systemd mount options outside the safe ones, mount helpers, FUSE types
and mounts that replace system files. -/
def fstab (text : Text) : List Text :=
  ((lines text).filter (fun line =>
    let fields := splitWhitespace line
    let fuse := match fields[2]? with
      | some kind => contains (lit "fuse") (toAsciiLowercase kind)
      | none => false
    fuse || replacesSystemFiles fields ||
      (line.splitOnP (fun c => c == ',' || isWhitespace c)).any (fun word =>
        let word := toAsciiLowercase word
        let systemd := match stripStart (lit "x-systemd.") word with
          | some option => !safeSystemdOptions.contains (splitAssignment option).1
          | none => false
        systemd || startsWith (lit "helper=") word || startsWith (lit "uhelper=") word))).map squash

/-- A decimal `u32` above 0, written without a sign or a leading zero. -/
def isPlainNonzeroId (id : Text) : Bool :=
  (match id with
    | [] => false
    | c :: _ => '1' ≤ c && c ≤ '9') &&
    id.all isAsciiDigit && Nat.ofDigitChars 10 id 0 < 2 ^ 32

/-- exports: options that map a client to root. -/
def exports (text : Text) : List Text :=
  ((lines (joinContinuations text)).filter (fun line =>
    (line.splitOnP (fun c => c == ',' || c == '(' || c == ')' || isWhitespace c)).any (fun word =>
      word = lit "no_root_squash" ||
        (match stripStart (lit "anonuid=") word <|> stripStart (lit "anongid=") word with
          | some id => !isPlainNonzeroId id
          | none => false)))).map squash

/-- Every execution directive in `text`, normalised for comparison. -/
def execDirectives (module : String) (text : Text) : List Text :=
  match module with
  | "samba" => samba text
  | "dhcp" => dnsmasq text ++ kea text
  | "chrony" => chrony text
  | "resolver" => unbound text
  | "network" => ifupdown text
  | "mounts" => fstab text
  | "nfs" => exports text
  | _ => []

/-- `Vec::swap_remove`: the last element takes the place of the removed one. -/
def swapRemove {α : Type} (v : List α) (index : Nat) : List α :=
  match v.getLast? with
  | none => v
  | some last => (v.set index last).dropLast

/-- The `any` of `adds_exec_directive`: each directive found uses up one equal
directive of `before`, and the first without one ends the search. -/
def anyUnmatched (before : List Text) : List Text → Bool
  | [] => false
  | found :: rest =>
    match before.findIdx? (· == found) with
    | none => true
    | some index => anyUnmatched (swapRemove before index) rest

/-- Whether `candidate` holds an execution directive, name and value, that
`previous` does not hold as many times. -/
def addsExecDirective (module : String) (previous candidate : Bytes) : Bool :=
  anyUnmatched (execDirectives module (fromUtf8Lossy previous))
    (execDirectives module (fromUtf8Lossy candidate))

end Detent.Source.ExecDeny
