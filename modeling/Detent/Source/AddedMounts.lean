import Detent.Lib.IpAddr
import Detent.Source.Mounts

/-!
# The mounts an apply adds

`crates/modules/mounts/src/lib.rs:56-130,178-273` and
`crates/detent-platform/src/privsep/mounts.rs:36,253-265`: the entries of an fstab, the
units of those that another fstab does not have, and the paths no unit is started for.
`current_exe` is outside; its directory is a parameter.
-/
namespace Detent.Source.AddedMounts
open Lib Lib.Text Source.ExecDeny Source.Mounts

structure Entry where
  spec : Text
  mountpoint : Text
  fstype : Text
  options : List Text
  dump : Fin 256
  pass : Fin 256
  deriving DecidableEq, Repr

/-- One line as an fstab entry: exactly six fields, the last two numbers. -/
def parseEntry (raw : Text) : Option Entry :=
  let trimmed := trim raw
  if trimmed.isEmpty || startsWithAny ['#'] trimmed then none
  else
    match splitWhitespace trimmed with
    | [spec, mountpoint, fstype, options, dump, pass] =>
      match IpAddr.parseUnsigned 256 dump, IpAddr.parseUnsigned 256 pass with
      | some dump, some pass =>
        some { spec, mountpoint, fstype, options := options.splitOn ',', dump, pass }
      | _, _ => none
    | _ => none

/-- The parts of a path without its empty and `.` parts; none when one is `..`. -/
def normalParts : List Text → Option (List Text)
  | [] => some []
  | part :: parts =>
    if part = [] || part = ['.'] then normalParts parts
    else if part = ['.', '.'] then none
    else (normalParts parts).map (fun rest => part :: rest)

/-- The mount point of a field, decoded: absolute, and without a trailing `/`. -/
def normalizedMountpoint (raw : Text) : Option Text :=
  match ofUtf8 (unmangle (utf8 raw)) with
  | none => none
  | some decoded =>
    match stripStart ['/'] decoded with
    | none => none
    | some rest => (normalParts (rest.splitOn '/')).map (fun parts => '/' :: join ['/'] parts)

/-- `systemd-escape` of one byte. -/
def escapeByte (first : Bool) (byte : UInt8) : Text :=
  let c := Char.ofNat byte.toNat
  let plain := isAsciiAlphanumeric c || c ∈ [':', '_', '.']
  if c = '/' then ['-']
  else if plain && !(first && c == '.') then [c]
  else ['\\', 'x', Nat.digitChar (byte.toNat / 16), Nat.digitChar (byte.toNat % 16)]

/-- `systemd-escape --path` of a normalized path. -/
def escapePath (path : Text) : Text :=
  match utf8 (path.dropWhile (· == '/')) with
  | [] => ['-']
  | byte :: bytes => escapeByte true byte ++ bytes.flatMap (escapeByte false)

def hasOption (entry : Entry) (option : Text) : Bool := entry.options.any (· == option)

/-- The unit of an entry mounted at `path`. -/
def unitOf (entry : Entry) (path : Text) : MountUnit where
  mountpoint := String.ofList path
  unit := String.ofList (escapePath path ++
    (if hasOption entry (lit "x-systemd.automount") then lit ".automount" else lit ".mount"))

/-- One entry of the current file, given those of the previous one and the units so far. -/
def addEntry (before : List Entry) (units : List MountUnit) (entry : Entry) : List MountUnit :=
  if entry.fstype = lit "swap" || hasOption entry (lit "noauto") then units
  else
    match normalizedMountpoint entry.mountpoint with
    | none => units
    | some path =>
      let unchanged := before.any (fun old =>
        normalizedMountpoint old.mountpoint == some path && old.spec == entry.spec &&
          old.fstype == entry.fstype)
      if unchanged || units.any (fun unit => unit.mountpoint == String.ofList path) then units
      else units ++ [unitOf entry path]

/-- The units of the entries that `current` adds or changes. -/
def addedMounts (previous current : Text) : List MountUnit :=
  ((lines current).filterMap parseEntry).foldl
    (addEntry ((lines previous).filterMap parseEntry)) []

/-- `protected_paths`: what a mount must not hide, apart from `/` itself. -/
def protectedPaths (stateRoot : Path) (exeDir : Option Path) : List Path :=
  ["/etc", "/usr", "/boot"] ++ [stateRoot] ++ exeDir.toList

end Detent.Source.AddedMounts
