import Detent.Lib.Except
import Detent.Lib.Utf8

/-!
# Transaction signatures

`crates/detent-acme/src/tsig.rs:18-323,408-558` and `lib.rs:378-392`: the signing of a
DNS message with a TSIG record and the check of a server's signed answer.

Bytes are a list, and 16-bit and 48-bit numbers are natural numbers. The HMAC of the
linked library is a field of the key. A length of a slice does not reach the limit of
`usize`, so sums of offsets are not cut. The loop of `read_name` is bounded by `fuel`;
`unfinished` says that the bound ended it and is no error of the source.
-/
namespace Detent.Source.Tsig
open Lib

/-- `AcmeError::Config`, and the end of the bound of a loop. -/
inductive Failure where
  | config (why : String)
  | unfinished
  deriving DecidableEq, Repr

/-- `TYPE_TSIG`. -/
def typeTsig : Nat := 250
/-- `CLASS_ANY`. -/
def classAny : Nat := 255
/-- `FUDGE`. -/
def fudgeSeconds : Nat := 300
/-- `ARCOUNT_AT`. -/
def arcountAt : Nat := 10
/-- `HEADER_LEN`. -/
def headerLen : Nat := 12

def truncated : Failure := .config "rfc2136: server answer is truncated"

def slice (bytes : ByteList) (at_ len : Nat) : Except Failure ByteList :=
  if at_ + len ≤ bytes.length then .ok ((bytes.drop at_).take len) else .error truncated

/-- The number that bytes write, the first the highest. -/
def beNumber (bytes : ByteList) : Nat := bytes.foldl (fun acc byte => acc * 256 + byte.toNat) 0

def u16At (bytes : ByteList) (at_ : Nat) : Except Failure Nat :=
  (slice bytes at_ 2).map beNumber

def u48At (bytes : ByteList) (at_ : Nat) : Except Failure Nat :=
  (slice bytes at_ 6).map beNumber

/-- `u16::to_be_bytes`. -/
def u16Bytes (n : Nat) : ByteList := [UInt8.ofNat (n / 256), UInt8.ofNat n]

def putU16 (bytes : ByteList) (at_ value : Nat) : Except Failure ByteList :=
  if at_ + 2 ≤ bytes.length then
    .ok (bytes.take at_ ++ u16Bytes value ++ bytes.drop (at_ + 2))
  else .error truncated

def len16 (len : Nat) : Except Failure Nat :=
  if len < 65536 then .ok len else .error (.config "rfc2136: field exceeds 64 KiB")

/-- Six bytes of a number, the highest first. -/
def u48Bytes (n : Nat) : ByteList :=
  u16Bytes (n / 4294967296) ++ u16Bytes (n / 65536) ++ u16Bytes n

def time48 (seconds : Nat) : Except Failure ByteList :=
  if 281474976710656 ≤ seconds then .error (.config "rfc2136: time does not fit 48 bits")
  else .ok (u48Bytes seconds)

def encodeLabels (name : Text) : List Text → Except Failure ByteList
  | [] => .ok [0]
  | label :: labels =>
    if 256 ≤ (utf8 label).length then
      .error (.config ("rfc2136: DNS label too long in " ++ Text.debug name))
    else do
      let rest ← encodeLabels name labels
      .ok (UInt8.ofNat (utf8 label).length :: utf8 label ++ rest)

def encodeName (name : Text) : Except Failure ByteList := encodeLabels name (name.splitOn '.')

def unknownLabel : Failure := .config "rfc2136: server answer uses an unknown label type"

/-- The loop of `skip_name`. -/
def skipLabels (bytes : ByteList) : Nat → Nat → Except Failure Nat
  | 0, _ => .error .unfinished
  | fuel + 1, at_ =>
    match bytes[at_]? with
    | none => .error truncated
    | some len =>
      if len = 0 then .ok (at_ + 1)
      else if 0xc0 ≤ len then (slice bytes at_ 2).map (fun _ => at_ + 2)
      else if 0x40 ≤ len then .error unknownLabel
      else skipLabels bytes fuel (at_ + 1 + len.toNat)

/-- `skip_name`: every turn of its loop moves on by a byte at least. -/
def skipName (bytes : ByteList) (at_ : Nat) : Except Failure Nat :=
  skipLabels bytes (bytes.length + 1) at_

def skipRecord (bytes : ByteList) (at_ : Nat) : Except Failure Nat := do
  let named ← skipName bytes at_
  let rdlen ← u16At bytes (named + 8)
  let after := named + 8 + 2 + rdlen
  if bytes.length < after then .error truncated else .ok after

/-- The loop of `read_name`. -/
def readLabels (bytes : ByteList) : Nat → Nat → Option Nat → List Text → Except Failure (Text × Nat)
  | 0, _, _, _ => .error .unfinished
  | fuel + 1, at_, after, labels =>
    match bytes[at_]? with
    | none => .error truncated
    | some len =>
      if len = 0 then .ok (Text.join ['.'] labels, after.getD (at_ + 1))
      else if 0xc0 ≤ len then do
        let pointer ← u16At bytes at_
        let target := pointer &&& 0x3fff
        if at_ ≤ target then
          .error (.config "rfc2136: server answer has a forward name pointer")
        else readLabels bytes fuel target (some (after.getD (at_ + 2))) labels
      else if 0x40 ≤ len then .error unknownLabel
      else do
        let label ← slice bytes (at_ + 1) len.toNat
        readLabels bytes fuel (at_ + 1 + len.toNat) after (labels ++ [fromUtf8Lossy label])

def readName (fuel : Nat) (bytes : ByteList) (start : Nat) : Except Failure (Text × Nat) :=
  readLabels bytes fuel start none []

inductive Algorithm where
  | sha224 | sha256 | sha384 | sha512
  deriving DecidableEq, Repr

def Algorithm.name : Algorithm → Text
  | .sha224 => "hmac-sha224".toList
  | .sha256 => "hmac-sha256".toList
  | .sha384 => "hmac-sha384".toList
  | .sha512 => "hmac-sha512".toList

/-- `digest_algorithm().output_len`. -/
def Algorithm.outputLen : Algorithm → Nat
  | .sha224 => 28
  | .sha256 => 32
  | .sha384 => 48
  | .sha512 => 64

/-- `validate_fqdn`. -/
def validateFqdn (fqdn : Text) : Bool :=
  !fqdn.isEmpty && (utf8 fqdn).length ≤ 253 &&
    (utf8 fqdn).all (fun b => Text.isAsciiAlphanumeric (Char.ofNat b.toNat) || b == 46 || b == 45 ||
      b == 95) &&
    (fqdn.splitOn '.').all (fun label => !label.isEmpty && (utf8 label).length ≤ 63 &&
      !Text.startsWith ['-'] label)

/-- A TSIG key as the provider builds it: its name is a checked one in lower case.
`hmac` is the HMAC under its secret. -/
structure Key where
  given : Text
  checked : validateFqdn given = true
  algorithm : Algorithm
  hmac : ByteList → ByteList

def Key.name (key : Key) : Text := Text.toAsciiLowercase key.given

/-- `str::eq_ignore_ascii_case`. -/
def eqIgnoreAsciiCase (a b : Text) : Bool := Text.toAsciiLowercase a == Text.toAsciiLowercase b

def Key.variables (key : Key) (timeSigned fudge error : Nat) (other : ByteList) :
    Except Failure ByteList := do
  let name ← encodeName key.name
  let algorithm ← encodeName key.algorithm.name
  let time ← time48 timeSigned
  let otherLen ← len16 other.length
  .ok (name ++ u16Bytes classAny ++ [0, 0, 0, 0] ++ algorithm ++ time ++ u16Bytes fudge ++
    u16Bytes error ++ u16Bytes otherLen ++ other)

/-- `sign_with`: the signed message and its MAC. -/
def Key.signWith (key : Key) (message : ByteList) (timeSigned : Nat)
    (requestMac : Option ByteList) : Except Failure (ByteList × ByteList) := do
  let id ← u16At message 0
  let arcount ← u16At message arcountAt
  if arcount ≠ 0 then
    .error (.config "rfc2136: the UPDATE already has additional records")
  else
    let lead ← match requestMac with
      | none => .ok []
      | some mac => (len16 mac.length).map (fun len => u16Bytes len ++ mac)
    let vars ← key.variables timeSigned fudgeSeconds 0 []
    let mac := key.hmac (lead ++ message ++ vars)
    let algorithm ← encodeName key.algorithm.name
    let time ← time48 timeSigned
    let macLen ← len16 mac.length
    let rdata := algorithm ++ time ++ u16Bytes fudgeSeconds ++ u16Bytes macLen ++ mac ++
      u16Bytes id ++ u16Bytes 0 ++ u16Bytes 0
    let name ← encodeName key.name
    let rdataLen ← len16 rdata.length
    let signed ← putU16 (message ++ name ++ u16Bytes typeTsig ++ u16Bytes classAny ++
      [0, 0, 0, 0] ++ u16Bytes rdataLen ++ rdata) arcountAt 1
    .ok (signed, mac)

def rcodeName : Nat → String
  | 1 => "FORMERR"
  | 2 => "SERVFAIL"
  | 3 => "NXDOMAIN"
  | 4 => "NOTIMP"
  | 5 => "REFUSED"
  | 6 => "YXDOMAIN"
  | 7 => "YXRRSET"
  | 8 => "NXRRSET"
  | 9 => "NOTAUTH"
  | 10 => "NOTZONE"
  | _ => "unknown"

def tsigErrorName : Nat → String
  | 16 => "BADSIG"
  | 17 => "BADKEY"
  | 18 => "BADTIME"
  | 22 => "BADTRUNC"
  | _ => "unknown"

/-- The `bad` of `verify_response`. -/
def bad (why : String) : Failure := .config ("rfc2136: server answer " ++ why)

/-- `count` steps from an offset. -/
def repeatSkip (skip : Nat → Except Failure Nat) : Nat → Nat → Except Failure Nat
  | 0, at_ => .ok at_
  | count + 1, at_ => do
    let next ← skip at_
    repeatSkip skip count next

/-- The offset of the last record: every question and every record before it is
skipped. -/
def skipToTsig (response : ByteList) (arcount : Nat) : Except Failure Nat := do
  let questions ← u16At response 4
  let at_ ← repeatSkip (fun at_ => (skipName response at_).map (· + 4)) questions headerLen
  let answers ← u16At response 6
  let authorities ← u16At response 8
  repeatSkip (skipRecord response) (answers + authorities + (arcount - 1)) at_

/-- The fields of a TSIG record that the check uses, and where the record starts. -/
structure TsigRecord where
  start : Nat
  timeSigned : Nat
  fudge : Nat
  mac : ByteList
  originalId : Nat
  error : Nat
  other : ByteList
  deriving DecidableEq, Repr

/-- Whether a record has the type and the class of a TSIG record; the class is read only
where the type is right. -/
def isTsig (response : ByteList) (at_ : Nat) : Except Failure Bool := do
  let type ← u16At response at_
  if type ≠ typeTsig then .ok false
  else (u16At response (at_ + 2)).map (fun class_ => class_ == classAny)

/-- The part of `verify_response` that reads the record and checks its form. -/
def Key.readTsig (key : Key) (fuel : Nat) (response : ByteList) (arcount : Nat) :
    Except Failure TsigRecord := do
  let start ← skipToTsig response arcount
  let (owner, at_) ← readName fuel response start
  if !eqIgnoreAsciiCase owner key.name then .error (bad "is signed with another key")
  else
    let record ← isTsig response at_
    if !record then .error (bad "has no TSIG as its last record")
    else
      let high ← u16At response (at_ + 4)
      let low ← u16At response (at_ + 6)
      if high ||| low ≠ 0 then .error (bad "has a TSIG record with a non-zero TTL")
      else
        let rdlen ← u16At response (at_ + 8)
        let rdataEnd := at_ + 8 + 2 + rdlen
        if rdataEnd ≠ response.length then .error (bad "has bytes after its TSIG record")
        else
          let (algorithm, at_) ← readName fuel response (at_ + 8 + 2)
          if !eqIgnoreAsciiCase algorithm key.algorithm.name then
            .error (bad "uses another TSIG algorithm")
          else
            let timeSigned ← u48At response at_
            let fudge ← u16At response (at_ + 6)
            let macLen ← u16At response (at_ + 8)
            let mac ← slice response (at_ + 10) macLen
            let at_ := at_ + 10 + macLen
            let originalId ← u16At response at_
            let error ← u16At response (at_ + 2)
            let otherLen ← u16At response (at_ + 4)
            let other ← slice response (at_ + 6) otherLen
            if at_ + 6 + otherLen ≠ rdataEnd then .error (bad "has a malformed TSIG record")
            else .ok ⟨start, timeSigned, fudge, mac, originalId, error, other⟩

/-- What the MAC of an answer is taken of: the request MAC, the message as it was before
it was signed, and the variables. -/
def Key.macInput (key : Key) (response requestMac : ByteList) (arcount : Nat) (tsig : TsigRecord) :
    Except Failure ByteList := do
  let before ← slice response 0 tsig.start
  let unsigned ← putU16 before 0 tsig.originalId
  let unsigned ← putU16 unsigned arcountAt (arcount - 1)
  let len ← len16 requestMac.length
  let vars ← key.variables tsig.timeSigned tsig.fudge tsig.error tsig.other
  .ok (u16Bytes len ++ requestMac ++ unsigned ++ vars)

def Key.verifyResponse (key : Key) (fuel : Nat) (response : ByteList) (requestId : Nat)
    (requestMac : ByteList) (now : Nat) : Except Failure Unit := do
  let id ← u16At response 0
  if id ≠ requestId then .error (bad "has the wrong message id")
  else
    let flags ← u16At response 2
    if flags &&& 0x8000 = 0 then .error (bad "is not a response")
    else
      let rcode := flags &&& 0x000f
      let arcount ← u16At response arcountAt
      if arcount = 0 then
        .error (bad s!"is not signed (RCODE {rcodeName rcode} ({rcode}), not trusted)")
      else
        let tsig ← key.readTsig fuel response arcount
        if tsig.error ≠ 0 then
          .error (bad s!"carries TSIG error {tsigErrorName tsig.error} ({tsig.error})")
        else if tsig.mac.length ≠ key.algorithm.outputLen then
          .error (bad "has a truncated or oversize MAC")
        else
          let input ← key.macInput response requestMac arcount tsig
          if key.hmac input ≠ tsig.mac then .error (bad "has a bad TSIG MAC")
          else if tsig.fudge < (now - tsig.timeSigned) + (tsig.timeSigned - now) then
            .error (bad "is signed outside the allowed clock skew")
          else if rcode ≠ 0 then
            .error (bad s!"refused the UPDATE: RCODE {rcodeName rcode} ({rcode})")
          else .ok ()

end Detent.Source.Tsig
