import Detent.Source.Channel

/-!
# The framed channel

`crates/detent-platform/src/privsep/transport.rs:194-284` and
`privsep/proto.rs:1003-1049`: a message as one frame on the socket, a length of four
bytes and the encoded body, and the reading of a frame from a socket that hands out
its bytes in pieces. `postcard` is a parameter.
-/
namespace Detent.Source.Transport
open Lib Source.Channel

/-- `HEADER_LEN`. -/
def headerLen : Nat := 4

/-- `postcard` on one type of message. -/
structure Codec (M : Type) where
  toAllocvec : M → Option Bytes
  takeFromBytes : Bytes → Option (M × Bytes)

/-- `CodecError`. -/
inductive CodecError where
  | oversize (len : Nat)
  | malformed
  deriving DecidableEq, Repr

section Codec

variable {M : Type} (postcard : Codec M)

def encode (value : M) : Except CodecError Bytes :=
  match postcard.toAllocvec value with
  | none => .error .malformed
  | some bytes => if maxFrame < bytes.length then .error (.oversize bytes.length) else .ok bytes

def decode (bytes : Bytes) : Except CodecError M :=
  if maxFrame < bytes.length then .error (.oversize bytes.length)
  else
    match postcard.takeFromBytes bytes with
    | none => .error .malformed
    | some (value, remainder) => if remainder.isEmpty then .ok value else .error .malformed

/-- `u32::to_be_bytes`. -/
def toBeBytes (n : Nat) : Bytes :=
  [n / 16777216, n / 65536, n / 256, n].map UInt8.ofNat

/-- `u32::from_be_bytes`. -/
def fromBeBytes (bytes : Bytes) : Nat := bytes.foldl (fun n b => 256 * n + b.toNat) 0

/-- `Channel::send`: the bytes written to the socket. -/
def send (message : M) : Except ChannelError Bytes :=
  match encode postcard message with
  | .error (.oversize len) => .error (.oversize len)
  | .error .malformed => .error .decode
  | .ok body => .ok (toBeBytes body.length ++ body)

/-- What the reads of a socket meet in turn: bytes that have arrived, a signal, the read
timeout, or another failure. -/
inductive Event where
  | chunk (bytes : Bytes)
  | interrupted
  | timeout
  | failed
  deriving DecidableEq, Repr

/-- `read_exact_or_idle` of a buffer of `len` bytes, `filled` of them read: the bytes, or
none where the timeout elapsed before the first. A read takes at most the free part of
the buffer; the rest of a chunk stays. After the last event the peer is gone. -/
def readExactOrIdle (len : Nat) (filled : Bytes) :
    List Event → Except ChannelError (Option Bytes) × List Event
  | [] => if len ≤ filled.length then (.ok (some filled), []) else (.error .closed, [])
  | event :: events =>
    if len ≤ filled.length then (.ok (some filled), event :: events)
    else
      match event with
      | .chunk bytes =>
        let read := bytes.take (len - filled.length)
        let rest := bytes.drop (len - filled.length)
        if read.isEmpty then (.error .closed, events)
        else if rest.isEmpty then readExactOrIdle len (filled ++ read) events
        else (.ok (some (filled ++ read)), .chunk rest :: events)
      | .interrupted => readExactOrIdle len filled events
      | .timeout =>
        if filled.isEmpty then (.ok none, events) else (.error .timeout, events)
      | .failed => (.error .io, events)

/-- `Channel::poll_recv`. -/
def pollRecv (events : List Event) : Except ChannelError (Option M) × List Event :=
  match readExactOrIdle headerLen [] events with
  | (.error err, events) => (.error err, events)
  | (.ok none, events) => (.ok none, events)
  | (.ok (some header), events) =>
    let len := fromBeBytes header
    if maxFrame < len then (.error (.oversize len), events)
    else
      match readExactOrIdle len [] events with
      | (.error err, events) => (.error err, events)
      | (.ok none, events) => (.error .timeout, events)
      | (.ok (some body), events) =>
        match decode postcard body with
        | .error _ => (.error .decode, events)
        | .ok message => (.ok (some message), events)

end Codec

end Detent.Source.Transport
