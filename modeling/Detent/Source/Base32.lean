import Detent.Lib.Utf8

/-!
# Base32

`crates/detent-web/src/auth/base32.rs:19-91`: the text of a TOTP secret. Both directions shift
through a 16-bit buffer; a shift drops the bits that leave it.
-/
namespace Detent.Source.Base32
open Lib

/-- `ALPHABET`. -/
def alphabet : Text := "ABCDEFGHIJKLMNOPQRSTUVWXYZ234567".toList

/-- `<<` of a `u16`. -/
def shl16 (buffer n : Nat) : Nat := (buffer <<< n) % 65536

/-- The symbol at an index, where the alphabet has one. -/
def pushSymbol (out : Text) (index : Nat) : Text :=
  match alphabet[index]? with
  | some symbol => out ++ [symbol]
  | none => out

/-- The loop `while bits >= 5`; each turn takes five bits, so that the bits bound the turns. -/
def pushSymbols (buffer : Nat) : Nat → Nat → Text → Nat × Text
  | 0, bits, out => (bits, out)
  | turns + 1, bits, out =>
    if 5 ≤ bits then
      pushSymbols buffer turns (bits - 5) (pushSymbol out ((buffer >>> (bits - 5)) &&& 0x1f))
    else (bits, out)

structure Encoder where
  out : Text
  buffer : Nat
  bits : Nat

/-- One turn of `for &byte in bytes`. -/
def Encoder.push (st : Encoder) (byte : UInt8) : Encoder :=
  let buffer := shl16 st.buffer 8 ||| byte.toNat
  let (bits, out) := pushSymbols buffer (st.bits + 8) (st.bits + 8) st.out
  { out, buffer, bits }

def encode (bytes : ByteList) : Text :=
  let st := bytes.foldl Encoder.push ⟨[], 0, 0⟩
  if 0 < st.bits then pushSymbol st.out (shl16 st.buffer (5 - st.bits) &&& 0x1f) else st.out

/-- `symbol_value`. -/
def symbolValue (symbol : UInt8) : Option UInt8 :=
  if 65 ≤ symbol ∧ symbol ≤ 90 then some (symbol - 65)
  else if 97 ≤ symbol ∧ symbol ≤ 122 then some (symbol - 97)
  else if 50 ≤ symbol ∧ symbol ≤ 55 then some (symbol - 50 + 26)
  else none

structure Decoder where
  out : ByteList
  buffer : Nat
  bits : Nat
  ended : Bool

/-- The end of a turn, with the symbol's value. -/
def Decoder.push (st : Decoder) (value : Nat) : Decoder :=
  let buffer := shl16 st.buffer 5 ||| value
  let bits := st.bits + 5
  if 8 ≤ bits then
    { st with
      out := st.out ++ [UInt8.ofNat ((buffer >>> (bits - 8)) &&& 0xff)]
      buffer
      bits := bits - 8 }
  else { st with buffer, bits }

/-- One turn of `for symbol in text.bytes()`. Padding may only be trailing. -/
def Decoder.read (st : Decoder) (symbol : UInt8) : Option Decoder :=
  if symbol = 61 then some { st with ended := true }
  else if st.ended then none
  else (symbolValue symbol).map (fun value => st.push value.toNat)

def decode (text : Text) : Option ByteList := do
  let st ← (utf8 text).foldlM Decoder.read ⟨[], 0, 0, false⟩
  if 5 ≤ st.bits ∨ st.buffer &&& (shl16 1 st.bits - 1) ≠ 0 then none else some st.out

end Detent.Source.Base32
