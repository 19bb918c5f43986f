import Detent.Lib.Utf8

/-!
# Base64 and hexadecimal

The standard alphabet with canonical padding: `encode` writes four characters for three
bytes, and `decode` reads such a text back. A text with another length, padding inside
or unused bits that are set is refused.
-/
namespace Detent.Lib.Base64

/-- The character of a six-bit value. -/
def symbol (n : Nat) : Char :=
  if n < 26 then Char.ofNat (65 + n)
  else if n < 52 then Char.ofNat (71 + n)
  else if n < 62 then Char.ofNat (n - 4)
  else if n = 62 then '+' else '/'

/-- The six-bit value of a character. -/
def value (c : Char) : Option Nat :=
  if 'A' ≤ c ∧ c ≤ 'Z' then some (c.toNat - 65)
  else if 'a' ≤ c ∧ c ≤ 'z' then some (c.toNat - 71)
  else if '0' ≤ c ∧ c ≤ '9' then some (c.toNat + 4)
  else if c = '+' then some 62
  else if c = '/' then some 63
  else none

def encode : ByteList → Text
  | [] => []
  | [a] => [symbol (a.toNat / 4), symbol (a.toNat % 4 * 16), '=', '=']
  | [a, b] =>
    [symbol (a.toNat / 4), symbol (a.toNat % 4 * 16 + b.toNat / 16),
      symbol (b.toNat % 16 * 4), '=']
  | a :: b :: c :: rest =>
    symbol (a.toNat / 4) :: symbol (a.toNat % 4 * 16 + b.toNat / 16) ::
      symbol (b.toNat % 16 * 4 + c.toNat / 64) :: symbol (c.toNat % 64) :: encode rest

/-- The bytes of a last group that ends in padding. -/
def lastGroup (p q r : Char) : Option ByteList := do
  let x ← value p
  let y ← value q
  if r = '=' then
    if y % 16 = 0 then some [UInt8.ofNat (x * 4 + y / 16)] else none
  else
    let z ← value r
    if z % 4 = 0 then some [UInt8.ofNat (x * 4 + y / 16), UInt8.ofNat (y % 16 * 16 + z / 4)]
    else none

def decode : Text → Option ByteList
  | [] => some []
  | p :: q :: r :: s :: rest =>
    if s = '=' then
      if rest.isEmpty then lastGroup p q r else none
    else do
      let x ← value p
      let y ← value q
      let z ← value r
      let w ← value s
      let later ← decode rest
      some (UInt8.ofNat (x * 4 + y / 16) :: UInt8.ofNat (y % 16 * 16 + z / 4) ::
        UInt8.ofNat (z % 4 * 64 + w) :: later)
  | _ => none

/-- The values and characters of the alphabet correspond. -/
theorem value_symbol {n : Nat} (h : n < 64) : value (symbol n) = some n := by
  have hall : ∀ i : Fin 64, value (symbol i.val) = some i.val := by decide
  exact hall ⟨n, h⟩

theorem symbol_ne_pad {n : Nat} (h : n < 64) : symbol n ≠ '=' := by
  have hall : ∀ i : Fin 64, symbol i.val ≠ '=' := by decide
  exact hall ⟨n, h⟩

theorem byte_eq {a : UInt8} {n : Nat} (h : n = a.toNat) : UInt8.ofNat n = a := by
  rw [h, UInt8.ofNat_toNat]

/-- A written text reads back as its bytes. -/
theorem decode_encode (bytes : ByteList) : decode (encode bytes) = some bytes := by
  induction bytes using encode.induct with
  | case1 => rfl
  | case2 a =>
    have ha := a.toNat_lt
    simp only [encode, decode, lastGroup, if_true, List.isEmpty_nil,
      value_symbol (show a.toNat / 4 < 64 by omega),
      value_symbol (show a.toNat % 4 * 16 < 64 by omega), Option.bind_eq_bind, Option.bind_some]
    rw [if_pos (by omega), byte_eq (a := a) (by omega)]
  | case3 a b =>
    have ha := a.toNat_lt
    have hb := b.toNat_lt
    have hlast : symbol (b.toNat % 16 * 4) ≠ '=' := symbol_ne_pad (by omega)
    simp only [encode, decode, lastGroup, if_true, List.isEmpty_nil, if_neg hlast,
      value_symbol (show a.toNat / 4 < 64 by omega),
      value_symbol (show a.toNat % 4 * 16 + b.toNat / 16 < 64 by omega),
      value_symbol (show b.toNat % 16 * 4 < 64 by omega), Option.bind_eq_bind, Option.bind_some]
    rw [if_pos (by omega), byte_eq (a := a) (by omega), byte_eq (a := b) (by omega)]
  | case4 a b c rest ih =>
    have ha := a.toNat_lt
    have hb := b.toNat_lt
    have hc := c.toNat_lt
    have hlast : symbol (c.toNat % 64) ≠ '=' := symbol_ne_pad (by omega)
    simp only [encode, decode, if_neg hlast, value_symbol (show a.toNat / 4 < 64 by omega),
      value_symbol (show a.toNat % 4 * 16 + b.toNat / 16 < 64 by omega),
      value_symbol (show b.toNat % 16 * 4 + c.toNat / 64 < 64 by omega),
      value_symbol (show c.toNat % 64 < 64 by omega), ih, Option.bind_eq_bind, Option.bind_some]
    rw [byte_eq (a := a) (by omega), byte_eq (a := b) (by omega), byte_eq (a := c) (by omega)]

theorem encode_injective : Function.Injective encode := by
  intro xs ys h
  have hdecoded := congrArg decode h
  rw [decode_encode, decode_encode] at hdecoded
  exact Option.some.inj hdecoded

/-- A written text has symbols and padding only. -/
theorem not_mem_encode {c : Char} (hvalue : value c = none) (hpad : c ≠ '=') (bytes : ByteList) :
    c ∉ encode bytes := by
  have hsymbol : ∀ n, n < 64 → c ≠ symbol n := by
    rintro n hn rfl
    rw [value_symbol hn] at hvalue
    cases hvalue
  induction bytes using encode.induct with
  | case1 => simp [encode]
  | case2 a =>
    have ha := a.toNat_lt
    simp [encode, hpad, hsymbol (a.toNat / 4) (by omega), hsymbol (a.toNat % 4 * 16) (by omega)]
  | case3 a b =>
    have ha := a.toNat_lt
    have hb := b.toNat_lt
    simp [encode, hpad, hsymbol (a.toNat / 4) (by omega),
      hsymbol (a.toNat % 4 * 16 + b.toNat / 16) (by omega),
      hsymbol (b.toNat % 16 * 4) (by omega)]
  | case4 a b c' rest ih =>
    have ha := a.toNat_lt
    have hb := b.toNat_lt
    have hc := c'.toNat_lt
    simp [encode, ih, hsymbol (a.toNat / 4) (by omega),
      hsymbol (a.toNat % 4 * 16 + b.toNat / 16) (by omega),
      hsymbol (b.toNat % 16 * 4 + c'.toNat / 64) (by omega), hsymbol (c'.toNat % 64) (by omega)]

end Detent.Lib.Base64

namespace Detent.Lib

/-- Two hexadecimal digits for each byte tell the bytes. -/
theorem hexPairs_injective : Function.Injective (fun bytes : ByteList => bytes.flatMap (fun byte =>
    [Nat.digitChar (byte.toNat / 16), Nat.digitChar (byte.toNat % 16)])) := by
  have hdigit : ∀ a b : Fin 16, Nat.digitChar a.val = Nat.digitChar b.val → a = b := by decide
  intro xs ys h
  induction xs generalizing ys with
  | nil =>
    cases ys with
    | nil => rfl
    | cons y ys => simp at h
  | cons b xs ih =>
    cases ys with
    | nil => simp at h
    | cons y ys =>
      simp only [List.flatMap_cons, List.cons_append, List.nil_append, List.cons.injEq] at h
      obtain ⟨hhigh, hlow, hrest⟩ := h
      have hb := b.toNat_lt
      have hy := y.toNat_lt
      have h₁ := congrArg Fin.val (hdigit ⟨b.toNat / 16, by omega⟩ ⟨y.toNat / 16, by omega⟩ hhigh)
      have h₂ := congrArg Fin.val (hdigit ⟨b.toNat % 16, by omega⟩ ⟨y.toNat % 16, by omega⟩ hlow)
      have hby : b = y := UInt8.toNat_inj.mp (by simp only at h₁ h₂; omega)
      rw [hby, ih hrest]

end Detent.Lib
