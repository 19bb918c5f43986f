import Detent.Lib.Text

/-!
# UTF-8

`str::as_bytes`, `str::from_utf8` and `String::from_utf8_lossy` on lists of
bytes and characters. The strict decoder is the one of the core library.
-/
namespace Detent.Lib

abbrev ByteList := List UInt8

/-- `str::as_bytes`. -/
def utf8 (text : Text) : ByteList := text.flatMap String.utf8EncodeChar

/-- `str::from_utf8`: the characters of a byte string, when it is UTF-8. -/
def ofUtf8 (bytes : ByteList) : Option Text := bytes.toByteArray.utf8Decode?.map (·.toList)

theorem ofUtf8_utf8 (text : Text) : ofUtf8 (utf8 text) = some text := by
  have h : (utf8 text).toByteArray = text.utf8Encode := rfl
  simp [ofUtf8, h]

theorem utf8_injective : Function.Injective utf8 := by
  intro s t h
  have hread := congrArg ofUtf8 h
  rw [ofUtf8_utf8, ofUtf8_utf8] at hread
  exact Option.some.inj hread

theorem mod_of_ofNat_eq_lineFeed (n : Nat) (h : (10 : UInt8) = UInt8.ofNat n) : n % 256 = 10 := by
  have := congrArg UInt8.toNat h
  simpa using this.symm

/-- Only the line feed has the byte 10 in its encoding. -/
theorem lineFeed_mem_utf8EncodeChar (c : Char) (h : (10 : UInt8) ∈ String.utf8EncodeChar c) :
    c = '\n' := by
  have hval : c.val.toNat = 10 := by
    unfold String.utf8EncodeChar at h
    dsimp only at h
    split_ifs at h <;> simp only [List.mem_cons, List.not_mem_nil, or_false] at h
    · have := mod_of_ofNat_eq_lineFeed _ h
      omega
    · rcases h with h | h <;> have := mod_of_ofNat_eq_lineFeed _ h <;> omega
    · rcases h with h | h | h <;> have := mod_of_ofNat_eq_lineFeed _ h <;> omega
    · rcases h with h | h | h | h <;> have := mod_of_ofNat_eq_lineFeed _ h <;> omega
  exact Char.ext (UInt32.toNat_inj.mp hval)

theorem lineFeed_not_mem_utf8 (text : Text) (h : '\n' ∉ text) : (10 : UInt8) ∉ utf8 text := by
  intro hmem
  obtain ⟨c, hc, hbyte⟩ := List.mem_flatMap.mp hmem
  exact h (lineFeed_mem_utf8EncodeChar c hbyte ▸ hc)

/-- The replacement character. -/
def replacement : Char := Char.ofNat 0xFFFD

def isContinuation (byte : Nat) : Bool := 0x80 ≤ byte && byte ≤ 0xBF

/-- The second bytes that may follow a first byte of a three or four byte
sequence. -/
def isSecond (first second : Nat) : Bool :=
  if first = 0xE0 then 0xA0 ≤ second && second ≤ 0xBF
  else if first = 0xED then 0x80 ≤ second && second ≤ 0x9F
  else if first = 0xF0 then 0x90 ≤ second && second ≤ 0xBF
  else if first = 0xF4 then 0x80 ≤ second && second ≤ 0x8F
  else isContinuation second

/-- The character decoded at a first byte and the number of bytes after it that
belong to it; an ill-formed sequence is replaced up to its first bad byte. A
missing byte reads as 0. -/
def lossyChar (first : Nat) (rest : ByteList) : Char × Nat :=
  let second := (rest.getD 0 0).toNat
  let third := (rest.getD 1 0).toNat
  let fourth := (rest.getD 2 0).toNat
  if first < 0x80 then (Char.ofNat first, 0)
  else if 0xC2 ≤ first ∧ first ≤ 0xDF then
    if isContinuation second then (Char.ofNat ((first % 32) * 64 + second % 64), 1)
    else (replacement, 0)
  else if 0xE0 ≤ first ∧ first ≤ 0xEF then
    if !isSecond first second then (replacement, 0)
    else if !isContinuation third then (replacement, 1)
    else (Char.ofNat ((first % 16) * 4096 + (second % 64) * 64 + third % 64), 2)
  else if 0xF0 ≤ first ∧ first ≤ 0xF4 then
    if !isSecond first second then (replacement, 0)
    else if !isContinuation third then (replacement, 1)
    else if !isContinuation fourth then (replacement, 2)
    else (Char.ofNat ((first % 8) * 262144 + (second % 64) * 4096 + (third % 64) * 64 +
      fourth % 64), 3)
  else (replacement, 0)

/-- `skip` bytes belong to the character decoded last. -/
def lossyFrom : Nat → ByteList → Text
  | _, [] => []
  | skip + 1, _ :: rest => lossyFrom skip rest
  | 0, byte :: rest => (lossyChar byte.toNat rest).1 :: lossyFrom (lossyChar byte.toNat rest).2 rest

/-- `String::from_utf8_lossy`. -/
def fromUtf8Lossy (bytes : ByteList) : Text := lossyFrom 0 bytes

theorem toNat_ofNat_of_lt {n : Nat} (h : n < 256) : (UInt8.ofNat n).toNat = n := by
  rw [UInt8.toNat_ofNat', Nat.mod_eq_of_lt h]

theorem lossyChar_one {v : Nat} (h : v ≤ 127) (rest : ByteList) :
    lossyChar v rest = (Char.ofNat v, 0) := by
  have h₁ : v < 0x80 := by omega
  simp only [lossyChar, h₁, if_true]

theorem lossyChar_two {v : Nat} (h₁ : 127 < v) (h₂ : v ≤ 2047) (rest : ByteList) :
    lossyChar (v / 64 % 32 + 192) (UInt8.ofNat (v % 64 + 128) :: rest) = (Char.ofNat v, 1) := by
  have hfirst : ¬ v / 64 % 32 + 192 < 0x80 := by omega
  have hrange : 0xC2 ≤ v / 64 % 32 + 192 ∧ v / 64 % 32 + 192 ≤ 0xDF := by omega
  have hsecond : isContinuation (v % 64 + 128) = true := by
    simp only [isContinuation, Bool.and_eq_true, decide_eq_true_eq]
    omega
  have hvalue : (v / 64 % 32 + 192) % 32 * 64 + (v % 64 + 128) % 64 = v := by omega
  simp only [lossyChar, List.getD_cons_zero, toNat_ofNat_of_lt (show v % 64 + 128 < 256 by omega),
    hfirst, hrange, hsecond, hvalue, if_true, if_false, and_self]

theorem lossyChar_three {v : Nat} (h₁ : 2047 < v) (h₂ : v ≤ 65535) (hs : v < 0xD800 ∨ 0xDFFF < v)
    (rest : ByteList) :
    lossyChar (v / 4096 % 16 + 224)
      (UInt8.ofNat (v / 64 % 64 + 128) :: UInt8.ofNat (v % 64 + 128) :: rest) =
      (Char.ofNat v, 2) := by
  have hfirst : ¬ v / 4096 % 16 + 224 < 0x80 := by omega
  have htwo : ¬ (0xC2 ≤ v / 4096 % 16 + 224 ∧ v / 4096 % 16 + 224 ≤ 0xDF) := by omega
  have hrange : 0xE0 ≤ v / 4096 % 16 + 224 ∧ v / 4096 % 16 + 224 ≤ 0xEF := by omega
  have hsecond : isSecond (v / 4096 % 16 + 224) (v / 64 % 64 + 128) = true := by
    unfold isSecond isContinuation
    split_ifs <;> simp only [Bool.and_eq_true, decide_eq_true_eq] <;> omega
  have hthird : isContinuation (v % 64 + 128) = true := by
    simp only [isContinuation, Bool.and_eq_true, decide_eq_true_eq]
    omega
  have hvalue : (v / 4096 % 16 + 224) % 16 * 4096 + (v / 64 % 64 + 128) % 64 * 64 +
      (v % 64 + 128) % 64 = v := by omega
  simp only [lossyChar, List.getD_cons_zero, List.getD_cons_succ,
    toNat_ofNat_of_lt (show v / 64 % 64 + 128 < 256 by omega),
    toNat_ofNat_of_lt (show v % 64 + 128 < 256 by omega),
    hfirst, htwo, hrange, hsecond, hthird, hvalue, if_true, if_false, and_self, Bool.not_true,
    Bool.false_eq_true]

theorem lossyChar_four {v : Nat} (h₁ : 65535 < v) (h₂ : v < 0x110000) (rest : ByteList) :
    lossyChar (v / 262144 % 8 + 240)
      (UInt8.ofNat (v / 4096 % 64 + 128) :: UInt8.ofNat (v / 64 % 64 + 128) ::
        UInt8.ofNat (v % 64 + 128) :: rest) = (Char.ofNat v, 3) := by
  have hfirst : ¬ v / 262144 % 8 + 240 < 0x80 := by omega
  have htwo : ¬ (0xC2 ≤ v / 262144 % 8 + 240 ∧ v / 262144 % 8 + 240 ≤ 0xDF) := by omega
  have hthree : ¬ (0xE0 ≤ v / 262144 % 8 + 240 ∧ v / 262144 % 8 + 240 ≤ 0xEF) := by omega
  have hrange : 0xF0 ≤ v / 262144 % 8 + 240 ∧ v / 262144 % 8 + 240 ≤ 0xF4 := by omega
  have hsecond : isSecond (v / 262144 % 8 + 240) (v / 4096 % 64 + 128) = true := by
    unfold isSecond isContinuation
    split_ifs <;> simp only [Bool.and_eq_true, decide_eq_true_eq] <;> omega
  have hthird : isContinuation (v / 64 % 64 + 128) = true := by
    simp only [isContinuation, Bool.and_eq_true, decide_eq_true_eq]
    omega
  have hfourth : isContinuation (v % 64 + 128) = true := by
    simp only [isContinuation, Bool.and_eq_true, decide_eq_true_eq]
    omega
  have hvalue : (v / 262144 % 8 + 240) % 8 * 262144 + (v / 4096 % 64 + 128) % 64 * 4096 +
      (v / 64 % 64 + 128) % 64 * 64 + (v % 64 + 128) % 64 = v := by omega
  simp only [lossyChar, List.getD_cons_zero, List.getD_cons_succ,
    toNat_ofNat_of_lt (show v / 4096 % 64 + 128 < 256 by omega),
    toNat_ofNat_of_lt (show v / 64 % 64 + 128 < 256 by omega),
    toNat_ofNat_of_lt (show v % 64 + 128 < 256 by omega),
    hfirst, htwo, hthree, hrange, hsecond, hthird, hfourth, hvalue, if_true, if_false, and_self,
    Bool.not_true, Bool.false_eq_true]

/-- Decoding one encoded character. -/
theorem lossyFrom_encodeChar (c : Char) (rest : ByteList) :
    lossyFrom 0 (String.utf8EncodeChar c ++ rest) = c :: lossyFrom 0 rest := by
  have hchar : Char.ofNat c.val.toNat = c := Char.ofNat_toNat c
  have hvalid : c.val.toNat < 0xD800 ∨ 0xDFFF < c.val.toNat ∧ c.val.toNat < 0x110000 := c.valid
  unfold String.utf8EncodeChar
  dsimp only
  split_ifs with h₁ h₂ h₃
  · simp only [List.cons_append, List.nil_append, lossyFrom,
      toNat_ofNat_of_lt (show c.val.toNat < 256 by omega), lossyChar_one h₁, hchar]
  · simp only [List.cons_append, List.nil_append, lossyFrom,
      toNat_ofNat_of_lt (show c.val.toNat / 64 % 32 + 192 < 256 by omega),
      lossyChar_two (by omega) h₂, hchar]
  · simp only [List.cons_append, List.nil_append, lossyFrom,
      toNat_ofNat_of_lt (show c.val.toNat / 4096 % 16 + 224 < 256 by omega),
      lossyChar_three (by omega) h₃ (by omega), hchar]
  · simp only [List.cons_append, List.nil_append, lossyFrom,
      toNat_ofNat_of_lt (show c.val.toNat / 262144 % 8 + 240 < 256 by omega),
      lossyChar_four (show 65535 < c.val.toNat by omega) (by omega), hchar]

/-- The bytes of a text decode to it, whatever follows them. -/
theorem fromUtf8Lossy_utf8_append (text : Text) (rest : ByteList) :
    fromUtf8Lossy (utf8 text ++ rest) = text ++ fromUtf8Lossy rest := by
  unfold fromUtf8Lossy utf8
  induction text with
  | nil => rfl
  | cons c text ih =>
    rw [List.flatMap_cons, List.append_assoc, lossyFrom_encodeChar, ih, List.cons_append]

/-- Decoding the bytes of a text gives the text. -/
theorem fromUtf8Lossy_utf8 (text : Text) : fromUtf8Lossy (utf8 text) = text := by
  have h := fromUtf8Lossy_utf8_append text []
  rw [List.append_nil] at h
  rw [h]
  exact List.append_nil text

theorem fromUtf8Lossy_eq_nil {bytes : ByteList} (h : fromUtf8Lossy bytes = []) : bytes = [] := by
  cases bytes with
  | nil => rfl
  | cons byte rest => cases h

theorem length_utf8EncodeChar_ascii {c : Char} (h : c.toNat < 128) : (String.utf8EncodeChar c).length = 1 := by
  rw [String.length_utf8EncodeChar, Char.utf8Size]
  have : c.val.toNat < 128 := h
  rw [if_pos]
  exact UInt32.le_iff_toNat_le.mpr (by simp; omega)

theorem length_utf8_toAsciiLowercase (t : Text) :
    (utf8 (Text.toAsciiLowercase t)).length = (utf8 t).length := by
  induction t with
  | nil => rfl
  | cons c t ih =>
    simp only [utf8, Text.toAsciiLowercase, List.map_cons, List.flatMap_cons, List.length_append] at ih ⊢
    rw [ih]
    congr 1
    split
    · rename_i hc
      simp only [Bool.and_eq_true, decide_eq_true_eq] at hc
      have hlow : 65 ≤ c.toNat := hc.1
      have hhigh : c.toNat ≤ 90 := hc.2
      rw [length_utf8EncodeChar_ascii, length_utf8EncodeChar_ascii (by omega)]
      rw [Text.toNat_ofNat (by omega)]
      omega
    · rfl

end Detent.Lib
