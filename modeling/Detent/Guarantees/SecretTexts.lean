import Detent.Lib.Regroup
import Detent.Source.Base32

/-!
# The texts of a secret

The bytes of a secret, padded with zero bits to whole symbols, and its symbols write the same
number: both loops keep this of what they have read. So the symbols determine the bytes and the
bytes the symbols.
-/
namespace Detent.Guarantees.SecretTexts
open Lib Lib.Regroup Source.Base32

/-- What a shift and the new digit leave in the low bits. -/
theorem shl16_or_mod {bits k digit : Nat} (buffer : Nat) (hbits : bits + k ≤ 16)
    (hdigit : digit < 2 ^ k) :
    (shl16 buffer k ||| digit) % 2 ^ (bits + k) = buffer % 2 ^ bits * 2 ^ k + digit := by
  have hshift : shl16 buffer k = (buffer % 2 ^ (16 - k)) <<< k := by
    have hsplit : 65536 = 2 ^ (16 - k) * 2 ^ k := by
      rw [← Nat.pow_add, Nat.sub_add_cancel (by omega)]
    rw [shl16, Nat.shiftLeft_eq, Nat.shiftLeft_eq, hsplit, Nat.mul_mod_mul_right]
  rw [hshift, ← Nat.shiftLeft_add_eq_or_of_lt hdigit, Nat.shiftLeft_eq]
  have hlow : (buffer % 2 ^ (16 - k) * 2 ^ k + digit) % 2 ^ k = digit := by
    rw [Nat.mul_add_mod_self_right, Nat.mod_eq_of_lt hdigit]
  have hhigh : (buffer % 2 ^ (16 - k) * 2 ^ k + digit) / 2 ^ k = buffer % 2 ^ (16 - k) := by
    rw [Nat.mul_comm, Nat.mul_add_div (Nat.two_pow_pos k), Nat.div_eq_of_lt hdigit, Nat.add_zero]
  have hdrop : buffer % 2 ^ (16 - k) % 2 ^ bits = buffer % 2 ^ bits :=
    Nat.mod_mod_of_dvd _ (Nat.pow_dvd_pow 2 (by omega))
  rw [Nat.add_comm bits, Nat.pow_add, Nat.mod_mul, hlow, hhigh, hdrop]
  rw [Nat.mul_comm, Nat.add_comm]

/-- The digit above the low bits. -/
theorem shiftRight_and (buffer bits k : Nat) :
    (buffer >>> bits) &&& (2 ^ k - 1) = buffer % 2 ^ (bits + k) / 2 ^ bits := by
  rw [Nat.shiftRight_eq_div_pow, Nat.and_two_pow_sub_one_eq_mod, Nat.pow_add,
    Nat.mod_mul_right_div_self]

theorem mod_mod_low {bits k : Nat} (buffer : Nat) :
    buffer % 2 ^ (bits + k) % 2 ^ bits = buffer % 2 ^ bits :=
  Nat.mod_mod_of_dvd _ (Nat.pow_dvd_pow 2 (Nat.le_add_right bits k))

/-- The symbol of a five-bit value. -/
def letter (value : Nat) : Char := alphabet.getD value 'A'

theorem pushSymbol_letter {value : Nat} (h : value < 2 ^ 5) (out : Text) :
    pushSymbol out value = out ++ [letter value] := by
  have hall : ∀ i : Fin 32, alphabet[i.val]? = some (letter i.val) := by decide
  rw [pushSymbol, hall ⟨value, h⟩]

def values (bytes : ByteList) : List Nat := bytes.map UInt8.toNat

theorem values_lt (bytes : ByteList) : ∀ d ∈ values bytes, d < 2 ^ 8 := by
  intro d hd
  obtain ⟨byte, -, rfl⟩ := List.mem_map.mp hd
  exact byte.toNat_lt

theorem values_inj {a b : ByteList} (h : values a = values b) : a = b :=
  (List.map_injective_iff.mpr fun _ _ => UInt8.toNat_inj.mp) h

/-- What the encoder has written of the bytes it has read. -/
structure Encodes (read : ByteList) (output : List Nat) (st : Encoder) : Prop where
  out : st.out = output.map letter
  regrouped : Regrouped 8 5 (values read) output st.bits (st.buffer % 2 ^ st.bits)
  few : st.bits < 5

variable {output symbols : List Nat} {st st' : Decoder} {bytes : ByteList} {t : Text}

/-- The inner loop takes whole symbols from the buffer. -/
theorem pushSymbols_encodes {input : List Nat} (buffer : Nat) {turns bits : Nat} {out : Text}
    (hturns : bits ≤ turns) (hout : out = output.map letter)
    (h : Regrouped 8 5 input output bits (buffer % 2 ^ bits)) :
    ∃ output', (pushSymbols buffer turns bits out).2 = output'.map letter ∧
      Regrouped 8 5 input output' (pushSymbols buffer turns bits out).1
        (buffer % 2 ^ (pushSymbols buffer turns bits out).1) ∧
      (pushSymbols buffer turns bits out).1 < 5 := by
  induction turns generalizing bits out output with
  | zero =>
    have hbits : bits = 0 := by omega
    subst hbits
    exact ⟨output, hout, h, Nat.succ_pos 4⟩
  | succ turns ih =>
    rw [pushSymbols]
    by_cases hmany : 5 ≤ bits
    · obtain ⟨rest, rfl⟩ := Nat.exists_eq_add_of_le' hmany
      rw [if_pos hmany, Nat.add_sub_cancel]
      have hemit := h.emit
      have hindex : (buffer >>> rest) &&& 0x1f = buffer % 2 ^ (rest + 5) / 2 ^ rest :=
        shiftRight_and buffer rest 5
      rw [mod_mod_low] at hemit
      rw [hindex]
      have hvalue := hemit.digits _ (List.mem_append_right _ (List.mem_singleton_self _))
      refine ih (by omega) ?_ hemit
      rw [pushSymbol_letter hvalue, hout, List.map_append]
      rfl
    · rw [if_neg hmany]
      exact ⟨output, hout, h, by omega⟩

theorem push_encodes {read : ByteList} {st : Encoder} (h : Encodes read output st) (byte : UInt8) :
    ∃ output', Encodes (read ++ [byte]) output' (st.push byte) := by
  have hfew := h.few
  have hfeed := h.regrouped.feed byte.toNat_lt
  rw [← shl16_or_mod st.buffer (by omega) byte.toNat_lt] at hfeed
  obtain ⟨output', hout, hregrouped, hfewer⟩ := pushSymbols_encodes
    (shl16 st.buffer 8 ||| byte.toNat) (Nat.le_refl (st.bits + 8)) h.out hfeed
  refine ⟨output', hout, ?_, hfewer⟩
  rw [values, List.map_append]
  exact hregrouped

theorem foldl_encodes {read : ByteList} {st : Encoder} (h : Encodes read output st)
    (bytes : ByteList) :
    ∃ output', Encodes (read ++ bytes) output' (bytes.foldl Encoder.push st) := by
  induction bytes generalizing read output st with
  | nil =>
    rw [List.append_nil]
    exact ⟨output, h⟩
  | cons byte bytes ih =>
    obtain ⟨output', hpush⟩ := push_encodes h byte
    rw [List.append_cons read byte bytes]
    exact ih hpush

/-- An encoded text: the bytes' bits in symbols, with zero bits up to a whole symbol. -/
theorem encode_packs (bytes : ByteList) :
    ∃ packed, encode bytes = packed.map letter ∧ Packs 8 5 (values bytes) packed := by
  have hstart : Encodes [] [] ⟨[], 0, 0⟩ := ⟨rfl, regrouped_start 8 5, by decide⟩
  obtain ⟨output, hout, hregrouped, hfew⟩ := foldl_encodes hstart bytes
  rw [List.nil_append] at hregrouped
  rw [encode]
  generalize bytes.foldl Encoder.push ⟨[], 0, 0⟩ = st at *
  by_cases hbits : 0 < st.bits
  · have hpacks := hregrouped.packs_pad hbits hfew
    have hindex : shl16 st.buffer (5 - st.bits) &&& 0x1f =
        st.buffer % 2 ^ st.bits * 2 ^ (5 - st.bits) := by
      have hmod := @shl16_or_mod st.bits (5 - st.bits) 0 st.buffer (by omega)
        (Nat.two_pow_pos _)
      rw [Nat.or_zero, Nat.add_zero, Nat.add_sub_cancel' hfew.le] at hmod
      rw [← hmod]
      exact Nat.and_two_pow_sub_one_eq_mod _ 5
    have hvalue := hpacks.digits _ (List.mem_append_right _ (List.mem_singleton_self _))
    refine ⟨_, ?_, hpacks⟩
    rw [if_pos hbits, hindex, pushSymbol_letter hvalue, hout, List.map_append]
    rfl
  · have hzero : st.bits = 0 := by omega
    rw [hzero] at hregrouped
    refine ⟨output, ?_, hregrouped.packs (by decide)⟩
    rw [if_neg hbits, hout]

/-- What the decoder has written of the symbols it has read. -/
structure Decodes (read : List Nat) (st : Decoder) : Prop where
  regrouped : Regrouped 5 8 read (values st.out) st.bits (st.buffer % 2 ^ st.bits)
  few : st.bits < 8

theorem push_decodes {read : List Nat} (h : Decodes read st) {value : Nat}
    (hvalue : value < 2 ^ 5) : Decodes (read ++ [value]) (st.push value) := by
  have hfew := h.few
  have hfeed := h.regrouped.feed hvalue
  rw [← shl16_or_mod st.buffer (by omega) hvalue] at hfeed
  rw [Decoder.push]
  by_cases hmany : 8 ≤ st.bits + 5
  · obtain ⟨rest, hrest⟩ := Nat.exists_eq_add_of_le' hmany
    rw [if_pos hmany, hrest, Nat.add_sub_cancel]
    rw [hrest] at hfeed
    have hemit := hfeed.emit
    have hbyte : ((shl16 st.buffer 5 ||| value) >>> rest) &&& 0xff =
        (shl16 st.buffer 5 ||| value) % 2 ^ (rest + 8) / 2 ^ rest :=
      shiftRight_and _ rest 8
    have hlow := hemit.digits _ (List.mem_append_right _ (List.mem_singleton_self _))
    rw [mod_mod_low] at hemit
    refine ⟨?_, by dsimp only; omega⟩
    dsimp only
    rw [hbyte, values, List.map_append, List.map_singleton, UInt8.toNat_ofNat_of_lt' hlow]
    exact hemit
  · rw [if_neg hmany]
    exact ⟨hfeed, by dsimp only; omega⟩

theorem foldl_decodes {read : List Nat} (h : Decodes read st)
    (hsymbols : ∀ d ∈ symbols, d < 2 ^ 5) :
    Decodes (read ++ symbols) (symbols.foldl Decoder.push st) := by
  induction symbols generalizing read st with
  | nil =>
    rw [List.append_nil]
    exact h
  | cons value symbols ih =>
    obtain ⟨hvalue, hrest⟩ := List.forall_mem_cons.mp hsymbols
    rw [List.append_cons read value symbols]
    exact ih (push_decodes h hvalue) hrest

/-- What the last test of `decode` makes of the symbols' state. -/
def finish (st : Decoder) : Option ByteList :=
  if 5 ≤ st.bits ∨ st.buffer &&& (shl16 1 st.bits - 1) ≠ 0 then none else some st.out

/-- The last test passes where fewer than five bits are left over, all zero. -/
theorem finish_eq_some {read : List Nat} (h : Decodes read st) :
    finish st = some bytes ↔ st.bits < 5 ∧ st.buffer % 2 ^ st.bits = 0 ∧ st.out = bytes := by
  have hfew := h.few
  have hone : shl16 1 st.bits = 2 ^ st.bits := by
    rw [shl16, Nat.shiftLeft_eq, Nat.one_mul]
    refine Nat.mod_eq_of_lt ?_
    calc 2 ^ st.bits < 2 ^ 8 := Nat.pow_lt_pow_right (by decide) hfew
      _ < 65536 := by decide
  rw [finish, hone, Nat.and_two_pow_sub_one_eq_mod]
  split_ifs with htest
  · refine ⟨nofun, ?_⟩
    rintro ⟨hbits, hzero, -⟩
    rcases htest with hmany | hset
    · omega
    · exact absurd hzero hset
  · push Not at htest
    obtain ⟨hbits, hzero⟩ := htest
    exact ⟨fun hsome => ⟨hbits, hzero, Option.some.inj hsome⟩, fun hall => by rw [hall.2.2]⟩

/-- The state of the decoder after its symbols. -/
def decoded (symbols : List Nat) : Decoder := symbols.foldl Decoder.push ⟨[], 0, 0, false⟩

theorem decoded_decodes (h : ∀ d ∈ symbols, d < 2 ^ 5) : Decodes symbols (decoded symbols) := by
  have hstart : Decodes [] ⟨[], 0, 0, false⟩ := ⟨regrouped_start 5 8, by decide⟩
  have hall := foldl_decodes hstart h
  rwa [List.nil_append] at hall

/-- Symbols decode to the bytes whose symbols they are, and only those do. -/
theorem finish_decoded_iff (h : ∀ d ∈ symbols, d < 2 ^ 5) :
    finish (decoded symbols) = some bytes ↔ Packs 8 5 (values bytes) symbols := by
  have hdecodes := decoded_decodes h
  rw [finish_eq_some hdecodes]
  constructor
  · rintro ⟨hbits, hzero, rfl⟩
    have hregrouped := hdecodes.regrouped
    rw [hzero] at hregrouped
    exact hregrouped.packs_back hbits h
  · intro hpacks
    obtain ⟨hout, hbits, hzero⟩ := hpacks.back (by decide) (by decide) (values_lt bytes)
      hdecodes.regrouped hdecodes.few
    exact ⟨hbits, hzero, values_inj hout⟩

/-- A character is one byte of ASCII or starts with another byte. -/
theorem encodeChar_head (c : Char) :
    (c.toNat < 128 ∧ String.utf8EncodeChar c = [UInt8.ofNat c.toNat]) ∨
      ∃ first rest, String.utf8EncodeChar c = first :: rest ∧ 128 ≤ first.toNat := by
  have hvalid : c.val.toNat < 0xD800 ∨ 0xDFFF < c.val.toNat ∧ c.val.toNat < 0x110000 := c.valid
  unfold String.utf8EncodeChar
  dsimp only
  split_ifs with hone htwo hthree
  · exact .inl ⟨Nat.lt_succ_of_le hone, rfl⟩
  all_goals
    refine .inr ⟨_, _, rfl, ?_⟩
    rw [toNat_ofNat_of_lt (by omega)]
    omega

theorem symbolValue_high {symbol : UInt8} (h : 128 ≤ symbol.toNat) : symbolValue symbol = none := by
  have hall : ∀ n : Fin 256, 128 ≤ n.val → symbolValue (UInt8.ofNat n.val) = none := by
    decide +kernel
  have hsymbol := hall ⟨symbol.toNat, symbol.toNat_lt⟩ h
  rwa [UInt8.ofNat_toNat] at hsymbol

/-- `str::to_ascii_uppercase`. -/
def toAsciiUppercase (t : Text) : Text :=
  t.map (fun c => if 'a' ≤ c && c ≤ 'z' then Char.ofNat (c.toNat - 32) else c)

/-- A text without its trailing padding, in upper case. -/
def normal (t : Text) : Text := toAsciiUppercase (t.rdropWhile (fun c => c == '='))

/-- The characters that have a value: the symbols, in either case. -/
theorem symbolValue_char {c : Char} (h : c.toNat < 128) {value : UInt8}
    (hvalue : symbolValue (UInt8.ofNat c.toNat) = some value) :
    value.toNat < 2 ^ 5 ∧ toAsciiUppercase [c] = [letter value.toNat] ∧ c ≠ '=' := by
  have hall : ∀ n : Fin 128, ∀ value ∈ symbolValue (UInt8.ofNat n.val), value.toNat < 2 ^ 5 ∧
      toAsciiUppercase [Char.ofNat n.val] = [letter value.toNat] ∧ Char.ofNat n.val ≠ '=' := by
    decide +kernel
  have hchar := hall ⟨c.toNat, h⟩ value hvalue
  rwa [Char.ofNat_toNat] at hchar

theorem read_char {c : Char} (h : (String.utf8EncodeChar c).foldlM Decoder.read st = some st') :
    (c = '=' ∧ st' = { st with ended := true }) ∨
      (st.ended = false ∧ c ≠ '=' ∧ ∃ value, value < 2 ^ 5 ∧ toAsciiUppercase [c] = [letter value] ∧
        st' = st.push value) := by
  rcases encodeChar_head c with ⟨hascii, hbytes⟩ | ⟨first, rest, hbytes, hhigh⟩
  · have hread : st.read (UInt8.ofNat c.toNat) = some st' := by
      rw [hbytes, List.foldlM_cons] at h
      obtain ⟨mid, hmid, hend⟩ := Option.bind_eq_some_iff.mp h
      rwa [Option.some.inj hend] at hmid
    rw [Decoder.read] at hread
    split_ifs at hread with hpad hended
    · have heq : c.toNat = 61 := by
        have := congrArg UInt8.toNat hpad
        rwa [toNat_ofNat_of_lt (by omega)] at this
      refine .inl ⟨?_, (Option.some.inj hread).symm⟩
      rw [← Char.ofNat_toNat c, heq]
    · obtain ⟨value, hvalue, hpush⟩ := Option.map_eq_some_iff.mp hread
      obtain ⟨hlow, hupper, hne⟩ := symbolValue_char hascii hvalue
      exact .inr ⟨by simpa using hended, hne, value.toNat, hlow, hupper, hpush.symm⟩
  · have hpad : first ≠ 61 := by
      rintro rfl
      exact absurd hhigh (by decide)
    have hread : st.read first = none := by
      rw [Decoder.read, if_neg hpad, symbolValue_high hhigh]
      split_ifs <;> rfl
    rw [hbytes, List.foldlM_cons, hread] at h
    cases h

theorem utf8_cons (c : Char) (t : Text) : utf8 (c :: t) = String.utf8EncodeChar c ++ utf8 t := rfl

/-- Reading a text character by character. -/
theorem read_cons {c : Char} (h : (utf8 (c :: t)).foldlM Decoder.read st = some st') :
    ∃ mid, (String.utf8EncodeChar c).foldlM Decoder.read st = some mid ∧
      (utf8 t).foldlM Decoder.read mid = some st' := by
  rw [utf8_cons, List.foldlM_append] at h
  exact Option.bind_eq_some_iff.mp h

/-- Only padding follows padding. -/
theorem read_ended (hended : st.ended = true) (h : (utf8 t).foldlM Decoder.read st = some st') :
    (∀ c ∈ t, c = '=') ∧ finish st' = finish st := by
  induction t generalizing st with
  | nil =>
    obtain rfl := Option.some.inj h
    exact ⟨by simp, rfl⟩
  | cons c t ih =>
    obtain ⟨mid, hchar, hrest⟩ := read_cons h
    rcases read_char hchar with ⟨rfl, rfl⟩ | ⟨hopen, -⟩
    · obtain ⟨hall, hfinish⟩ := ih rfl hrest
      exact ⟨List.forall_mem_cons.mpr ⟨rfl, hall⟩, hfinish⟩
    · rw [hended] at hopen
      cases hopen

theorem push_ended (st : Decoder) (value : Nat) : (st.push value).ended = st.ended := by
  rw [Decoder.push]
  split_ifs <;> rfl

theorem read_text (hopen : st.ended = false) (h : (utf8 t).foldlM Decoder.read st = some st') :
    ∃ (body pads : Text) (symbols : List Nat), t = body ++ pads ∧ (∀ c ∈ pads, c = '=') ∧
      (∀ c ∈ body, c ≠ '=') ∧ (∀ d ∈ symbols, d < 2 ^ 5) ∧ toAsciiUppercase body = symbols.map letter ∧
      finish st' = finish (symbols.foldl Decoder.push st) := by
  induction t generalizing st with
  | nil =>
    obtain rfl := Option.some.inj h
    exact ⟨[], [], [], rfl, by simp, by simp, by simp, rfl, rfl⟩
  | cons c t ih =>
    obtain ⟨mid, hchar, hrest⟩ := read_cons h
    rcases read_char hchar with ⟨rfl, rfl⟩ | ⟨-, hne, value, hlow, hupper, rfl⟩
    · obtain ⟨hall, hfinish⟩ := read_ended rfl hrest
      exact ⟨[], '=' :: t, [], rfl, List.forall_mem_cons.mpr ⟨rfl, hall⟩, by simp, by simp, rfl,
        hfinish⟩
    · obtain ⟨body, pads, symbols, rfl, hpads, hbody, hsymbols, hletters, hfinish⟩ :=
        ih ((push_ended st value).trans hopen) hrest
      refine ⟨c :: body, pads, value :: symbols, rfl, hpads,
        List.forall_mem_cons.mpr ⟨hne, hbody⟩, List.forall_mem_cons.mpr ⟨hlow, hsymbols⟩, ?_,
        hfinish⟩
      exact congrArg₂ (· ++ ·) hupper hletters

theorem read_letters (h : ∀ d ∈ symbols, d < 2 ^ 5) (hopen : st.ended = false) :
    (utf8 (symbols.map letter)).foldlM Decoder.read st = some (symbols.foldl Decoder.push st) := by
  have hall : ∀ i : Fin 32, ∃ symbol, String.utf8EncodeChar (letter i.val) = [symbol] ∧
      symbol ≠ 61 ∧ symbolValue symbol = some (UInt8.ofNat i.val) := by
    intro i
    refine ⟨UInt8.ofNat (letter i.val).toNat, ?_⟩
    revert i
    decide +kernel
  induction symbols generalizing st with
  | nil => rfl
  | cons value symbols ih =>
    obtain ⟨hvalue, hrest⟩ := List.forall_mem_cons.mp h
    obtain ⟨symbol, hbytes, hpad, hread⟩ := hall ⟨value, hvalue⟩
    have hnumber : (UInt8.ofNat value).toNat = value := toNat_ofNat_of_lt (by omega)
    rw [List.map_cons, utf8_cons, hbytes, List.singleton_append, List.foldlM_cons, Decoder.read,
      if_neg hpad, hopen, hread, Option.map_some, hnumber, List.foldl_cons]
    exact ih hrest ((push_ended st value).trans hopen)

theorem decode_eq (t : Text) :
    decode t = ((utf8 t).foldlM Decoder.read ⟨[], 0, 0, false⟩).bind finish := rfl

theorem normal_append {body pads : Text} (hpads : ∀ c ∈ pads, c = '=')
    (hbody : ∀ c ∈ body, c ≠ '=') : normal (body ++ pads) = toAsciiUppercase body := by
  have hstrip : (body ++ pads).rdropWhile (fun c => c == '=') = body := by
    rw [List.rdropWhile, List.reverse_append, List.dropWhile_append_of_pos (by simpa using hpads)]
    cases hreverse : body.reverse with
    | nil => simpa using hreverse
    | cons c rest =>
      have hc : c ≠ '=' := hbody c (List.mem_reverse.mp (by rw [hreverse]; exact List.mem_cons_self))
      rw [List.dropWhile_cons_of_neg (by simpa using hc), ← hreverse, List.reverse_reverse]
  rw [normal, hstrip]

theorem decode_packs (h : decode t = some bytes) :
    ∃ symbols, normal t = symbols.map letter ∧ Packs 8 5 (values bytes) symbols := by
  rw [decode_eq] at h
  obtain ⟨st, hread, hfinish⟩ := Option.bind_eq_some_iff.mp h
  obtain ⟨body, pads, symbols, rfl, hpads, hbody, hsymbols, hletters, hsame⟩ := read_text rfl hread
  refine ⟨symbols, (normal_append hpads hbody).trans hletters, ?_⟩
  rw [hsame] at hfinish
  exact (finish_decoded_iff hsymbols).mp hfinish

/-- A text that decodes is, but for case and padding, the one that its bytes encode to. -/
theorem encode_of_decode (h : decode t = some bytes) : encode bytes = normal t := by
  obtain ⟨symbols, hnormal, hpacks⟩ := decode_packs h
  obtain ⟨packed, hencode, hpacked⟩ := encode_packs bytes
  rw [hencode, hnormal, hpacked.unique (by decide) hpacks]

theorem decode_encode (bytes : ByteList) : decode (encode bytes) = some bytes := by
  obtain ⟨packed, hencode, hpacks⟩ := encode_packs bytes
  rw [decode_eq, hencode, read_letters hpacks.digits rfl]
  exact (finish_decoded_iff hpacks.digits).mpr hpacks

/-- Base32 is an exact codec, up to case and padding. -/
theorem base32_exact :
    (∀ bytes, decode (encode bytes) = some bytes) ∧
    (∀ t bytes, decode t = some bytes → encode bytes = normal t) ∧
    ∀ t t' bytes, decode t = some bytes → decode t' = some bytes → normal t = normal t' := by
  refine ⟨decode_encode, fun t bytes h => encode_of_decode h, fun t t' bytes h h' => ?_⟩
  rw [← encode_of_decode h, ← encode_of_decode h']

/-- A padded text in lower case and an unpadded one in upper case. -/
theorem foob_texts :
    decode (encode (utf8 "foob".toList)) = some (utf8 "foob".toList) ∧
      encode (utf8 "foob".toList) = normal "mzxw6yq=".toList ∧
      normal "mzxw6yq=".toList = normal "MZXW6YQ".toList := by
  have hpadded : decode "mzxw6yq=".toList = some (utf8 "foob".toList) := by decide +kernel
  have hplain : decode "MZXW6YQ".toList = some (utf8 "foob".toList) := by decide +kernel
  exact ⟨base32_exact.1 _, base32_exact.2.1 _ _ hpadded, base32_exact.2.2 _ _ _ hpadded hplain⟩

end Detent.Guarantees.SecretTexts
