import Detent.Lib.Codec

/-!
# JSON strings

The text of a string in compact JSON: a quote, the characters with the quote,
the backslash and the control characters escaped, a quote. The short escapes
are used where JSON has one and `\u00xx` for the other control characters.
-/
namespace Detent.Lib.JsonString

open Codec

/-- The short escapes: the letter after the backslash, the character meant. -/
def shortEscapes : List (Char × Char) :=
  [('"', '"'), ('\\', '\\'), ('b', Char.ofNat 8), ('t', '\t'), ('n', '\n'),
    ('f', Char.ofNat 12), ('r', '\r')]

/-- One character of a string. -/
def escapeChar (c : Char) : List Char :=
  match shortEscapes.find? (fun e => e.2 == c) with
  | some e => ['\\', e.1]
  | none =>
    if c.toNat < 32 then
      ['\\', 'u', '0', '0', Nat.digitChar (c.toNat / 16), Nat.digitChar (c.toNat % 16)]
    else [c]

def hexValue (c : Char) : Nat :=
  if c.isDigit then c.toNat - 48 else c.toNat - 87

/-- The characters of a string up to its closing quote, and the text after it. -/
def unescape : List Char → Option (List Char × List Char)
  | [] => none
  | '"' :: rest => some ([], rest)
  | '\\' :: 'u' :: '0' :: '0' :: h :: l :: rest =>
    (unescape rest).map (fun p => (Char.ofNat (16 * hexValue h + hexValue l) :: p.1, p.2))
  | '\\' :: e :: rest =>
    match shortEscapes.find? (fun s => s.1 == e) with
    | none => none
    | some s => (unescape rest).map (fun p => (s.2 :: p.1, p.2))
  | c :: rest => (unescape rest).map (fun p => (c :: p.1, p.2))

/-- The two hex digits of a control character read back as it. -/
theorem hexValue_digits (n : Nat) (h : n < 32) :
    16 * hexValue (Nat.digitChar (n / 16)) + hexValue (Nat.digitChar (n % 16)) = n := by
  have : ∀ m : Fin 32, 16 * hexValue (Nat.digitChar (m.val / 16)) +
      hexValue (Nat.digitChar (m.val % 16)) = m.val := by decide
  exact this ⟨n, h⟩

theorem unescape_short (e : Char × Char) (he : e ∈ shortEscapes) (rest : List Char) :
    unescape ('\\' :: e.1 :: rest) = (unescape rest).map (fun p => (e.2 :: p.1, p.2)) := by
  simp only [shortEscapes, List.mem_cons, List.not_mem_nil, or_false] at he
  rcases he with rfl | rfl | rfl | rfl | rfl | rfl | rfl <;> simp [unescape, shortEscapes]

theorem unescape_plain (c : Char) (hq : c ≠ '"') (hb : c ≠ '\\') (rest : List Char) :
    unescape (c :: rest) = (unescape rest).map (fun p => (c :: p.1, p.2)) := by
  rw [unescape.eq_def]
  split <;> simp_all

/-- Reading one escaped character gives it back. -/
theorem unescape_escapeChar (c : Char) (rest : List Char) :
    unescape (escapeChar c ++ rest) = (unescape rest).map (fun p => (c :: p.1, p.2)) := by
  unfold escapeChar
  split
  next e he =>
    have hmem := List.mem_of_find?_eq_some he
    have hc : e.2 = c := by simpa using List.find?_some he
    rw [← hc]
    exact unescape_short e hmem rest
  next hnone =>
    split
    next hlow =>
      have hchar : Char.ofNat c.toNat = c := Char.ofNat_toNat c
      simp only [List.cons_append, List.nil_append, unescape, hexValue_digits c.toNat hlow, hchar]
    next =>
      have hplain := List.find?_eq_none.mp hnone
      have hq : c ≠ '"' := fun h => hplain ('"', '"') (by simp [shortEscapes]) (by simp [h])
      have hb : c ≠ '\\' := fun h => hplain ('\\', '\\') (by simp [shortEscapes]) (by simp [h])
      exact unescape_plain c hq hb rest

theorem unescape_escaped (s rest : List Char) :
    unescape (s.flatMap escapeChar ++ '"' :: rest) = some (s, rest) := by
  induction s with
  | nil => simp [unescape]
  | cons c s ih =>
    rw [List.flatMap_cons, List.append_assoc, unescape_escapeChar, ih, Option.map_some]

/-- A string with its quotes. -/
def string : Codec String where
  write s := '"' :: s.toList.flatMap escapeChar ++ ['"']
  read
    | '"' :: text => (unescape text).map (fun p => (String.ofList p.1, p.2))
    | _ => none

theorem string_exact : string.ExactOn anything := by
  intro s rest _
  simp [string, unescape_escaped]

/-- A string, or `null`. -/
def nullable : Codec (Option String) where
  write
    | none => "null".toList
    | some s => string.write s
  read text :=
    match strip "null".toList text with
    | some rest => some (none, rest)
    | none => (string.read text).map (fun p => (some p.1, p.2))

theorem nullable_exact : nullable.ExactOn anything := by
  rintro (_ | s) rest hrest
  · simp only [nullable, strip_append]
  · have hstrip : strip "null".toList (string.write s ++ rest) = none := by
      simp [string, strip]
    simp only [nullable, hstrip, string_exact s rest hrest, Option.map_some]

/-- No escaped character is a line feed. -/
theorem lineFeed_not_mem_escapeChar (c : Char) : '\n' ∉ escapeChar c := by
  unfold escapeChar
  split
  next e he =>
    have hmem := List.mem_of_find?_eq_some he
    simp only [shortEscapes, List.mem_cons, List.not_mem_nil, or_false] at hmem
    rcases hmem with rfl | rfl | rfl | rfl | rfl | rfl | rfl <;> decide
  next hnone =>
    split
    next hlow =>
      have : ∀ m : Fin 32, '\n' ∉ ['\\', 'u', '0', '0', Nat.digitChar (m.val / 16),
          Nat.digitChar (m.val % 16)] := by decide
      exact this ⟨c.toNat, hlow⟩
    next hhigh =>
      intro hmem
      obtain rfl : '\n' = c := by simpa using hmem
      exact hhigh (by decide)

theorem string_avoids_lineFeed : string.Avoids '\n' := by
  intro s
  simp [string, lineFeed_not_mem_escapeChar]

theorem nullable_avoids_lineFeed : nullable.Avoids '\n' := by
  rintro (_ | s)
  · decide
  · exact string_avoids_lineFeed s

end Detent.Lib.JsonString
