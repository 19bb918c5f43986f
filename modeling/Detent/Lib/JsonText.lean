import Mathlib.Algebra.Field.Rat
import Detent.Lib.Machine
import Detent.Lib.Text

/-!
# JSON texts

RFC 8259: the lexemes of a JSON text as they are written, the grammar over them, and the
value that a text means. A string means UTF-16 code units, a number a rational. White space
is a lexeme of its own, so that a text is its lexemes and nothing else.
-/
namespace Detent.Lib.JsonText
open Text

/-- `ws`. -/
def isSpace (c : Char) : Bool := c == ' ' || c == '\t' || c == '\n' || c == '\r'

/-- `HEXDIG`, in either case. -/
def isHex (c : Char) : Bool :=
  isAsciiDigit c || ('a' ≤ c && c ≤ 'f') || ('A' ≤ c && c ≤ 'F')

def hexValue (c : Char) : Nat :=
  if isAsciiDigit c then c.toNat - 48 else if 'a' ≤ c then c.toNat - 87 else c.toNat - 55

/-- The short escapes: the letter after the backslash, the code unit meant. -/
def shortEscapes : List (Char × Nat) :=
  [('"', 34), ('\\', 92), ('/', 47), ('b', 8), ('f', 12), ('n', 10), ('r', 13), ('t', 9)]

/-- One `char` of a string. -/
inductive Item where
  | raw (c : Char) (h : 32 ≤ c.toNat ∧ c ≠ '"' ∧ c ≠ '\\')
  | short (e : Char × Nat) (h : e ∈ shortEscapes)
  | unit (digits : Text) (h : digits.length = 4 ∧ ∀ d ∈ digits, isHex d = true)

def Item.text : Item → Text
  | .raw c _ => [c]
  | .short e _ => ['\\', e.1]
  | .unit digits _ => '\\' :: 'u' :: digits

/-- The number that hex digits spell. -/
def unitValue (digits : Text) : Nat := digits.foldl (fun n d => 16 * n + hexValue d) 0

/-- UTF-16 code units. -/
def Item.units : Item → List Nat
  | .raw c _ =>
    if c.toNat < 65536 then [c.toNat]
    else [55296 + (c.toNat - 65536) / 1024, 56320 + (c.toNat - 65536) % 1024]
  | .short e _ => [e.2]
  | .unit digits _ => [unitValue digits]

/-- What stands between the quotes of a string, and what it means. -/
def content (items : List Item) : Text := items.flatMap Item.text

def units (items : List Item) : List Nat := items.flatMap Item.units

def Digits (t : Text) : Prop := t ≠ [] ∧ ∀ c ∈ t, isAsciiDigit c = true

instance (t : Text) : Decidable (Digits t) := inferInstanceAs (Decidable (_ ∧ _))

/-- `exp`. -/
structure Exponent where
  mark : Char
  sign : Option Char
  digits : Text
  isMark : mark = 'e' ∨ mark = 'E'
  isSign : ∀ c ∈ sign, c = '+' ∨ c = '-'
  isDigits : Digits digits

def Exponent.text (e : Exponent) : Text := e.mark :: e.sign.toList ++ e.digits

def Exponent.value (e : Exponent) : Int :=
  if e.sign = some '-' then -(Nat.ofDigitChars 10 e.digits 0 : Int)
  else Nat.ofDigitChars 10 e.digits 0

/-- `number`; an empty fraction stands for none. -/
structure Number where
  negative : Bool
  whole : Text
  fraction : Text
  exponent : Option Exponent
  isWhole : Digits whole ∧ (whole.head? = some '0' → whole = ['0'])
  isFraction : ∀ c ∈ fraction, isAsciiDigit c = true

def Number.text (n : Number) : Text :=
  (if n.negative then ['-'] else []) ++ n.whole ++
    ((if n.fraction.isEmpty then [] else '.' :: n.fraction) ++
      (n.exponent.map Exponent.text).getD [])

def Number.value (n : Number) : ℚ :=
  (if n.negative then -1 else 1) * (Nat.ofDigitChars 10 (n.whole ++ n.fraction) 0 : ℚ) *
    10 ^ ((n.exponent.map Exponent.value).getD 0 - n.fraction.length)

/-- The structural characters. -/
inductive Mark where
  | openArray | closeArray | openObject | closeObject | colon | comma
  deriving DecidableEq, Repr

def Mark.char : Mark → Char
  | .openArray => '['
  | .closeArray => ']'
  | .openObject => '\x7b'
  | .closeObject => '\x7d'
  | .colon => ':'
  | .comma => ','

inductive Lexeme where
  | space (c : Char) (h : isSpace c = true)
  | mark (m : Mark)
  | null
  | bool (b : Bool)
  | number (n : Number)
  | string (items : List Item)

def Lexeme.text : Lexeme → Text
  | .space c _ => [c]
  | .mark m => [m.char]
  | .null => ['n', 'u', 'l', 'l']
  | .bool true => ['t', 'r', 'u', 'e']
  | .bool false => ['f', 'a', 'l', 's', 'e']
  | .number n => n.text
  | .string items => '"' :: content items ++ ['"']

def Lexeme.isSpace : Lexeme → Bool
  | .space _ _ => true
  | _ => false

def text (ls : List Lexeme) : Text := ls.flatMap Lexeme.text

/-- The lexemes that the grammar reads. -/
def tokens (ls : List Lexeme) : List Lexeme := ls.filter (fun l => !l.isSpace)

theorem mem_numberText {n : Number} {c : Char} (h : c ∈ n.text) :
    isAsciiDigit c = true ∨ c ∈ ['-', '+', '.', 'e', 'E'] := by
  have hwhole := n.isWhole.1.2
  have hfraction := n.isFraction
  simp only [Number.text, List.mem_append] at h
  rcases h with (h | h) | h | h
  · split at h
    · rw [List.mem_singleton.mp h]
      decide
    · cases h
  · exact .inl (hwhole c h)
  · split at h
    · cases h
    · rcases List.mem_cons.mp h with rfl | h
      · decide
      · exact .inl (hfraction c h)
  · cases hexp : n.exponent with
    | none =>
      rw [hexp] at h
      cases h
    | some e =>
      rw [hexp] at h
      have hin : c ∈ e.mark :: e.sign.toList ++ e.digits := h
      simp only [List.cons_append, List.mem_cons, List.mem_append, Option.mem_toList] at hin
      rcases hin with rfl | hsign | hdigit
      · rcases e.isMark with h | h
        all_goals
          rw [h]
          decide
      · rcases e.isSign c hsign with rfl | rfl
        all_goals decide
      · exact .inl (e.isDigits.2 c hdigit)

theorem text_append (a b : List Lexeme) : text (a ++ b) = text a ++ text b :=
  List.flatMap_append

/-- What a text means; an object keeps its members in the order of the text. -/
inductive Value where
  | null
  | bool (b : Bool)
  | number (q : ℚ)
  | string (units : List Nat)
  | array (elements : List Value)
  | object (members : List (List Nat × Value))

mutual

inductive IsValue : List Lexeme → Value → Prop
  | null : IsValue [.null] .null
  | bool (b : Bool) : IsValue [.bool b] (.bool b)
  | number (n : Number) : IsValue [.number n] (.number n.value)
  | string (items : List Item) : IsValue [.string items] (.string (units items))
  | emptyArray : IsValue [.mark .openArray, .mark .closeArray] (.array [])
  | array {body : List Lexeme} {vs : List Value} (h : IsElements body vs) :
      IsValue (.mark .openArray :: (body ++ [.mark .closeArray])) (.array vs)
  | emptyObject : IsValue [.mark .openObject, .mark .closeObject] (.object [])
  | object {body : List Lexeme} {ms : List (List Nat × Value)} (h : IsMembers body ms) :
      IsValue (.mark .openObject :: (body ++ [.mark .closeObject])) (.object ms)

inductive IsElements : List Lexeme → List Value → Prop
  | last {ls : List Lexeme} {v : Value} (h : IsValue ls v) : IsElements ls [v]
  | more {ls rest : List Lexeme} {v : Value} {vs : List Value} (h : IsValue ls v)
      (hrest : IsElements rest vs) : IsElements (ls ++ .mark .comma :: rest) (v :: vs)

inductive IsMembers : List Lexeme → List (List Nat × Value) → Prop
  | last (name : List Item) {ls : List Lexeme} {v : Value} (h : IsValue ls v) :
      IsMembers (.string name :: .mark .colon :: ls) [(units name, v)]
  | more (name : List Item) {ls rest : List Lexeme} {v : Value} {ms : List (List Nat × Value)}
      (h : IsValue ls v) (hrest : IsMembers rest ms) :
      IsMembers (.string name :: .mark .colon :: (ls ++ .mark .comma :: rest))
        ((units name, v) :: ms)

end

/-- Lexemes, white space among them, that make up a JSON text. -/
def IsJson (ls : List Lexeme) (v : Value) : Prop := IsValue (tokens ls) v

/-- A text of the grammar. -/
def IsText (t : Text) : Prop := ∃ ls v, text ls = t ∧ IsJson ls v

/-- The depth of nesting after a lexeme; none where the outermost bracket closes. -/
def nest (depth : Nat) : Lexeme → Option Nat
  | .mark .openArray | .mark .openObject => some (depth + 1)
  | .mark .closeArray | .mark .closeObject => if depth ≤ 1 then none else some (depth - 1)
  | _ => some depth

/-- What stands between two brackets leaves the depth as it was inside them. -/
theorem nest_bracketed {opener closer : Mark} {body : List Lexeme} {depth : Nat}
    (hopen : nest depth (.mark opener) = some (depth + 1))
    (hclose : nest (depth + 1) (.mark closer) = some depth)
    (hbody : exec nest (depth + 1) body = some (depth + 1)) :
    exec nest depth (.mark opener :: (body ++ [.mark closer])) = some depth := by
  rw [exec_cons hopen, exec_append hbody, exec_cons hclose]
  rfl

mutual

/-- A value inside brackets leaves the depth as it was. -/
theorem IsValue.nest (d : Nat) : ∀ {ls : List Lexeme} {v : Value}, IsValue ls v →
    exec JsonText.nest (d + 1) ls = some (d + 1)
  | _, _, .null => rfl
  | _, _, .bool _ => rfl
  | _, _, .number _ => rfl
  | _, _, .string _ => rfl
  | _, _, .emptyArray => rfl
  | _, _, .array h => nest_bracketed rfl rfl (h.nest (d + 1))
  | _, _, .emptyObject => rfl
  | _, _, .object h => nest_bracketed rfl rfl (h.nest (d + 1))

theorem IsElements.nest (d : Nat) : ∀ {ls : List Lexeme} {vs : List Value}, IsElements ls vs →
    exec JsonText.nest (d + 1) ls = some (d + 1)
  | _, _, .last h => h.nest d
  | _, _, .more h hrest => by
    rw [exec_append (h.nest d), exec_cons (t := d + 1) rfl]
    exact hrest.nest d

theorem IsMembers.nest (d : Nat) : ∀ {ls : List Lexeme} {ms : List (List Nat × Value)},
    IsMembers ls ms → exec JsonText.nest (d + 1) ls = some (d + 1)
  | _, _, .last _ h => h.nest d
  | _, _, .more _ h hrest => by
    rw [exec_cons (t := d + 1) rfl, exec_cons (t := d + 1) rfl, exec_append (h.nest d),
      exec_cons (t := d + 1) rfl]
    exact hrest.nest d

end

end Detent.Lib.JsonText
