import Detent.Lib.JsonText

/-!
# Comments in JSON

JSON with `//` and `/* */` comments is JSON once they are removed. A part of a text is whole
when its comments and strings end in it: what is removed there does not depend on what
follows.
-/
namespace Detent.Lib.JsonText
open Text

mutual

/-- The text without its comments. -/
def uncomment : Text → Text
  | [] => []
  | '/' :: '/' :: t => uncommentLine t
  | '/' :: '*' :: t => uncommentBlock t
  | '"' :: t => '"' :: uncommentString t
  | c :: t => c :: uncomment t

/-- Inside a line comment, whose line feed stays. -/
def uncommentLine : Text → Text
  | [] => []
  | '\n' :: t => '\n' :: uncomment t
  | _ :: t => uncommentLine t

def uncommentBlock : Text → Text
  | [] => []
  | '*' :: '/' :: t => uncomment t
  | _ :: t => uncommentBlock t

/-- Inside a string, where nothing is a comment. -/
def uncommentString : Text → Text
  | [] => []
  | '\\' :: c :: t => '\\' :: c :: uncommentString t
  | '"' :: t => '"' :: uncomment t
  | c :: t => c :: uncommentString t

end

theorem uncomment_cons {c : Char} (t : Text) (hslash : c ≠ '/') (hquote : c ≠ '"') :
    uncomment (c :: t) = c :: uncomment t := by
  rw [uncomment.eq_def]
  split <;> simp_all

theorem uncommentString_cons {c : Char} (t : Text) (hquote : c ≠ '"') (hescape : c ≠ '\\') :
    uncommentString (c :: t) = c :: uncommentString t := by
  rw [uncommentString.eq_def]
  split <;> simp_all

def Whole (t : Text) : Prop := ∀ rest, uncomment (t ++ rest) = uncomment t ++ uncomment rest

theorem whole_nil : Whole [] := fun _ => rfl

theorem Whole.append {a b : Text} (ha : Whole a) (hb : Whole b) : Whole (a ++ b) := by
  intro rest
  rw [List.append_assoc, ha, hb, ha, List.append_assoc]

/-- Characters that open neither a comment nor a string. -/
def Plain (t : Text) : Prop := ∀ c ∈ t, c ≠ '/' ∧ c ≠ '"'

theorem uncomment_plain {t : Text} (h : Plain t) (rest : Text) :
    uncomment (t ++ rest) = t ++ uncomment rest := by
  induction t with
  | nil => rfl
  | cons c t ih =>
    obtain ⟨hslash, hquote⟩ := h c (by simp)
    rw [List.cons_append, uncomment_cons _ hslash hquote,
      ih (fun d hd => h d (List.mem_cons_of_mem _ hd)), List.cons_append]

theorem uncomment_eq_self {t : Text} (h : Plain t) : uncomment t = t := by
  have := uncomment_plain h []
  rwa [List.append_nil, uncomment, List.append_nil] at this

theorem Plain.whole {t : Text} (h : Plain t) : Whole t := by
  intro rest
  rw [uncomment_plain h, uncomment_eq_self h]

theorem ne_of_isHex {c : Char} (h : isHex c = true) : c ≠ '"' ∧ c ≠ '\\' := by
  constructor
  all_goals
    rintro rfl
    exact absurd h (by decide)

theorem uncommentString_hex {digits : Text} (h : ∀ d ∈ digits, isHex d = true) (rest : Text) :
    uncommentString (digits ++ rest) = digits ++ uncommentString rest := by
  induction digits with
  | nil => rfl
  | cons d digits ih =>
    obtain ⟨hquote, hescape⟩ := ne_of_isHex (h d (by simp))
    rw [List.cons_append, uncommentString_cons _ hquote hescape,
      ih (fun e he => h e (List.mem_cons_of_mem _ he)), List.cons_append]

theorem uncommentString_item (item : Item) (rest : Text) :
    uncommentString (item.text ++ rest) = item.text ++ uncommentString rest := by
  cases item with
  | raw c h => exact uncommentString_cons rest h.2.1 h.2.2
  | short e h => rfl
  | unit digits h =>
    change '\\' :: 'u' :: uncommentString (digits ++ rest) = _
    rw [uncommentString_hex h.2]
    rfl

variable (items : List Item)

theorem uncommentString_content (rest : Text) :
    uncommentString (content items ++ '"' :: rest) = content items ++ '"' :: uncomment rest := by
  induction items with
  | nil => rfl
  | cons item items ih =>
    rw [content, List.flatMap_cons, List.append_assoc, uncommentString_item]
    change item.text ++ uncommentString (content items ++ '"' :: rest) = _
    rw [ih, List.append_assoc]
    rfl

/-- A string as it is written. -/
def quoted (items : List Item) : Text := '"' :: content items ++ ['"']

theorem uncomment_quoted (rest : Text) :
    uncomment (quoted items ++ rest) = quoted items ++ uncomment rest := by
  have hsplit : quoted items ++ rest = '"' :: (content items ++ '"' :: rest) := by simp [quoted]
  rw [hsplit]
  change '"' :: uncommentString (content items ++ '"' :: rest) = _
  rw [uncommentString_content]
  simp [quoted]

theorem uncomment_quoted_self : uncomment (quoted items) = quoted items := by
  have := uncomment_quoted items []
  rwa [List.append_nil, uncomment, List.append_nil] at this

theorem whole_quoted : Whole (quoted items) := by
  intro rest
  rw [uncomment_quoted, uncomment_quoted_self]

/-- Comments that end, and white space. -/
structure Trivial (t : Text) : Prop where
  whole : Whole t
  spaces : ∀ c ∈ uncomment t, isSpace c = true

theorem trivial_nil : Trivial [] := ⟨whole_nil, by simp [uncomment]⟩

end Detent.Lib.JsonText
