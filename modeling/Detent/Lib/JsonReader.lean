import Detent.Lib.JsonText

/-!
# Reading JSON from left to right

A machine that reads a text of the grammar one character at a time, with the open brackets
and what may come next as its state. It reads every JSON text, so that what it refuses is
none: the way to show that a comma is missing or too many. It leaves the inside of strings
unchecked.
-/
namespace Detent.Lib.JsonText
open Text

/-- The characters of numbers, `true`, `false` and `null`, and of other bare words. -/
def isWordChar (c : Char) : Bool := isAsciiAlphanumeric c || c == '+' || c == '-' || c == '.'

/-- A number, `true`, `false` or `null` as it is written. -/
def IsWord (w : Text) : Prop :=
  (∀ c ∈ w, isWordChar c = true) ∧ ∃ l v, IsValue [l] v ∧ l.text = w

/-- What a reader is at: `empty` where the bracket just opened may close. -/
inductive Phase where
  | value (empty : Bool)
  | name (empty : Bool)
  | colon
  | after
  | string (isName escaped : Bool)
  | word (read : Text)

/-- The open brackets, the innermost first, each with whether it is an object's. -/
structure Reader where
  within : List Bool
  phase : Phase

/-- A step after a value. -/
def afterValue (within : List Bool) (c : Char) : Option Reader :=
  if isSpace c then some ⟨within, .after⟩
  else match within with
    | [] => none
    | true :: outer =>
      if c = ',' then some ⟨true :: outer, .name false⟩
      else if c = '\x7d' then some ⟨outer, .after⟩
      else none
    | false :: outer =>
      if c = ',' then some ⟨false :: outer, .value false⟩
      else if c = ']' then some ⟨outer, .after⟩
      else none

open Classical in
/-- Reading one character. -/
noncomputable def Reader.step (r : Reader) (c : Char) : Option Reader :=
  match r.phase with
  | .value empty =>
    if isSpace c then some r
    else if c = '\x7b' then some ⟨true :: r.within, .name true⟩
    else if c = '[' then some ⟨false :: r.within, .value true⟩
    else if c = '"' then some ⟨r.within, .string false false⟩
    else if c = ']' then if empty then afterValue r.within c else none
    else if isWordChar c then some ⟨r.within, .word [c]⟩
    else none
  | .name empty =>
    if isSpace c then some r
    else if c = '"' then some ⟨r.within, .string true false⟩
    else if c = '\x7d' then if empty then afterValue r.within c else none
    else none
  | .colon => if isSpace c then some r else if c = ':' then some ⟨r.within, .value false⟩ else none
  | .after => afterValue r.within c
  | .string isName true => some ⟨r.within, .string isName false⟩
  | .string isName false =>
    if c = '\\' then some ⟨r.within, .string isName true⟩
    else if c = '"' then some ⟨r.within, if isName then .colon else .after⟩
    else some r
  | .word read =>
    if isWordChar c then some ⟨r.within, .word (read ++ [c])⟩
    else if IsWord read then afterValue r.within c
    else none

/-- The phases that white space does not change. -/
def Phase.Waits : Phase → Prop
  | .value _ | .name _ | .colon | .after => True
  | _ => False

variable {r : Reader} {within : List Bool} {ls toks : List Lexeme} {c : Char} {t : Text}

theorem step_space (hr : r.phase.Waits) (hc : isSpace c = true) : r.step c = some r := by
  obtain ⟨within, phase⟩ := r
  cases phase with
  | value | name | colon => simp [Reader.step, hc]
  | after => simp [Reader.step, afterValue, hc]
  | string | word => cases hr

theorem exec_spaces (hr : r.phase.Waits) (ht : ∀ c ∈ t, isSpace c = true) (rest : Text) :
    exec Reader.step r (t ++ rest) = exec Reader.step r rest := by
  induction t with
  | nil => rfl
  | cons c t ih =>
    rw [List.cons_append, exec_cons (step_space hr (ht c (by simp)))]
    exact ih (fun d hd => ht d (List.mem_cons_of_mem _ hd))

theorem exec_hex {isName : Bool} {digits : Text} (h : ∀ d ∈ digits, isHex d = true) (rest : Text) :
    exec Reader.step ⟨within, .string isName false⟩ (digits ++ rest) =
      exec Reader.step ⟨within, .string isName false⟩ rest := by
  induction digits with
  | nil => rfl
  | cons d digits ih =>
    have hquote : d ≠ '"' := by
      rintro rfl
      exact absurd (h '"' (by simp)) (by decide)
    have hescape : d ≠ '\\' := by
      rintro rfl
      exact absurd (h '\\' (by simp)) (by decide)
    rw [List.cons_append, exec_cons (t := ⟨within, .string isName false⟩)
      (by simp [Reader.step, hquote, hescape])]
    exact ih (fun e he => h e (List.mem_cons_of_mem _ he))

theorem exec_item (within : List Bool) (isName : Bool) (item : Item) (rest : Text) :
    exec Reader.step ⟨within, .string isName false⟩ (item.text ++ rest) =
      exec Reader.step ⟨within, .string isName false⟩ rest := by
  cases item with
  | raw c h =>
    exact exec_cons (by simp [Reader.step, h.2.1, h.2.2])
  | short e h =>
    exact (exec_cons (t := ⟨within, .string isName true⟩) (by simp [Reader.step])).trans
      (exec_cons (by simp [Reader.step]))
  | unit digits h =>
    refine (exec_cons (t := ⟨within, .string isName true⟩) (by simp [Reader.step])).trans
      ((exec_cons (t := ⟨within, .string isName false⟩) (by simp [Reader.step])).trans ?_)
    exact exec_hex h.2 rest

theorem exec_content (within : List Bool) (isName : Bool) (items : List Item) (rest : Text) :
    exec Reader.step ⟨within, .string isName false⟩ (content items ++ '"' :: rest) =
      exec Reader.step ⟨within, if isName then .colon else .after⟩ rest := by
  induction items with
  | nil => exact exec_cons (by simp [Reader.step])
  | cons item items ih =>
    rw [content, List.flatMap_cons, List.append_assoc, exec_item]
    exact ih

theorem text_string (items : List Item) (rest : Text) :
    (Lexeme.string items).text ++ rest = '"' :: (content items ++ '"' :: rest) := by
  simp [Lexeme.text]

theorem exec_string (within : List Bool) (empty : Bool) (items : List Item) (rest : Text) :
    exec Reader.step ⟨within, .value empty⟩ ((Lexeme.string items).text ++ rest) =
      exec Reader.step ⟨within, .after⟩ rest := by
  rw [text_string, exec_cons (t := ⟨within, .string false false⟩) (by simp [Reader.step, isSpace])]
  exact exec_content within false items rest

theorem exec_name (within : List Bool) (empty : Bool) (items : List Item) (rest : Text) :
    exec Reader.step ⟨within, .name empty⟩ ((Lexeme.string items).text ++ rest) =
      exec Reader.step ⟨within, .colon⟩ rest := by
  rw [text_string, exec_cons (t := ⟨within, .string true false⟩) (by simp [Reader.step, isSpace])]
  exact exec_content within true items rest

theorem not_wordChar_of_isSpace (h : isSpace c = true) : isWordChar c = false := by
  simp only [isSpace, Bool.or_eq_true, beq_iff_eq] at h
  rcases h with ((rfl | rfl) | rfl) | rfl
  all_goals decide

theorem not_special_of_wordChar (h : isWordChar c = true) :
    isSpace c = false ∧ c ≠ '\x7b' ∧ c ≠ '[' ∧ c ≠ '"' ∧ c ≠ ']' ∧ c ≠ '/' := by
  refine ⟨?_, ?_, ?_, ?_, ?_, ?_⟩
  · by_contra hspace
    rw [not_wordChar_of_isSpace (by simpa using hspace)] at h
    cases h
  all_goals
    rintro rfl
    exact absurd h (by decide)

theorem exec_wordChars {w : Text} (read : Text) (h : ∀ c ∈ w, isWordChar c = true) (rest : Text) :
    exec Reader.step ⟨within, .word read⟩ (w ++ rest) =
      exec Reader.step ⟨within, .word (read ++ w)⟩ rest := by
  induction w generalizing read with
  | nil => simp
  | cons c w ih =>
    have hc := h c (by simp)
    have hstep : Reader.step ⟨within, .word read⟩ c = some ⟨within, .word (read ++ [c])⟩ := by
      simp [Reader.step, hc]
    rw [List.cons_append, exec_cons hstep, ih _ (fun d hd => h d (List.mem_cons_of_mem _ hd))]
    simp

theorem exec_word {empty : Bool} {w : Text} (hne : w ≠ []) (h : ∀ c ∈ w, isWordChar c = true)
    (rest : Text) :
    exec Reader.step ⟨within, .value empty⟩ (w ++ rest) =
      exec Reader.step ⟨within, .word w⟩ rest := by
  cases w with
  | nil => exact absurd rfl hne
  | cons c w =>
    have hc := h c (by simp)
    obtain ⟨hspace, hobject, harray, hquote, hclose, -⟩ := not_special_of_wordChar hc
    rw [List.cons_append, exec_cons (t := ⟨within, .word [c]⟩)
      (by simp [Reader.step, hspace, hobject, harray, hquote, hclose, hc]),
      exec_wordChars [c] (fun d hd => h d (List.mem_cons_of_mem _ hd))]
    rfl

/-- Right behind a value of the brackets `within`. -/
def Reader.Behind (r : Reader) (within : List Bool) : Prop :=
  r = ⟨within, .after⟩ ∨ ∃ w, IsWord w ∧ r = ⟨within, .word w⟩

theorem Reader.Behind.step (h : r.Behind within) (hc : isWordChar c = false) :
    r.step c = afterValue within c := by
  rcases h with rfl | ⟨w, hw, rfl⟩
  · rfl
  · simp [Reader.step, hc, hw]

theorem Reader.Behind.spaces (h : r.Behind within) (ht : ∀ c ∈ t, isSpace c = true) :
    ∃ r', exec Reader.step r t = some r' ∧ r'.Behind within := by
  cases t with
  | nil => exact ⟨r, rfl, h⟩
  | cons c t =>
    have hc := ht c (by simp)
    have hstep : r.step c = some ⟨within, .after⟩ := by
      rw [h.step (not_wordChar_of_isSpace hc)]
      simp [afterValue, hc]
    refine ⟨⟨within, .after⟩, ?_, .inl rfl⟩
    rw [exec_cons hstep]
    have := exec_spaces (r := ⟨within, .after⟩) trivial
      (fun d hd => ht d (List.mem_cons_of_mem _ hd)) []
    rwa [List.append_nil] at this

theorem spaces_text (h : ∀ l ∈ ls, l.isSpace = true) : ∀ c ∈ text ls, isSpace c = true := by
  intro c hc
  obtain ⟨l, hl, hcl⟩ := List.mem_flatMap.mp hc
  have hspace := h l hl
  cases l with
  | space d hd =>
    obtain rfl : c = d := by simpa [Lexeme.text] using hcl
    exact hd
  | mark | null | bool | number | string => cases hspace

theorem tokens_eq_nil (h : tokens ls = []) : ∀ c ∈ text ls, isSpace c = true := by
  refine spaces_text (fun l hl => ?_)
  simpa using List.filter_eq_nil_iff.mp h l hl

theorem tokens_eq_cons {l : Lexeme} (h : tokens ls = l :: toks) :
    ∃ before after, ls = before ++ l :: after ∧ (∀ c ∈ text before, isSpace c = true) ∧
      tokens after = toks := by
  obtain ⟨before, after, hls, hbefore, -, hafter⟩ := List.filter_eq_cons_iff.mp h
  exact ⟨before, after, hls, spaces_text (fun l hl => by simpa using hbefore l hl), hafter⟩

theorem text_cons (l : Lexeme) (ls : List Lexeme) : text (l :: ls) = l.text ++ text ls :=
  List.flatMap_cons

/-- White space, a structural character that the state allows, and the text after it. -/
theorem Reader.Behind.mark {m : Mark} (h : r.Behind within) (hls : tokens ls = .mark m :: toks)
    {s : Reader} (hnext : afterValue within m.char = some s) :
    ∃ after, tokens after = toks ∧
      exec Reader.step r (text ls) = exec Reader.step s (text after) := by
  obtain ⟨before, after, rfl, hbefore, hafter⟩ := tokens_eq_cons hls
  obtain ⟨r', hexec, hbehind⟩ := h.spaces hbefore
  have hmark : isWordChar m.char = false := by cases m <;> decide
  refine ⟨after, hafter, ?_⟩
  rw [text_append, exec_append hexec, text_cons]
  exact exec_cons ((hbehind.step hmark).trans hnext)

/-- The same where a value, a name or a colon is awaited. -/
theorem exec_mark {s : Reader} {m : Mark} (hr : r.phase.Waits) (hls : tokens ls = .mark m :: toks)
    (hnext : r.step m.char = some s) :
    ∃ after, tokens after = toks ∧
      exec Reader.step r (text ls) = exec Reader.step s (text after) := by
  obtain ⟨before, after, rfl, hbefore, hafter⟩ := tokens_eq_cons hls
  refine ⟨after, hafter, ?_⟩
  rw [text_append, exec_spaces hr hbefore, text_cons]
  exact exec_cons hnext

/-- Where one reading ends at some state, so does another that goes on from it. -/
theorem ends_of_eq {s : Reader} {u : Text} {P : Reader → Prop}
    (h : exec Reader.step r t = exec Reader.step s u)
    (hs : ∃ r', exec Reader.step s u = some r' ∧ P r') :
    ∃ r', exec Reader.step r t = some r' ∧ P r' := by
  rwa [h]

theorem exec_spaces_after (within : List Bool) (h : tokens ls = []) :
    ∃ r, exec Reader.step ⟨within, .after⟩ (text ls) = some r ∧ r.Behind within :=
  Reader.Behind.spaces (.inl rfl) (tokens_eq_nil h)

theorem exec_wordLexeme {empty : Bool} {l : Lexeme} {v : Value} (hl : IsValue [l] v)
    (hchars : ∀ c ∈ l.text, isWordChar c = true) (hne : l.text ≠ []) (hls : tokens ls = [l]) :
    ∃ r, exec Reader.step ⟨within, .value empty⟩ (text ls) = some r ∧ r.Behind within := by
  obtain ⟨before, after, rfl, hbefore, hafter⟩ := tokens_eq_cons hls
  have hword : IsWord l.text := ⟨hchars, l, v, hl, rfl⟩
  refine ends_of_eq ?_ (Reader.Behind.spaces (.inr ⟨l.text, hword, rfl⟩) (tokens_eq_nil hafter))
  rw [text_append, exec_spaces (r := ⟨within, .value empty⟩) trivial hbefore, text_cons,
    exec_word hne hchars]

theorem number_ne_nil (n : Number) : n.text ≠ [] := by
  have hwhole := n.isWhole.1.1
  simp [Number.text, hwhole]

theorem wordChar_of_number {n : Number} : ∀ c ∈ n.text, isWordChar c = true := by
  intro c hc
  rcases mem_numberText hc with hdigit | hother
  · simp [isWordChar, isAsciiAlphanumeric, hdigit]
  · simp only [List.mem_cons, List.not_mem_nil, or_false] at hother
    rcases hother with rfl | rfl | rfl | rfl | rfl
    all_goals decide

mutual

theorem IsValue.read : ∀ {toks : List Lexeme} {v : Value}, IsValue toks v →
    ∀ {ls : List Lexeme} (_ : tokens ls = toks) (within : List Bool) (empty : Bool),
      ∃ r, exec Reader.step ⟨within, .value empty⟩ (text ls) = some r ∧ r.Behind within
  | _, _, .null, _, hls, _, _ =>
    exec_wordLexeme .null (by decide) (by decide) hls
  | _, _, .bool b, _, hls, _, _ =>
    exec_wordLexeme (.bool b) (by cases b <;> decide) (by cases b <;> decide) hls
  | _, _, .number n, _, hls, _, _ =>
    exec_wordLexeme (.number n) wordChar_of_number (number_ne_nil n) hls
  | _, _, .string items, ls, hls, within, empty => by
    obtain ⟨before, after, rfl, hbefore, hafter⟩ := tokens_eq_cons hls
    refine ends_of_eq ?_ (exec_spaces_after within hafter)
    rw [text_append, exec_spaces (r := ⟨within, .value empty⟩) trivial hbefore, text_cons,
      exec_string]
  | _, _, .emptyArray, ls, hls, within, empty => by
    obtain ⟨inside, hinside, hopen⟩ := exec_mark (r := ⟨within, .value empty⟩)
      (s := ⟨false :: within, .value true⟩) trivial hls (by simp [Reader.step, Mark.char, isSpace])
    obtain ⟨after, hafter, hclose⟩ := exec_mark (r := ⟨false :: within, .value true⟩)
      (s := ⟨within, .after⟩) trivial hinside
      (by simp [Reader.step, Mark.char, isSpace, afterValue])
    exact ends_of_eq (hopen.trans hclose) (exec_spaces_after within hafter)
  | _, _, .array h, ls, hls, within, empty => by
    obtain ⟨inside, hinside, hopen⟩ := exec_mark (r := ⟨within, .value empty⟩)
      (s := ⟨false :: within, .value true⟩) trivial hls (by simp [Reader.step, Mark.char, isSpace])
    obtain ⟨body, rest, rfl, hbody, hrest⟩ := List.filter_eq_append_iff.mp hinside
    obtain ⟨r, hexec, hbehind⟩ := h.read hbody within true
    obtain ⟨after, hafter, hclose⟩ := hbehind.mark hrest (s := ⟨within, .after⟩)
      (by simp [Mark.char, isSpace, afterValue])
    refine ends_of_eq ?_ (exec_spaces_after within hafter)
    rw [hopen, text_append, exec_append hexec, hclose]
  | _, _, .emptyObject, ls, hls, within, empty => by
    obtain ⟨inside, hinside, hopen⟩ := exec_mark (r := ⟨within, .value empty⟩)
      (s := ⟨true :: within, .name true⟩) trivial hls (by simp [Reader.step, Mark.char, isSpace])
    obtain ⟨after, hafter, hclose⟩ := exec_mark (r := ⟨true :: within, .name true⟩)
      (s := ⟨within, .after⟩) trivial hinside
      (by simp [Reader.step, Mark.char, isSpace, afterValue])
    exact ends_of_eq (hopen.trans hclose) (exec_spaces_after within hafter)
  | _, _, .object h, ls, hls, within, empty => by
    obtain ⟨inside, hinside, hopen⟩ := exec_mark (r := ⟨within, .value empty⟩)
      (s := ⟨true :: within, .name true⟩) trivial hls (by simp [Reader.step, Mark.char, isSpace])
    obtain ⟨body, rest, rfl, hbody, hrest⟩ := List.filter_eq_append_iff.mp hinside
    obtain ⟨r, hexec, hbehind⟩ := h.read hbody within true
    obtain ⟨after, hafter, hclose⟩ := hbehind.mark hrest (s := ⟨within, .after⟩)
      (by simp [Mark.char, isSpace, afterValue])
    refine ends_of_eq ?_ (exec_spaces_after within hafter)
    rw [hopen, text_append, exec_append hexec, hclose]

theorem IsElements.read : ∀ {toks : List Lexeme} {vs : List Value}, IsElements toks vs →
    ∀ {ls : List Lexeme} (_ : tokens ls = toks) (within : List Bool) (empty : Bool),
      ∃ r, exec Reader.step ⟨false :: within, .value empty⟩ (text ls) = some r ∧
        r.Behind (false :: within)
  | _, _, .last h, _, hls, within, empty => h.read hls (false :: within) empty
  | _, _, .more h hrest, ls, hls, within, empty => by
    obtain ⟨first, others, rfl, hfirst, hothers⟩ := List.filter_eq_append_iff.mp hls
    obtain ⟨r, hexec, hbehind⟩ := h.read hfirst (false :: within) empty
    obtain ⟨after, hafter, hcomma⟩ := hbehind.mark hothers
      (s := ⟨false :: within, .value false⟩) (by simp [Mark.char, isSpace, afterValue])
    refine ends_of_eq ?_ (hrest.read hafter within false)
    rw [text_append, exec_append hexec, hcomma]

theorem IsMembers.read : ∀ {toks : List Lexeme} {ms : List (List Nat × Value)}, IsMembers toks ms →
    ∀ {ls : List Lexeme} (_ : tokens ls = toks) (within : List Bool) (empty : Bool),
      ∃ r, exec Reader.step ⟨true :: within, .name empty⟩ (text ls) = some r ∧
        r.Behind (true :: within)
  | _, _, .last name h, ls, hls, within, empty => by
    obtain ⟨before, rest, rfl, hbefore, hrest⟩ := tokens_eq_cons hls
    obtain ⟨after, hafter, hcolon⟩ := exec_mark (r := ⟨true :: within, .colon⟩)
      (s := ⟨true :: within, .value false⟩) trivial hrest
      (by simp [Reader.step, Mark.char, isSpace])
    refine ends_of_eq ?_ (h.read hafter (true :: within) false)
    rw [text_append, exec_spaces (r := ⟨true :: within, .name empty⟩) trivial hbefore, text_cons,
      exec_name, hcolon]
  | _, _, .more name h hmembers, ls, hls, within, empty => by
    obtain ⟨before, rest, rfl, hbefore, hrest⟩ := tokens_eq_cons hls
    obtain ⟨following, hfollowing, hcolon⟩ := exec_mark (r := ⟨true :: within, .colon⟩)
      (s := ⟨true :: within, .value false⟩) trivial hrest
      (by simp [Reader.step, Mark.char, isSpace])
    obtain ⟨first, others, rfl, hfirst, hothers⟩ := List.filter_eq_append_iff.mp hfollowing
    obtain ⟨r, hexec, hbehind⟩ := h.read hfirst (true :: within) false
    obtain ⟨after, hafter, hcomma⟩ := hbehind.mark hothers
      (s := ⟨true :: within, .name false⟩) (by simp [Mark.char, isSpace, afterValue])
    refine ends_of_eq ?_ (hmembers.read hafter within false)
    rw [text_append, exec_spaces (r := ⟨true :: within, .name empty⟩) trivial hbefore, text_cons,
      exec_name, hcolon, text_append, exec_append hexec, hcomma]

end

/-- A JSON text is read to its end. -/
theorem IsText.read (h : IsText t) :
    ∃ r, exec Reader.step ⟨[], .value false⟩ t = some r ∧ r.Behind [] := by
  obtain ⟨ls, v, rfl, hv⟩ := h
  exact hv.read rfl [] false

end Detent.Lib.JsonText
