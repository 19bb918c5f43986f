import Mathlib.Data.List.DropRight
import Detent.Lib.Split

/-!
# Text as a list of characters

The string operations of the Rust standard library that the models use, on
lists of characters: Unicode white space, `trim`, `split_whitespace`, `lines`,
`split_once`, `replace`, `match_indices` and the ASCII case conversion.
-/
namespace Detent.Lib

/-- The source's `&str` and `String`. -/
abbrev Text := List Char

namespace Text

/-- Of the characters of a text, only those in it are looked at, not every character
there is. -/
instance (priority := 2000) decidableForallMem (t : Text) (p : Char → Prop) [DecidablePred p] :
    Decidable (∀ c ∈ t, p c) :=
  List.decidableBAll p t

instance (priority := 2000) lawfulBEqText : LawfulBEq (List Char) := List.instLawfulBEq

/-- `char::is_whitespace`: the Unicode property White_Space. -/
def isWhitespace (c : Char) : Bool :=
  let n := c.toNat
  (9 ≤ n && n ≤ 13) || n == 32 || n == 0x85 || n == 0xA0 || n == 0x1680 ||
    (0x2000 ≤ n && n ≤ 0x200A) || n == 0x2028 || n == 0x2029 || n == 0x202F || n == 0x205F ||
    n == 0x3000

def isAsciiDigit (c : Char) : Bool := '0' ≤ c && c ≤ '9'

def isAsciiAlphanumeric (c : Char) : Bool :=
  ('a' ≤ c && c ≤ 'z') || ('A' ≤ c && c ≤ 'Z') || isAsciiDigit c

/-- `str::to_ascii_lowercase`. -/
def toAsciiLowercase (t : Text) : Text :=
  t.map (fun c => if 'A' ≤ c && c ≤ 'Z' then Char.ofNat (c.toNat + 32) else c)

def trimStart (t : Text) : Text := t.dropWhile isWhitespace

def trimEnd (t : Text) : Text := t.rdropWhile isWhitespace

/-- `str::trim`. -/
def trim (t : Text) : Text := trimEnd (trimStart t)

/-- `str::split_whitespace`. -/
def splitWhitespace (t : Text) : List Text :=
  (t.splitOnP isWhitespace).filter (fun word => !word.isEmpty)

/-- One character as `{:?}` writes it inside a string; characters outside ASCII are
taken as printable. -/
def debugChar (c : Char) : Text :=
  if c = '"' then ['\\', '"']
  else if c = '\\' then ['\\', '\\']
  else if c = '\n' then ['\\', 'n']
  else if c = '\r' then ['\\', 'r']
  else if c = '\t' then ['\\', 't']
  else if c = '\x00' then ['\\', '0']
  else if c.toNat < 32 || c.toNat = 127 then
    "\\u\x7b".toList ++ Nat.toDigits 16 c.toNat ++ ['}']
  else [c]

/-- `{:?}` of a string. -/
def debug (t : Text) : String := String.ofList ('"' :: t.flatMap debugChar ++ ['"'])

/-- `[&str]::join`. -/
def join (sep : Text) : List Text → Text
  | [] => []
  | [word] => word
  | word :: words => word ++ sep ++ join sep words

/-- `split_once` at the first character that satisfies `p`. -/
def splitOnceP (p : Char → Bool) (t : Text) : Option (Text × Text) :=
  match t.dropWhile (fun c => !p c) with
  | [] => none
  | _ :: rest => some (t.takeWhile (fun c => !p c), rest)

/-- `strip_suffix` of one character. -/
def stripLast (c : Char) (t : Text) : Option Text :=
  match t.reverse with
  | [] => none
  | last :: rest => if last = c then some rest.reverse else none

/-- A line without the carriage return before its line feed. -/
def stripCr (line : Text) : Text := (stripLast '\r' line).getD line

/-- The lines of a text split at its line feeds: the last piece has no line
feed, so it is no line when empty and keeps a carriage return. -/
def linesOf : List Text → List Text
  | [] => []
  | [last] => if last.isEmpty then [] else [last]
  | piece :: pieces => stripCr piece :: linesOf pieces

/-- `str::lines`. -/
def lines (t : Text) : List Text := linesOf (t.splitOn '\n')

/-- `str::split_inclusive('\n')`. -/
def linesInclusive : Text → List Text
  | [] => []
  | c :: t =>
    if c = '\n' then [c] :: linesInclusive t
    else match linesInclusive t with
      | [] => [[c]]
      | line :: rest => (c :: line) :: rest

/-- The pieces of a split that keeps its separators make up the text. -/
theorem flatten_linesInclusive (t : Text) : (linesInclusive t).flatten = t := by
  induction t with
  | nil => rfl
  | cons c t ih =>
    by_cases hc : c = '\n'
    · simp [linesInclusive, hc, ih]
    · cases hrest : linesInclusive t with
      | nil =>
        have ht : t = [] := by simpa [hrest] using ih.symm
        simp [linesInclusive, ht, hc]
      | cons line rest =>
        have ht : line ++ rest.flatten = t := by simpa [hrest] using ih
        simp [linesInclusive, hc, hrest, ht]

theorem linesInclusive_newline (body rest : Text) (h : '\n' ∉ body) :
    linesInclusive (body ++ '\n' :: rest) = (body ++ ['\n']) :: linesInclusive rest := by
  induction body with
  | nil => simp [linesInclusive]
  | cons c body ih =>
    have hc : c ≠ '\n' := fun hc => h (by simp [hc])
    have := ih (fun hmem => h (by simp [hmem]))
    simp [linesInclusive, hc, this]

theorem linesInclusive_last (body : Text) (h : '\n' ∉ body) (hne : body ≠ []) :
    linesInclusive body = [body] := by
  induction body with
  | nil => exact absurd rfl hne
  | cons c body ih =>
    have hc : c ≠ '\n' := fun hc => h (by simp [hc])
    cases body with
    | nil => simp [linesInclusive, hc]
    | cons d body =>
      have := ih (fun hmem => h (by simp [hmem])) (by simp)
      rw [linesInclusive, if_neg hc, this]

/-- A text is its last line, or a first line and the text after it. -/
theorem lines_cases (t : Text) :
    '\n' ∉ t ∨ ∃ body rest, '\n' ∉ body ∧ t = body ++ '\n' :: rest := by
  by_cases h : '\n' ∈ t
  · obtain ⟨body, rest, ht, hbody⟩ := List.eq_append_cons_of_mem h
    exact .inr ⟨body, rest, hbody, ht⟩
  · exact .inl h

theorem stripLast_append (c : Char) (t : Text) : stripLast c (t ++ [c]) = some t := by
  simp [stripLast]

variable {c : Char} {t word : Text} {p : Char → Bool}

theorem stripLast_eq_some {rest : Text} (h : stripLast c t = some rest) : t = rest ++ [c] := by
  rcases List.eq_nil_or_concat t with rfl | ⟨init, last, rfl⟩
  · cases h
  · rw [List.concat_eq_append] at h ⊢
    by_cases hlast : last = c
    · have hinit : init = rest := by simpa [stripLast, hlast] using h
      rw [hinit, hlast]
    · simp [stripLast, hlast] at h

theorem stripLast_eq_none (h : t.getLast? ≠ some c) : stripLast c t = none := by
  rcases List.eq_nil_or_concat t with rfl | ⟨init, last, rfl⟩
  · rfl
  · rw [List.concat_eq_append] at h ⊢
    have hne : last ≠ c := by simpa using h
    simp [stripLast, hne]

/-- The text after each match of `pattern`, matches included, left to right and
not overlapping (`match_indices`); `skip` characters are part of the last match. -/
def matchSuffixesFrom (pattern : Text) : Nat → Text → List Text
  | _, [] => []
  | skip + 1, _ :: t => matchSuffixesFrom pattern skip t
  | 0, c :: t =>
    if pattern.isPrefixOf (c :: t) then
      (c :: t) :: matchSuffixesFrom pattern (pattern.length - 1) t
    else matchSuffixesFrom pattern 0 t

def matchSuffixes (pattern t : Text) : List Text := matchSuffixesFrom pattern 0 t

/-- `str::contains` of a non-empty pattern. -/
def contains (pattern t : Text) : Bool := !(matchSuffixes pattern t).isEmpty

def startsWith (pattern t : Text) : Bool := pattern.isPrefixOf t

def endsWith (pattern t : Text) : Bool := pattern.isSuffixOf t

/-- `str::strip_prefix`. -/
def stripStart (pattern t : Text) : Option Text :=
  if pattern.isPrefixOf t then some (t.drop pattern.length) else none

/-- `str::find`: the text before the first match of a non-empty pattern and
the text from it. -/
def splitAtMatch (pattern : Text) : Text → Option (Text × Text)
  | [] => none
  | c :: t =>
    if pattern.isPrefixOf (c :: t) then some ([], c :: t)
    else (splitAtMatch pattern t).map (fun p => (c :: p.1, p.2))

/-- `str::replace` of a non-empty pattern; `skip` characters are part of the
last match. -/
def replaceFrom (pattern by_ : Text) : Nat → Text → Text
  | _, [] => []
  | skip + 1, _ :: t => replaceFrom pattern by_ skip t
  | 0, c :: t =>
    if pattern.isPrefixOf (c :: t) then by_ ++ replaceFrom pattern by_ (pattern.length - 1) t
    else c :: replaceFrom pattern by_ 0 t

def replace (pattern by_ t : Text) : Text := replaceFrom pattern by_ 0 t

/-- Lines that hold no line feed and do not end in a carriage return are read
back. -/
theorem lines_terminate (pieces : List Text) (h : ∀ piece ∈ pieces, '\n' ∉ piece) :
    lines (terminate '\n' pieces) = pieces.map stripCr := by
  rw [lines, splitOn_terminate '\n' pieces h]
  clear h
  induction pieces with
  | nil => rfl
  | cons piece pieces ih =>
    cases pieces with
    | nil => rfl
    | cons next rest =>
      simp only [List.cons_append, linesOf, List.map_cons] at ih ⊢
      rw [ih]

/-- A line feed ends a line, which then loses its carriage return. -/
theorem lines_newline (body rest : Text) (h : '\n' ∉ body) :
    lines (body ++ '\n' :: rest) = stripCr body :: lines rest := by
  have hsplit : (body ++ '\n' :: rest).splitOn '\n' = body :: rest.splitOn '\n' := by
    have hfirst : body.splitOn '\n' = [body] := List.splitOn_eq_singleton h
    have happend := List.splitOnP_append_cons (p := fun c => c == '\n') body rest
      (show ('\n' == '\n') = true by decide)
    rw [List.splitOn, happend, ← List.splitOn, ← List.splitOn, hfirst]
    rfl
  rw [lines, hsplit, lines]
  cases hrest : rest.splitOn '\n' with
  | nil => exact absurd hrest (List.splitOn_ne_nil _ _)
  | cons head tail => rfl

theorem lines_append (a b : Text) : lines (a ++ '\n' :: b) = lines (a ++ ['\n']) ++ lines b := by
  generalize hn : a.length = n
  induction n using Nat.strongRecOn generalizing a with
  | ind n ih =>
    rcases lines_cases a with hlast | ⟨body, rest, hbody, rfl⟩
    · rw [lines_newline a b hlast, lines_newline a [] hlast]
      rfl
    · have hrest := ih rest.length (by simp at hn; omega) rest rfl
      rw [List.append_assoc, List.cons_append, lines_newline _ _ hbody, hrest, List.append_assoc,
        List.cons_append, lines_newline _ _ hbody]
      rfl

theorem stripCr_append_space (t : Text) : stripCr (t ++ [' ']) = t ++ [' '] := by
  simp [stripCr, stripLast]

/-- Trailing white space does not change what `trim` leaves. -/
theorem trim_append_whitespace (t : Text) (hc : isWhitespace c = true) :
    trim (t ++ [c]) = trim t := by
  unfold trim trimStart
  by_cases hall : ∀ d ∈ t, isWhitespace d = true
  · rw [List.dropWhile_append_of_pos hall]
    have hnil : t.dropWhile isWhitespace = [] := List.dropWhile_eq_nil_iff.mpr hall
    simp [hnil, hc, trimEnd]
  · have hne : t.dropWhile isWhitespace ≠ [] := by
      intro hnil
      rw [List.dropWhile_eq_nil_iff] at hnil
      exact hall hnil
    have happ : (t ++ [c]).dropWhile isWhitespace = t.dropWhile isWhitespace ++ [c] := by
      rw [List.dropWhile_append]
      simp [hne]
    rw [happ, trimEnd, List.rdropWhile_concat_pos _ _ _ hc]
    rfl

theorem trim_append_space (t : Text) : trim (t ++ [' ']) = trim t :=
  trim_append_whitespace t (by decide)

theorem splitWhitespace_append_whitespace (t : Text) (hc : isWhitespace c = true) :
    splitWhitespace (t ++ [c]) = splitWhitespace t := by
  have hsplit := List.splitOnP_append_cons (p := isWhitespace) t [] hc
  rw [splitWhitespace, hsplit, List.splitOnP_nil, List.filter_append]
  simp [splitWhitespace]

theorem head?_trimStart_append_whitespace (t : Text) (hc : isWhitespace c = true) :
    (trimStart (t ++ [c])).head? = (trimStart t).head? := by
  unfold trimStart
  rw [List.dropWhile_append]
  cases h : t.dropWhile isWhitespace with
  | nil => simp [hc]
  | cons d rest => simp

theorem splitWhitespace_cons_whitespace (t : Text) (hc : isWhitespace c = true) :
    splitWhitespace (c :: t) = splitWhitespace t := by
  have hsplit := List.splitOnP_append_cons (p := isWhitespace) [] t hc
  rw [List.nil_append] at hsplit
  rw [splitWhitespace, hsplit, List.splitOnP_nil, List.filter_append]
  simp [splitWhitespace]

/-- White space ends a word. -/
theorem splitWhitespace_word (rest : Text) (hne : word ≠ [])
    (h : ∀ d ∈ word, isWhitespace d = false) (hc : isWhitespace c = true) :
    splitWhitespace (word ++ c :: rest) = word :: splitWhitespace rest := by
  rw [splitWhitespace, List.splitOnP_append_cons word rest hc, List.splitOnP_eq_singleton h,
    List.filter_append]
  simp [splitWhitespace, hne]

/-- The first word starts where the text does. -/
theorem splitWhitespace_first (t : Text) (hc : isWhitespace c = false) :
    ∃ word rest, splitWhitespace (c :: t) = (c :: word) :: rest := by
  obtain ⟨word, rest, hsplit⟩ := List.exists_cons_of_ne_nil (List.splitOnP_ne_nil isWhitespace t)
  refine ⟨word, rest.filter (fun word => !word.isEmpty), ?_⟩
  rw [splitWhitespace, List.splitOnP_cons_eq_if_modifyHead, hc, hsplit]
  simp

theorem mem_trim (h : c ∈ trim t) : c ∈ t :=
  (List.dropWhile_suffix _).mem ((List.rdropWhile_prefix _ _).mem h)

/-- Only white space at the end is trimmed there. -/
theorem trimEnd_append_cons (a b : Text) (hc : isWhitespace c = false) :
    trimEnd (a ++ c :: b) = a ++ c :: trimEnd b := by
  induction b using List.reverseRecOn with
  | nil =>
    rw [trimEnd, List.rdropWhile_concat_neg _ _ _ (by simp [hc])]
    rfl
  | append_singleton b d ih =>
    have happ : a ++ c :: (b ++ [d]) = (a ++ c :: b) ++ [d] := by simp
    rw [happ]
    by_cases hd : isWhitespace d = true
    · rw [trimEnd, List.rdropWhile_concat_pos _ _ _ hd, trimEnd,
        List.rdropWhile_concat_pos _ _ _ hd]
      exact ih
    · rw [trimEnd, List.rdropWhile_concat_neg _ _ _ hd, trimEnd,
        List.rdropWhile_concat_neg _ _ _ hd]
      simp

theorem trimStart_cons (t : Text) (hc : isWhitespace c = false) : trimStart (c :: t) = c :: t := by
  simp [trimStart, hc]

theorem trim_cons_whitespace (t : Text) (hc : isWhitespace c = true) : trim (c :: t) = trim t := by
  simp [trim, trimStart, hc]

theorem trim_pad {pad : Text} (t : Text) (h : ∀ c ∈ pad, isWhitespace c = true) :
    trim (pad ++ t) = trim t := by
  induction pad with
  | nil => rfl
  | cons c pad ih =>
    rw [List.cons_append, trim_cons_whitespace _ (h c (by simp))]
    exact ih (fun d hmem => h d (by simp [hmem]))

/-- What `trimEnd` takes away is white space. -/
theorem trimEnd_append (t : Text) :
    ∃ space, t = trimEnd t ++ space ∧ ∀ c ∈ space, isWhitespace c = true := by
  induction t using List.reverseRecOn with
  | nil => exact ⟨[], rfl, by simp⟩
  | append_singleton t d ih =>
    by_cases hd : isWhitespace d = true
    · obtain ⟨space, ht, hspace⟩ := ih
      refine ⟨space ++ [d], ?_, ?_⟩
      · rw [trimEnd, List.rdropWhile_concat_pos _ _ _ hd]
        conv_lhs => rw [ht]
        rw [List.append_assoc]
        rfl
      · intro c hmem
        rcases List.mem_append.mp hmem with hmem | hmem
        · exact hspace c hmem
        · rw [List.mem_singleton.mp hmem]
          exact hd
    · refine ⟨[], ?_, by simp⟩
      rw [trimEnd, List.rdropWhile_concat_neg _ _ _ hd, List.append_nil]

theorem trim_append_spaces (t space : Text) (h : ∀ c ∈ space, isWhitespace c = true) :
    trim (t ++ space) = trim t := by
  induction space using List.reverseRecOn with
  | nil => rw [List.append_nil]
  | append_singleton space d ih =>
    rw [← List.append_assoc, trim_append_whitespace _ (h d (by simp))]
    exact ih (fun c hmem => h c (by simp [hmem]))

theorem trim_trimEnd (t : Text) : trim (trimEnd t) = trim t := by
  obtain ⟨space, ht, hspace⟩ := trimEnd_append t
  conv_rhs => rw [ht]
  rw [trim_append_spaces _ _ hspace]

/-- A text that starts with a word: it is trimmed after the word only. -/
theorem trim_word (rest : Text) (hne : word ≠ []) (h : ∀ d ∈ word, isWhitespace d = false) :
    trim (word ++ rest) = word ++ trimEnd rest := by
  obtain ⟨init, last, rfl⟩ := (List.eq_nil_or_concat word).resolve_left hne
  rw [List.concat_eq_append] at h ⊢
  have hlast : isWhitespace last = false := h last (by simp)
  have hstart : trimStart (init ++ [last] ++ rest) = init ++ last :: rest := by
    rw [List.append_assoc, List.singleton_append]
    cases init with
    | nil => exact trimStart_cons _ hlast
    | cons d init => exact trimStart_cons _ (h d (by simp))
  rw [trim, hstart, trimEnd_append_cons _ _ hlast]
  simp

/-- The first word of a trimmed text, and what follows it. -/
theorem trim_word_space (rest : Text) (hne : word ≠ []) (h : ∀ d ∈ word, isWhitespace d = false)
    (hc : isWhitespace c = true) :
    (trim (word ++ c :: rest)).takeWhile (fun d => !isWhitespace d) = word ∧
      trim ((trim (word ++ c :: rest)).dropWhile (fun d => !isWhitespace d)) = trim rest := by
  have hword : ∀ d ∈ word, (!isWhitespace d) = true := by simpa using h
  have htail : (trimEnd (c :: rest)).takeWhile (fun d => !isWhitespace d) = [] ∧
      (trimEnd (c :: rest)).dropWhile (fun d => !isWhitespace d) = trimEnd (c :: rest) := by
    obtain ⟨tail, htail⟩ : trimEnd (c :: rest) <+: c :: rest := List.rdropWhile_prefix _ _
    cases hcases : trimEnd (c :: rest) with
    | nil => exact ⟨rfl, rfl⟩
    | cons d more =>
      rw [hcases, List.cons_append] at htail
      have hd : d = c := (List.cons.inj htail).1
      simp [hd, hc]
  rw [trim_word _ hne h, List.takeWhile_append_of_pos hword, List.dropWhile_append_of_pos hword,
    htail.1, htail.2, List.append_nil, trim_trimEnd, trim_cons_whitespace _ hc]
  exact ⟨rfl, rfl⟩

theorem splitOnceP_append {key : Text} (value : Text) (hkey : ∀ d ∈ key, p d = false)
    (hc : p c = true) : splitOnceP p (key ++ c :: value) = some (key, value) := by
  have hkey' : ∀ d ∈ key, (!p d) = true := by simpa using hkey
  have hdrop : (key ++ c :: value).dropWhile (fun c => !p c) = c :: value := by
    rw [List.dropWhile_append_of_pos hkey']
    simp [hc]
  have htake : (key ++ c :: value).takeWhile (fun c => !p c) = key := by
    rw [List.takeWhile_append_of_pos hkey']
    simp [hc]
  simp only [splitOnceP, hdrop, htake]

theorem splitOnceP_eq_none (h : ∀ d ∈ t, p d = false) : splitOnceP p t = none := by
  have hdrop : t.dropWhile (fun c => !p c) = [] := by
    rw [List.dropWhile_eq_nil_iff]
    simpa using h
  simp only [splitOnceP, hdrop]

theorem splitOnceP_some {key value : Text} (h : splitOnceP p t = some (key, value)) :
    ∃ c, p c = true ∧ t = key ++ c :: value ∧ ∀ d ∈ key, p d = false := by
  unfold splitOnceP at h
  cases hdrop : t.dropWhile (fun c => !p c) with
  | nil =>
    rw [hdrop] at h
    cases h
  | cons c rest =>
    rw [hdrop] at h
    obtain ⟨rfl, rfl⟩ := Prod.mk.inj (Option.some.inj h)
    refine ⟨c, ?_, ?_, fun d hd => by simpa using List.mem_takeWhile_imp hd⟩
    · have hne : t.dropWhile (fun c => !p c) ≠ [] := by simp [hdrop]
      have hhead := List.head_dropWhile_not (fun c => !p c) hne
      simpa [hdrop] using hhead
    · rw [← hdrop, List.takeWhile_append_dropWhile]

/-- A text that does not start with white space is not trimmed there. -/
theorem trim_of_first (h : (trimStart t).head? = some c) : ∃ rest, trim t = c :: rest := by
  obtain ⟨rest, hstart⟩ : ∃ rest, trimStart t = c :: rest := by
    cases hcases : trimStart t with
    | nil => simp [hcases] at h
    | cons d rest => exact ⟨rest, by simpa [hcases] using h⟩
  have hc : isWhitespace c = false := by
    have hne : t.dropWhile isWhitespace ≠ [] := by
      rw [show t.dropWhile isWhitespace = c :: rest from hstart]
      simp
    have hhead := List.head_dropWhile_not isWhitespace hne
    simpa [show t.dropWhile isWhitespace = c :: rest from hstart] using hhead
  obtain ⟨tail, htail⟩ : trim t <+: trimStart t := List.rdropWhile_prefix _ _
  cases htrim : trim t with
  | nil =>
    have hall := List.rdropWhile_eq_nil_iff.mp (show (trimStart t).rdropWhile isWhitespace = [] from htrim)
    have := hall c (by simp [hstart])
    simp [hc] at this
  | cons d more =>
    rw [htrim, hstart, List.cons_append] at htail
    exact ⟨more, by rw [(List.cons.inj htail).1]⟩

/-- A text without white space is one word. -/
theorem splitWhitespace_eq_singleton (hne : t ≠ []) (h : ∀ c ∈ t, isWhitespace c = false) :
    splitWhitespace t = [t] := by
  rw [splitWhitespace, List.splitOnP_eq_singleton h]
  simp [hne]

/-- The last character stays unless it is white space. -/
theorem getLast?_trim (h : t.getLast? = some c) (hc : isWhitespace c = false) :
    (trim t).getLast? = some c := by
  obtain ⟨init, rfl⟩ := List.getLast?_eq_some_iff.mp h
  have hstart : trimStart (init ++ [c]) = trimStart init ++ [c] := by
    unfold trimStart
    rw [List.dropWhile_append]
    by_cases hall : List.dropWhile isWhitespace init = []
    · simp [hall, hc]
    · simp [hall]
  rw [trim, hstart, trimEnd, List.rdropWhile_concat_neg _ _ _ (by simp [hc])]
  exact List.getLast?_concat

/-- A text that white space neither begins nor ends is trimmed. -/
theorem trim_eq_self (hfirst : ∀ c, t.head? = some c → isWhitespace c = false)
    (hlast : ∀ c, t.getLast? = some c → isWhitespace c = false) : trim t = t := by
  have hstart : trimStart t = t := by
    cases t with
    | nil => rfl
    | cons c t => simp [trimStart, hfirst c rfl]
  rw [trim, hstart, trimEnd, List.rdropWhile_eq_self_iff]
  intro hne
  simp [hlast _ (List.getLast?_eq_some_getLast hne)]

theorem mem_join {sep : Text} {words : List Text} (h : c ∈ join sep words) :
    c ∈ sep ∨ ∃ word ∈ words, c ∈ word := by
  induction words with
  | nil => simp [join] at h
  | cons word words ih =>
    cases words with
    | nil => exact .inr ⟨word, by simp, h⟩
    | cons next words =>
      rw [join, List.mem_append, List.mem_append] at h
      · rcases h with (h | h) | h
        · exact .inr ⟨word, by simp, h⟩
        · exact .inl h
        · rcases ih h with h | ⟨other, hmem, h⟩
          · exact .inl h
          · exact .inr ⟨other, by simp [hmem], h⟩
      · simp

theorem stripStart_append (pattern rest : Text) :
    stripStart pattern (pattern ++ rest) = some rest := by
  have hprefix : pattern.isPrefixOf (pattern ++ rest) = true := by simp
  simp [stripStart, hprefix]

/-- A word is not the start of a text that starts with another word. -/
theorem startsWith_append {pattern : Text} (rest : Text) (h : ¬ pattern <+: word)
    (h' : ¬ word <+: pattern) : startsWith pattern (word ++ rest) = false := by
  rw [startsWith, ← Bool.not_eq_true, List.isPrefixOf_iff_prefix]
  intro hprefix
  rcases List.prefix_or_prefix_of_prefix hprefix (List.prefix_append word rest) with hor | hor
  · exact h hor
  · exact h' hor

/-- A text without white space is not trimmed. -/
theorem trim_eq_self_of_all (h : ∀ c ∈ t, isWhitespace c = false) : trim t = t := by
  apply trim_eq_self
  · intro c hhead
    exact h c (List.mem_of_mem_head? hhead)
  · intro c hlast
    exact h c (List.mem_of_getLast? hlast)

/-- The first character of a trimmed text is not white space. -/
theorem trim_head (t : Text) (c : Char) (rest : Text) (h : trim t = c :: rest) :
    isWhitespace c = false := by
  obtain ⟨tail, hstart⟩ : trim t <+: t.dropWhile isWhitespace := List.rdropWhile_prefix _ _
  rw [h] at hstart
  have hne : t.dropWhile isWhitespace ≠ [] := by rw [← hstart]; simp
  have hhead := List.head_dropWhile_not isWhitespace hne
  simpa [← hstart] using hhead

theorem trim_idem (t : Text) : trim (trim t) = trim t := by
  have hstart : trimStart (trim t) = trim t := by
    cases h : trim t with
    | nil => rfl
    | cons c rest => simp [trimStart, trim_head t c rest h]
  calc trim (trim t) = trimEnd (trim t) := by rw [trim, hstart]
    _ = trim t := List.rdropWhile_idempotent _ _

theorem join_eq_intercalate (sep : Text) (words : List Text) :
    join sep words = sep.intercalate words := by
  induction words with
  | nil => rfl
  | cons word words ih =>
    cases words with
    | nil => simp [join]
    | cons next rest =>
      rw [join, ih]
      simp [List.intercalate]
      simp

/-- The pieces of a split joined again. -/
theorem join_splitOn (c : Char) (t : Text) : join [c] (t.splitOn c) = t := by
  rw [join_eq_intercalate, List.intercalate_splitOn]

theorem toNat_ofNat {n : Nat} (h : n < 55296) : (Char.ofNat n).toNat = n := by
  have hvalid : n.isValidChar := .inl h
  rw [Char.ofNat, dif_pos hvalid]
  rfl

theorem splitOn_toAsciiLowercase (t : Text) :
    (toAsciiLowercase t).splitOn '.' = (t.splitOn '.').map toAsciiLowercase := by
  refine splitOn_map _ '.' (fun c => ?_) t
  split
  · rename_i hc
    simp only [Bool.and_eq_true, decide_eq_true_eq] at hc
    have hlow : 65 ≤ c.toNat := hc.1
    have hhigh : c.toNat ≤ 90 := hc.2
    have hne : ∀ d : Char, d.toNat ≠ 46 → (d == '.') = false := by
      intro d hd
      simp only [beq_eq_false_iff_ne, ne_eq]
      rintro rfl
      exact hd rfl
    rw [hne c (by omega), hne _ (by rw [toNat_ofNat (by omega)]; omega)]
  · rfl

end Text

end Detent.Lib
