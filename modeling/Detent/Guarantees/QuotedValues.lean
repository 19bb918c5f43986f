import Detent.Guarantees.LineJoins

/-!
# What the deny-list sees of a quoted value

unbound reads `include: "a b"` as one quoted name. The deny-list reads white-space words up
to a `#`: of the value it sees the first word, and in the later words whatever options they
spell. `changed_value_refused_iff` says which changes of a value it therefore refuses.
-/
namespace Detent.Guarantees.QuotedValues
open Lib Lib.Text Source.ExecDeny
open List (isEmpty_nil mem_append mem_cons not_mem_nil)

/-- The options that load code, and the list of modules. -/
def keywords : List Text :=
  [lit "include", lit "include-toplevel", lit "python-script", lit "dynlib-file",
    lit "module-config"]

structure Loads (key : Text) : Prop where
  noColon : ':' ∉ key
  keyword : toAsciiLowercase key ∈ keywords

/-- An option with its value; a list of modules is the whole line, and counts when it names
one that runs code. -/
def option (line key value : Text) : List Text :=
  if toAsciiLowercase key = lit "module-config" then
    if contains (lit "python") (toAsciiLowercase line) ||
        contains (lit "dynlib") (toAsciiLowercase line) then
      [toAsciiLowercase key ++ lit ": " ++ squash (toAsciiLowercase line)]
    else []
  else [toAsciiLowercase key ++ lit ": " ++ value]

/-- The options that the words of a line set: each takes its value from its own word, or from
the next one. -/
inductive Reads (line : Text) : List Text → List Text → Prop
  | nil : Reads line [] []
  | plain {word : Text} {words found : List Text}
      (h : ∀ key value, word = key ++ ':' :: value → ¬ Loads key) (rest : Reads line words found) :
      Reads line (word :: words) found
  | own {key value : Text} {words found : List Text} (h : Loads key) (hvalue : value ≠ [])
      (rest : Reads line words found) :
      Reads line ((key ++ ':' :: value) :: words) (option line key value ++ found)
  | next {key value : Text} {words found : List Text} (h : Loads key)
      (rest : Reads line words found) :
      Reads line ((key ++ [':']) :: value :: words) (option line key value ++ found)
  | last {key : Text} (h : Loads key) : Reads line [key ++ [':']] (option line key [])

theorem unboundTokens_plain (line : Text) {word : Text} (words : List Text)
    (h : ∀ key value, word = key ++ ':' :: value → ¬ Loads key) :
    unboundTokens line (word :: words) = unboundTokens line words := by
  rw [unboundTokens]
  cases hsplit : splitOnceP (fun c => c == ':') word with
  | none => rfl
  | some pair =>
    obtain ⟨key, value⟩ := pair
    obtain ⟨c, hc, rfl, hkey⟩ := splitOnceP_some hsplit
    obtain rfl : c = ':' := by simpa using hc
    have hno : toAsciiLowercase key ∉ keywords := by
      intro hin
      exact h key value rfl ⟨fun hcolon => by simpa using hkey ':' hcolon, hin⟩
    simp only [keywords, mem_cons, not_mem_nil, or_false, not_or] at hno
    simp [hno]

theorem unboundTokens_loads (line : Text) {key : Text} (value : Text) (words : List Text)
    (h : Loads key) :
    unboundTokens line ((key ++ ':' :: value) :: words) =
      if value.isEmpty then
        match words with
        | [] => option line key []
        | next :: words => option line key next ++ unboundTokens line words
      else option line key value ++ unboundTokens line words := by
  have hsplit : splitOnceP (fun c => c == ':') (key ++ ':' :: value) = some (key, value) :=
    splitOnceP_append value (by
      intro d hd
      simpa using fun hcolon : d = ':' => h.noColon (hcolon ▸ hd)) (by decide)
  have hkeyword := h.keyword
  rw [unboundTokens, hsplit]
  simp only [keywords, mem_cons, not_mem_nil, or_false] at hkeyword
  have hread : ¬ (¬ toAsciiLowercase key ∈ [lit "include", lit "include-toplevel",
      lit "python-script", lit "dynlib-file"] ∧ ¬ toAsciiLowercase key = lit "module-config") := by
    intro ⟨hexec, hmodules⟩
    simp only [mem_cons, not_mem_nil, or_false, not_or] at hexec
    rcases hkeyword with hkey | hkey | hkey | hkey | hkey
    · exact hexec.1 hkey
    · exact hexec.2.1 hkey
    · exact hexec.2.2.1 hkey
    · exact hexec.2.2.2 hkey
    · exact hmodules hkey
  simp only [hread, if_false]
  cases value with
  | nil =>
    cases words with
    | nil | cons => rfl
  | cons c value => rfl


/-- The tokens are read as `Reads` says, and in one way only. -/
theorem reads_iff {line : Text} {words found : List Text} :
    Reads line words found ↔ unboundTokens line words = found := by
  constructor
  · intro h
    induction h with
    | nil => rfl
    | plain hplain _ ih => rw [unboundTokens_plain line _ hplain, ih]
    | own hloads hvalue _ ih =>
      rw [unboundTokens_loads line _ _ hloads, if_neg (by simpa using hvalue), ih]
    | next hloads _ ih =>
      rw [unboundTokens_loads line _ _ hloads]
      simp only [isEmpty_nil, if_true, ih]
    | last hloads =>
      rw [unboundTokens_loads line _ _ hloads]
      simp only [isEmpty_nil, if_true]
  · rintro rfl
    generalize hn : words.length = n
    induction n using Nat.strongRecOn generalizing words with
    | ind n ih =>
      cases words with
      | nil => exact .nil
      | cons word words =>
        simp only [List.length_cons] at hn
        by_cases hloads : ∃ key value, word = key ++ ':' :: value ∧ Loads key
        · obtain ⟨key, value, rfl, hloads⟩ := hloads
          rw [unboundTokens_loads line _ _ hloads]
          by_cases hvalue : value = []
          · subst hvalue
            simp only [isEmpty_nil, if_true]
            cases words with
            | nil => exact .last hloads
            | cons next words =>
              exact .next hloads (ih words.length (by simp at hn; omega) rfl)
          · rw [if_neg (by simpa using hvalue)]
            exact .own hloads hvalue (ih words.length (by omega) rfl)
        · have hplain : ∀ key value, word = key ++ ':' :: value → ¬ Loads key :=
            fun key value hword hkey => hloads ⟨key, value, hword, hkey⟩
          rw [unboundTokens_plain line words hplain]
          exact .plain hplain (ih words.length (by omega) rfl)

/-- The part of `"v"` before a `#`. -/
def shown (v : Text) : Text := ('"' :: v ++ ['"']).takeWhile (· ≠ '#')

/-- The first word of the shown part, and the others. -/
def firstWord (v : Text) : Text := (splitWhitespace (shown v)).headD []

def laterWords (v : Text) : List Text := (splitWhitespace (shown v)).tail

/-- The line that gives an option a quoted value. -/
def quoting (keyword v : Text) : Text := keyword ++ lit ": \"" ++ v ++ ['"']

/-- The options of `module-config` apart. -/
def loaders : List Text :=
  [lit "include", lit "include-toplevel", lit "python-script", lit "dynlib-file"]

theorem shown_words (v : Text) :
    splitWhitespace (shown v) = firstWord v :: laterWords v := by
  have hshown : shown v = '"' :: (v ++ ['"']).takeWhile (· ≠ '#') := by
    rw [shown, List.cons_append, List.takeWhile_cons_of_pos (by decide)]
  obtain ⟨word, rest, hwords⟩ :=
    splitWhitespace_first ((v ++ ['"']).takeWhile (· ≠ '#')) (show isWhitespace '"' = false by decide)
  rw [firstWord, laterWords, hshown, hwords]
  rfl

variable {keyword : Text} (h : keyword ∈ loaders)
include h

/-- What the proofs use of the four keywords. -/
theorem loaders_plain :
    keyword ≠ [] ∧ toAsciiLowercase keyword = keyword ∧ keyword ∈ keywords ∧
      keyword ≠ lit "module-config" ∧
      ∀ c ∈ keyword, c ≠ '#' ∧ c ≠ ':' ∧ c ≠ '\n' ∧ isWhitespace c = false := by
  simp only [loaders, mem_cons, not_mem_nil, or_false] at h
  rcases h with rfl | rfl | rfl | rfl
  all_goals decide

theorem quoting_shown (v : Text) :
    (quoting keyword v).takeWhile (· ≠ '#') = keyword ++ ':' :: ' ' :: shown v := by
  obtain ⟨-, -, -, -, hplain⟩ := loaders_plain h
  have hline : quoting keyword v = (keyword ++ [':', ' ']) ++ ('"' :: v ++ ['"']) := by
    simp [quoting, lit]
  rw [hline, List.takeWhile_append_of_pos, shown]
  · simp
  · intro c hmem
    rcases mem_append.mp hmem with hmem | hmem
    · simpa using (hplain c hmem).1
    · simp only [mem_cons, not_mem_nil, or_false] at hmem
      rcases hmem with rfl | rfl
      all_goals decide

theorem quoting_words (v : Text) :
    splitWhitespace (keyword ++ ':' :: ' ' :: shown v) =
      (keyword ++ [':']) :: firstWord v :: laterWords v := by
  obtain ⟨-, -, -, -, hplain⟩ := loaders_plain h
  rw [List.append_cons, splitWhitespace_word (shown v) (by simp) _ (by decide), shown_words]
  intro c hmem
  rcases mem_append.mp hmem with hmem | hmem
  · exact (hplain c hmem).2.2.2
  · rw [List.mem_singleton.mp hmem]
    decide

/-- The directives of the line: the first word, and what the later words set. -/
theorem quoting_directives (v : Text) :
    unboundTokens ((quoting keyword v).takeWhile (· ≠ '#'))
        (splitWhitespace ((quoting keyword v).takeWhile (· ≠ '#'))) =
      (keyword ++ lit ": " ++ firstWord v) ::
        unboundTokens (keyword ++ ':' :: ' ' :: shown v) (laterWords v) := by
  obtain ⟨-, hlower, hin, hmodules, hplain⟩ := loaders_plain h
  have hloads : Loads keyword := by
    refine ⟨fun hcolon => (hplain ':' hcolon).2.1 rfl, ?_⟩
    rwa [hlower]
  rw [quoting_shown h, quoting_words h, unboundTokens_loads _ _ _ hloads]
  simp only [isEmpty_nil, if_true, option, hlower, hmodules, if_false]
  rfl

/-- The text around the line is read by itself. -/
theorem unbound_around {pre post v : Text} (hpre : pre.getLast? = some '\n')
    (hpost : post.head? = some '\n') (hv : '\n' ∉ v) :
    unbound (pre ++ quoting keyword v ++ post) =
      unbound pre ++ (((keyword ++ lit ": " ++ firstWord v) ::
        unboundTokens (keyword ++ ':' :: ' ' :: shown v) (laterWords v)) ++ unbound post.tail) := by
  obtain ⟨-, -, -, -, hplain⟩ := loaders_plain h
  obtain ⟨before, rfl⟩ := List.getLast?_eq_some_iff.mp hpre
  obtain ⟨after, rfl⟩ := List.head?_eq_some_iff.mp hpost
  have hline : '\n' ∉ quoting keyword v := by
    simp only [quoting, mem_append, not_or]
    exact ⟨⟨⟨fun hmem => (hplain '\n' hmem).2.2.1 rfl, by decide⟩, hv⟩, by decide⟩
  have hquote : stripCr (quoting keyword v) = quoting keyword v := by
    rw [stripCr, stripLast_eq_none (by simp [quoting])]
    rfl
  have hlines : lines (before ++ ['\n'] ++ quoting keyword v ++ '\n' :: after) =
      lines (before ++ ['\n']) ++ quoting keyword v :: lines after := by
    rw [List.append_assoc, List.append_assoc, List.singleton_append, lines_append,
      lines_newline _ _ hline, hquote]
  rw [unbound, hlines, List.flatMap_append, List.flatMap_cons, quoting_directives h]
  rfl

omit h

theorem adds_iff (p t : Text) :
    addsExecDirective "resolver" (utf8 p) (utf8 t) = true ↔
      ¬ (unbound t : Multiset Text) ≤ unbound p := by
  rw [addsExecDirective, fromUtf8Lossy_utf8, fromUtf8Lossy_utf8]
  exact LineJoins.anyUnmatched_iff _ _

/-- The options that a line with the value `v` shows, its own first. -/
def Shows (keyword v : Text) (found : List Text) : Prop :=
  ∃ later, Reads (keyword ++ ':' :: ' ' :: shown v) (laterWords v) later ∧
    found = (keyword ++ lit ": " ++ firstWord v) :: later

/-- Going from `old` to `new` shows: some option that `new` shows, `old` does not show as often. -/
def Differs (keyword old new : Text) : Prop :=
  ∀ before after, Shows keyword old before → Shows keyword new after →
    ¬ (after : Multiset Text) ≤ before

theorem adds_quoted_iff (h : keyword ∈ loaders) {pre post old new : Text}
    (hpre : pre.getLast? = some '\n') (hpost : post.head? = some '\n') (hold : '\n' ∉ old)
    (hnew : '\n' ∉ new) :
    addsExecDirective "resolver" (utf8 (pre ++ quoting keyword old ++ post))
        (utf8 (pre ++ quoting keyword new ++ post)) = true ↔ Differs keyword old new := by
  rw [adds_iff, unbound_around h hpre hpost hold, unbound_around h hpre hpost hnew]
  have hcount : ((unbound pre ++ (((keyword ++ lit ": " ++ firstWord new) ::
        unboundTokens (keyword ++ ':' :: ' ' :: shown new) (laterWords new)) ++
          unbound post.tail) : List Text) : Multiset Text) ≤
      (unbound pre ++ (((keyword ++ lit ": " ++ firstWord old) ::
        unboundTokens (keyword ++ ':' :: ' ' :: shown old) (laterWords old)) ++
          unbound post.tail) : List Text) ↔
      (((keyword ++ lit ": " ++ firstWord new) ::
        unboundTokens (keyword ++ ':' :: ' ' :: shown new) (laterWords new) : List Text) :
          Multiset Text) ≤
        ((keyword ++ lit ": " ++ firstWord old) ::
          unboundTokens (keyword ++ ':' :: ' ' :: shown old) (laterWords old) : List Text) := by
    rw [← Multiset.coe_add, ← Multiset.coe_add, ← Multiset.coe_add, ← Multiset.coe_add,
      Multiset.add_le_add_iff_left, Multiset.add_le_add_iff_right]
  rw [hcount]
  constructor
  · rintro hnot before after ⟨later, hlater, rfl⟩ ⟨later', hlater', rfl⟩
    rw [reads_iff] at hlater hlater'
    subst hlater
    subst hlater'
    exact hnot
  · intro hdiffers
    exact hdiffers _ _ ⟨_, reads_iff.mpr rfl, rfl⟩ ⟨_, reads_iff.mpr rfl, rfl⟩

/-- Words without a colon set nothing. -/
theorem reads_plain (line : Text) {words : List Text} (h : ∀ word ∈ words, ':' ∉ word) :
    Reads line words [] := by
  induction words with
  | nil => exact .nil
  | cons word words ih =>
    refine .plain ?_ (ih (fun other hmem => h other (List.mem_cons_of_mem _ hmem)))
    rintro key value rfl
    exact absurd (by simp) (h (key ++ ':' :: value) List.mem_cons_self)

theorem shows_plain {v : Text} (h : ∀ word ∈ laterWords v, ':' ∉ word) {found : List Text} :
    Shows keyword v found ↔ found = [keyword ++ lit ": " ++ firstWord v] := by
  constructor
  · rintro ⟨later, hlater, rfl⟩
    have hnone := reads_iff.mp (reads_plain (keyword ++ ':' :: ' ' :: shown v) h)
    rw [← reads_iff.mp hlater, hnone]
  · rintro rfl
    exact ⟨[], reads_plain _ h, rfl⟩

theorem differs_plain {old new : Text} (hold : ∀ word ∈ laterWords old, ':' ∉ word)
    (hnew : ∀ word ∈ laterWords new, ':' ∉ word) :
    Differs keyword old new ↔ firstWord old ≠ firstWord new := by
  constructor
  · intro h hsame
    refine h _ _ ((shows_plain hold).mpr rfl) ((shows_plain hnew).mpr rfl) ?_
    rw [hsame]
  · intro hne before after hbefore hafter hle
    rw [shows_plain hold] at hbefore
    rw [shows_plain hnew] at hafter
    subst hbefore
    subst hafter
    have hin := Multiset.mem_of_le hle (List.mem_singleton_self (keyword ++ lit ": " ++ firstWord new))
    exact hne (List.append_cancel_left (List.mem_singleton.mp hin)).symm

/-- A value without white space and `#` is one word. -/
theorem words_of_path {v : Text} (h : ∀ c ∈ v, c ≠ '#' ∧ isWhitespace c = false) :
    firstWord v = '"' :: v ++ ['"'] ∧ laterWords v = [] := by
  have hquoted : ∀ c ∈ '"' :: v ++ ['"'], c ≠ '#' ∧ isWhitespace c = false := by
    intro c hmem
    simp only [List.cons_append, mem_cons, mem_append, not_mem_nil, or_false] at hmem
    rcases hmem with rfl | hmem | rfl
    · decide
    · exact h c hmem
    · decide
  have hshown : shown v = '"' :: v ++ ['"'] := by
    rw [shown, List.takeWhile_eq_self_iff]
    intro c hmem
    simpa using (hquoted c hmem).1
  have hwords : splitWhitespace ('"' :: v ++ ['"']) = ['"' :: v ++ ['"']] :=
    splitWhitespace_eq_singleton (by simp) (fun c hmem => (hquoted c hmem).2)
  rw [firstWord, laterWords, hshown, hwords]
  exact ⟨rfl, rfl⟩

/-- **A changed value.** The gate sees the first word of a quoted value and the options that
its later words spell, up to a `#`. So a change is refused exactly when these differ: for
later words without a colon when the first words do, and for a value without white space and
`#` whenever the value does. -/
theorem changed_value_refused_iff {keyword : Text} (h : keyword ∈ loaders) {pre post old new : Text}
    (hpre : pre.getLast? = some '\n') (hpost : post.head? = some '\n') (hold : '\n' ∉ old)
    (hnew : '\n' ∉ new) :
    (addsExecDirective "resolver" (utf8 (pre ++ quoting keyword old ++ post))
        (utf8 (pre ++ quoting keyword new ++ post)) = true ↔ Differs keyword old new) ∧
    ((∀ word ∈ laterWords old ++ laterWords new, ':' ∉ word) →
      (Differs keyword old new ↔ firstWord old ≠ firstWord new)) ∧
    ((∀ c ∈ old ++ new, c ≠ '#' ∧ isWhitespace c = false) →
      (Differs keyword old new ↔ old ≠ new)) := by
  refine ⟨adds_quoted_iff h hpre hpost hold hnew, ?_, ?_⟩
  · intro hplain
    exact differs_plain (fun word hmem => hplain word (List.mem_append_left _ hmem))
      (fun word hmem => hplain word (List.mem_append_right _ hmem))
  · intro hpath
    obtain ⟨hfirst, hnone⟩ := words_of_path (fun c hmem => hpath c (List.mem_append_left _ hmem))
    obtain ⟨hfirst', hnone'⟩ := words_of_path (fun c hmem => hpath c (List.mem_append_right _ hmem))
    rw [differs_plain (by simp [hnone]) (by simp [hnone']), hfirst, hfirst']
    simp

theorem changed_path_refused :
    addsExecDirective "resolver" (utf8 (lit "server:\n" ++ quoting (lit "include") (lit "/a") ++ lit "\n"))
      (utf8 (lit "server:\n" ++ quoting (lit "include") (lit "/b") ++ lit "\n")) = true := by
  obtain ⟨hrefused, -, hpath⟩ := @changed_value_refused_iff (lit "include") (by decide)
    (lit "server:\n") (lit "\n") (lit "/a") (lit "/b") (by decide) (by decide) (by decide) (by decide)
  exact hrefused.mpr ((hpath (by decide)).mpr (by decide))

/-- The second word of a file name may change. -/
theorem second_word_not_seen :
    ¬ ∀ keyword ∈ loaders, ∀ pre post old new : Text, pre.getLast? = some '\n' →
      post.head? = some '\n' → '\n' ∉ old ++ new → '"' ∉ old ++ new → squash old ≠ squash new →
        addsExecDirective "resolver" (utf8 (pre ++ quoting keyword old ++ post))
          (utf8 (pre ++ quoting keyword new ++ post)) = true := by
  intro hall
  have hadds := hall (lit "include") (by decide) ['\n'] ['\n'] (lit "/a b") (lit "/a c") (by decide)
    (by decide) (by decide) (by decide) (by decide)
  revert hadds
  decide +kernel

end Detent.Guarantees.QuotedValues
