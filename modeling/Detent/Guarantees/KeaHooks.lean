import Detent.Guarantees.KeaGroups
import Detent.Guarantees.LineJoins

/-!
# A changed hook library

Kea loads the libraries of `hooks-libraries`. The deny-list compares what a bracket scan of the
normal form reads from the member's name: `changed_hook_refused_iff` says which changes of the
array it therefore refuses.
-/
namespace Detent.Guarantees.KeaHooks
open Lib Lib.Text Lib.JsonText Source.ExecDeny
open KeaForms KeaGroups
open List (cons.inj count_append mem_map mem_singleton)

/-! ## No line of a JSON text is a dnsmasq directive -/

/-- The option a line sets, before `=`. -/
def optionName (line : Text) : Text :=
  toAsciiLowercase ((trim (splitAssignment (trim line)).1).dropWhile (· == '-'))

def dnsmasqNames : List Text :=
  [lit "dhcp-script", lit "dhcp-luascript", lit "dhcp-scriptuser", lit "conf-file",
    lit "conf-dir", lit "conf-script"]

theorem dnsmasq_eq_nil {t : Text} (h : ∀ line ∈ lines t, optionName line ∉ dnsmasqNames) :
    dnsmasq t = [] := by
  rw [dnsmasq, List.filterMap_eq_nil_iff]
  intro line hline
  dsimp only
  split
  · rfl
  · exact if_neg (h line hline)

theorem splitAssignment_fst (line : Text) :
    (splitAssignment line).1 = line.takeWhile (fun c => !(c == '=')) := by
  rw [splitAssignment, splitOnceP]
  cases hdrop : line.dropWhile (fun c => !(c == '=')) with
  | nil =>
    have hsplit := List.takeWhile_append_dropWhile (p := fun c => !(c == '=')) (l := line)
    rw [hdrop, List.append_nil] at hsplit
    exact hsplit.symm
  | cons c rest => rfl

/-- What a lexeme starts with: no option starts so. -/
def Starter (c : Char) : Prop := c ∉ ['-', '=', 'd', 'D', 'c', 'C'] ∧ isWhitespace c = false

instance (c : Char) : Decidable (Starter c) := inferInstanceAs (Decidable (_ ∧ _))

theorem starter_word {dash : Text} {c : Char} (hdash : dash = [] ∨ dash = ['-']) (hc : Starter c) :
    ∀ d ∈ dash ++ [c], isWhitespace d = false := by
  intro d hd
  rcases List.mem_append.mp hd with hd | hd
  · rcases hdash with rfl | rfl
    · cases hd
    · rw [mem_singleton.mp hd]
      decide
  · rw [mem_singleton.mp hd]
    exact hc.2

structure Starts (t : Text) (dash : Text) (c : Char) (rest : Text) : Prop where
  eq : t = dash ++ c :: rest
  dashed : dash = [] ∨ dash = ['-']
  starter : Starter c

theorem lowercase_head {c d : Char} (h : (toAsciiLowercase [c]).head? = some d) :
    c = d ∨ c.toNat + 32 = d.toNat := by
  have hc : (if 'A' ≤ c && c ≤ 'Z' then Char.ofNat (c.toNat + 32) else c) = d := Option.some.inj h
  split at hc
  · rename_i hupper
    simp only [Bool.and_eq_true, decide_eq_true_eq] at hupper
    have hhigh : c.toNat ≤ 90 := hupper.2
    rw [← hc, toNat_ofNat (by omega)]
    exact .inr rfl
  · exact .inl hc

theorem optionName_starts {line dash rest : Text} {c : Char} (h : Starts (trim line) dash c rest) :
    optionName line ∉ dnsmasqNames := by
  obtain ⟨heq, hdash, hc, hblack⟩ := h
  have hplain : c ≠ '-' ∧ c ≠ '=' := by
    constructor
    all_goals
      rintro rfl
      exact hc (by simp)
  have hword := starter_word hdash ⟨hc, hblack⟩
  have hkey : ∃ more, (splitAssignment (trim line)).1 = (dash ++ [c]) ++ more := by
    rw [splitAssignment_fst, heq]
    refine ⟨rest.takeWhile (fun c => !(c == '=')), ?_⟩
    rcases hdash with rfl | rfl
    all_goals simp [hplain.2]
  obtain ⟨more, hmore⟩ := hkey
  have hname : ∃ tail, optionName line = toAsciiLowercase (c :: tail) := by
    rw [optionName, hmore, trim_word more (by simp) hword]
    refine ⟨trimEnd more, ?_⟩
    rcases hdash with rfl | rfl
    all_goals simp [hplain.1]
  obtain ⟨tail, htail⟩ := hname
  have hfirst : ∀ name ∈ dnsmasqNames, name.head? = some 'd' ∨ name.head? = some 'c' := by decide
  intro hmem
  have hhead := hfirst _ hmem
  rw [htail] at hhead
  have hlower : c ∈ ['d', 'D', 'c', 'C'] := by
    rcases hhead with hd | hd
    · rcases lowercase_head hd with rfl | hnat
      · simp
      · have hc : c = 'D' := Char.toNat_inj.mp (Nat.add_right_cancel (m := 32) hnat)
        simp [hc]
    · rcases lowercase_head hd with rfl | hnat
      · simp
      · have hc : c = 'C' := Char.toNat_inj.mp (Nat.add_right_cancel (m := 32) hnat)
        simp [hc]
  exact hc (List.mem_cons_of_mem _ (List.mem_cons_of_mem _ hlower))

/-- A lexeme other than white space starts no option. -/
theorem lexeme_starts {l : Lexeme} (h : l.isSpace = false) :
    ∃ dash c rest, Starts l.text dash c rest := by
  have hdigit : ∀ c, isAsciiDigit c = true → Starter c := by
    intro c hc
    have hne : ∀ d, isAsciiDigit d = false → c ≠ d := by
      rintro d hd rfl
      rw [hc] at hd
      cases hd
    refine ⟨?_, ?_⟩
    · simp [hne '-' (by decide), hne '=' (by decide), hne 'd' (by decide), hne 'D' (by decide),
        hne 'c' (by decide), hne 'C' (by decide)]
    · simp only [isAsciiDigit, Bool.and_eq_true, decide_eq_true_eq] at hc
      have hlow : 48 ≤ c.toNat := hc.1
      have hhigh : c.toNat ≤ 57 := hc.2
      simp only [isWhitespace, Bool.or_eq_false_iff, Bool.and_eq_false_iff, decide_eq_false_iff_not,
        beq_eq_false_iff_ne]
      omega
  cases l with
  | space c hc => cases h
  | mark m =>
    refine ⟨[], m.char, [], rfl, .inl rfl, ?_⟩
    cases m with
    | openArray | closeArray | openObject | closeObject | colon | comma => decide
  | null => exact ⟨[], 'n', ['u', 'l', 'l'], rfl, .inl rfl, by decide⟩
  | bool b =>
    cases b with
    | true => exact ⟨[], 't', ['r', 'u', 'e'], rfl, .inl rfl, by decide⟩
    | false => exact ⟨[], 'f', ['a', 'l', 's', 'e'], rfl, .inl rfl, by decide⟩
  | number n =>
    obtain ⟨c, whole, hwhole⟩ := List.exists_cons_of_ne_nil n.isWhole.1.1
    have hc : Starter c := hdigit c (n.isWhole.1.2 c (by simp [hwhole]))
    have htext : n.text = (if n.negative then ['-'] else []) ++ c :: (whole ++
        ((if n.fraction.isEmpty then [] else '.' :: n.fraction) ++
          (n.exponent.map Exponent.text).getD [])) := by
      rw [Number.text, hwhole]
      simp
    refine ⟨_, c, _, htext, ?_, hc⟩
    cases n.negative with
    | true => exact .inr rfl
    | false => exact .inl rfl
  | string items => exact ⟨[], '"', content items ++ ['"'], rfl, .inl rfl, by decide⟩

theorem newline_lexeme {l : Lexeme} (h : '\n' ∈ l.text) : l.text = ['\n'] := by
  cases l with
  | space c hc =>
    have hsame : '\n' = c := mem_singleton.mp h
    rw [Lexeme.text, hsame]
  | mark m =>
    cases m with
    | _ => exact absurd h (by decide)
  | null => exact absurd h (by decide)
  | bool b =>
    cases b with
    | _ => exact absurd h (by decide)
  | number n =>
    rcases mem_numberText h with hdigit | hmark
    · exact absurd hdigit (by decide)
    · exact absurd hmark (by decide)
  | string items =>
    have hcontent : '\n' ∉ content items := by
      intro hmem
      obtain ⟨item, -, hitem⟩ := List.mem_flatMap.mp hmem
      cases item with
      | raw c hc =>
        obtain rfl : '\n' = c := mem_singleton.mp hitem
        exact absurd hc (by decide)
      | short e he =>
        have hescapes : ∀ e ∈ shortEscapes, '\n' ∉ ['\\', e.1] := by decide
        exact hescapes e he hitem
      | unit digits hdigits =>
        simp only [Item.text, List.mem_cons] at hitem
        rcases hitem with hitem | hitem | hitem
        · cases hitem
        · cases hitem
        · exact absurd (hdigits.2 _ hitem) (by decide)
    simp [Lexeme.text, hcontent] at h

theorem trim_stripCr (t : Text) : trim (stripCr t) = trim t := by
  rw [stripCr]
  cases hstrip : stripLast '\r' t with
  | none => rfl
  | some rest =>
    rw [stripLast_eq_some hstrip, trim_append_whitespace rest (by decide)]
    rfl

theorem eq_of_mem_lines {line t : Text} (ht : '\n' ∉ t) (h : line ∈ lines t) : line = t := by
  rw [lines, List.splitOn_eq_singleton ht, linesOf] at h
  split at h
  · cases h
  · exact mem_singleton.mp h

theorem newline_not_mem_text {part : List Lexeme} (h : ∀ l ∈ part, '\n' ∉ l.text) :
    '\n' ∉ text part := by
  intro hmem
  obtain ⟨l, hl, hin⟩ := List.mem_flatMap.mp hmem
  exact h l hl hin

/-- A line of a JSON text is, trimmed, a part of its lexemes. -/
theorem line_of_text {line : Text} : ∀ (ls part : List Lexeme), (∀ l ∈ part, '\n' ∉ l.text) →
    line ∈ lines (text (part ++ ls)) → ∃ part, trim line = trim (text part)
  | [], part, hpart, h => by
    rw [List.append_nil] at h
    exact ⟨part, by rw [eq_of_mem_lines (newline_not_mem_text hpart) h]⟩
  | l :: ls, part, hpart, h => by
    by_cases hl : '\n' ∈ l.text
    · have htext : text (part ++ l :: ls) = text part ++ '\n' :: text ls := by
        have hcons : text (l :: ls) = l.text ++ text ls := rfl
        rw [text_append, hcons, newline_lexeme hl]
        rfl
      rw [htext, lines_newline _ _ (newline_not_mem_text hpart)] at h
      rcases List.mem_cons.mp h with rfl | h
      · exact ⟨part, trim_stripCr _⟩
      · exact line_of_text ls [] (by simp) h
    · refine line_of_text ls (part ++ [l]) ?_ (by simpa using h)
      intro other hother
      rcases List.mem_append.mp hother with hother | hother
      · exact hpart other hother
      · rw [mem_singleton.mp hother]
        exact hl

theorem trim_text : ∀ part : List Lexeme, trim (text part) = [] ∨
    ∃ dash c rest, Starts (trim (text part)) dash c rest
  | [] => .inl rfl
  | l :: part => by
    have hcons : text (l :: part) = l.text ++ text part := rfl
    cases hspace : l.isSpace with
    | true =>
      cases l with
      | space c hc =>
        have htrim := trim_cons_whitespace (text part) (isWhitespace_of_isSpace hc)
        rw [hcons, Lexeme.text, List.singleton_append, htrim]
        exact trim_text part
      | _ => cases hspace
    | false =>
      obtain ⟨dash, c, rest, heq, hdash, hc⟩ := lexeme_starts hspace
      refine .inr ⟨dash, c, trimEnd (rest ++ text part), ?_, hdash, hc⟩
      have hword := starter_word hdash hc
      have hsplit : text (l :: part) = (dash ++ [c]) ++ (rest ++ text part) := by
        rw [hcons, heq]
        simp
      rw [hsplit, trim_word _ (by simp) hword]
      simp

/-- No line of a JSON text sets an option of dnsmasq. -/
theorem dnsmasq_text (ls : List Lexeme) : dnsmasq (text ls) = [] := by
  apply dnsmasq_eq_nil
  intro line hline
  obtain ⟨part, hpart⟩ := line_of_text ls [] (by simp) hline
  rcases trim_text part with hempty | ⟨dash, c, rest, hstarts⟩
  · rw [optionName, hpart, hempty]
    decide
  · rw [← hpart] at hstarts
    exact optionName_starts hstarts

/-! ## The groups of a normal form -/

/-- The rest of a text from each hooks member's name that it shows. -/
def names (d : Text) : List Text := matchSuffixes hooksPattern d

/-- The hooks members that a normal form shows, and its includes. -/
def groups (d : Text) : List Text := (names d).map bracketed

/-- The rest of a text from each include that it shows. -/
def includeStarts (d : Text) : List Text := matchSuffixes (lit "<?include") d

/-- An include up to its end, or to the end of the text. -/
def included (rest : Text) : Text :=
  match splitAtMatch (lit "?>") rest with
  | some (before, _) => before ++ lit "?>"
  | none => rest

def includes (d : Text) : List Text := (includeStarts d).map included

theorem kea_eq (t : Text) : kea t = groups (normalForm t) ++ includes (normalForm t) := rfl

theorem groups_head {d g : Text} (h : g ∈ groups d) : g.head? = some '"' := by
  obtain ⟨s, hs, rfl⟩ := mem_map.mp h
  obtain ⟨rest, rfl⟩ := prefix_of_mem_matchSuffixes hs
  change (bracketedFrom (outside 0) ('"' :: _)).head? = _
  rw [bracketedFrom_cons]
  rfl

theorem includes_head {d x : Text} (h : x ∈ includes d) : x.head? = some '<' := by
  obtain ⟨s, hs, rfl⟩ := mem_map.mp h
  obtain ⟨rest, rfl⟩ := prefix_of_mem_matchSuffixes hs
  unfold included
  split
  · rename_i before after hsplit
    obtain ⟨heq, hend⟩ := splitAtMatch_some hsplit
    cases before with
    | nil =>
      rw [List.nil_append] at heq
      rw [← heq] at hend
      exact absurd (List.cons_prefix_cons.mp hend).1 (by decide)
    | cons c before =>
      have hc : '<' = c := (cons.inj heq).1
      rw [← hc]
      rfl
  · rfl

/-- What the search finds in a normal form. -/
def found (d : Text) : List Text := groups d ++ includes d

/-- Texts that all start with one character, counted by what they start with. -/
theorem countP_head {texts : List Text} {first : Char} (h : ∀ t ∈ texts, t.head? = some first)
    (c : Char) :
    texts.countP (fun t => t.head? == some c) = if c = first then texts.length else 0 := by
  split
  · rename_i hc
    refine List.countP_eq_length.mpr (fun t ht => ?_)
    simp [h t ht, hc]
  · rename_i hc
    refine List.countP_eq_zero.mpr (fun t ht => ?_)
    simpa [h t ht] using Ne.symm hc

/-- No more members are shown, and no more includes, where nothing new is found. -/
theorem shows_le {d d' : Text} (h : (found d' : Multiset Text) ≤ found d) :
    (names d').length ≤ (names d).length ∧ (includeStarts d').length ≤ (includeStarts d).length := by
  have hgroups : ∀ d, ∀ g ∈ groups d, g.head? = some '"' := fun _ _ hg => groups_head hg
  have hincludes : ∀ d, ∀ x ∈ includes d, x.head? = some '<' := fun _ _ hx => includes_head hx
  have hcount := fun c => (Multiset.coe_le.mp h).countP_le (fun g : Text => g.head? == some c)
  simp only [found, List.countP_append, countP_head (hgroups _), countP_head (hincludes _)] at hcount
  simp only [groups, includes, List.length_map] at hcount
  have hstarts := hcount '<'
  simp only [if_neg (show ¬ '<' = '"' by decide), ↓reduceIte, Nat.zero_add] at hstarts
  exact ⟨hcount '"', hstarts⟩

/-- A group is found no more often than before where nothing new is found. -/
theorem count_groups_le {d d' v : Text} (h : (found d' : Multiset Text) ≤ found d)
    (hv : v ∈ groups d') : (groups d').count v ≤ (groups d).count v := by
  have hnot : ∀ d, (includes d).count v = 0 := by
    refine fun d => List.count_eq_zero.mpr (fun hmem => ?_)
    have hhead := (groups_head hv).symm.trans (includes_head hmem)
    cases hhead
  have hle := (Multiset.coe_le.mp h).count_le v
  rwa [found, found, count_append, count_append, hnot, hnot, Nat.add_zero,
    Nat.add_zero] at hle

section Around

variable {lead after : Text}

theorem names_around (lead after shown : Text) :
    names (lead ++ '[' :: (shown ++ ']' :: after)) =
      (names lead).map (fun s => s ++ '[' :: (shown ++ ']' :: after)) ++
        ((names shown).map (fun s => s ++ ']' :: after) ++ names after) := by
  rw [names, matchSuffixes_append_cons (by decide) (by decide),
    matchSuffixes_append_cons (by decide) (by decide)]
  rfl

theorem includeStarts_around (lead after shown : Text) :
    includeStarts (lead ++ '[' :: (shown ++ ']' :: after)) =
      (includeStarts lead).map (fun s => s ++ '[' :: (shown ++ ']' :: after)) ++
        ((includeStarts shown).map (fun s => s ++ ']' :: after) ++ includeStarts after) := by
  rw [includeStarts, matchSuffixes_append_cons (by decide) (by decide),
    matchSuffixes_append_cons (by decide) (by decide)]
  rfl

/-- An include that ends before the array does not see it. -/
theorem included_append {s : Text} (h : (splitAtMatch (lit "?>") s).isSome) (rest : Text) :
    included (s ++ rest) = included s := by
  obtain ⟨⟨before, last⟩, hsplit⟩ := Option.isSome_iff_exists.mp h
  rw [included, included, splitAtMatch_append rest hsplit, hsplit]

/-- The name of the member up to its array. -/
def owned (gap gap' : Bool) : Text := hooksPattern ++ (blank gap ++ ':' :: blank gap')

variable {left : Text} {mark : Char} {gap gap' : Bool}

theorem names_owned (gap gap' : Bool) : names (owned gap gap') = [owned gap gap'] := by
  revert gap gap'
  decide

/-- The member's own name is the last one before its array. -/
theorem names_lead (hmark : mark ∉ hooksPattern) :
    names (left ++ mark :: owned gap gap') =
      (names left).map (fun s => s ++ mark :: owned gap gap') ++ [owned gap gap'] := by
  rw [names, matchSuffixes_append_cons (by decide) hmark]
  exact congrArg _ (names_owned gap gap')

/-- The group of the array itself. -/
theorem bracketed_owned {shown : Text} (h : exec advance (outside 1) shown = some (outside 1)) :
    bracketed (owned gap gap' ++ '[' :: (shown ++ ']' :: after)) =
      owned gap gap' ++ '[' :: (shown ++ [']']) := by
  have hopen : exec advance (outside 0) (owned gap gap' ++ ['[']) = some (outside 1) := by
    revert gap gap'
    decide
  have hsplit : owned gap gap' ++ '[' :: (shown ++ ']' :: after) =
      (owned gap gap' ++ ['[']) ++ (shown ++ ']' :: after) := by
    simp
  rw [hsplit, bracketed]
  change bracketedFrom (outside 0) _ = _
  rw [bracketedFrom_append hopen, bracketedFrom_append h, bracketedFrom_cons]
  simp [advance, outside]

/-- A group that starts before the member is cut before it, or shows a second name. -/
theorem bracketed_left (hmark : mark ∉ hooksPattern) {s : Text} (hs : s ∈ names left)
    (gap gap' : Bool) :
    (∃ cut, ∀ rest, bracketed (s ++ mark :: owned gap gap' ++ rest) = cut) ∨
      ∀ rest, 2 ≤ (names (bracketed (s ++ mark :: owned gap gap' ++ rest))).length := by
  cases hwalk : exec advance (outside 0) (s ++ mark :: owned gap gap') with
  | none => exact .inl (bracketedFrom_closed hwalk)
  | some st =>
    refine .inr (fun rest => ?_)
    obtain ⟨more, rfl⟩ := prefix_of_mem_matchSuffixes hs
    have hopen : bracketed (hooksPattern ++ more ++ mark :: owned gap gap' ++ rest) =
        (hooksPattern ++ more) ++ mark :: (hooksPattern ++
          ((blank gap ++ ':' :: blank gap') ++ bracketedFrom st rest)) :=
      (bracketedFrom_append hwalk rest).trans (by simp [owned])
    rw [hopen, names, matchSuffixes_append_cons (by decide) hmark, matchSuffixes_self (by decide),
      matchSuffixes_self (by decide)]
    simp only [List.length_append, List.length_map, List.length_cons]
    omega

end Around

/-! ## Another array -/

/-- A member named hooks-libraries with an array for its value. -/
def isHookArray : List Lexeme → Bool
  | .string name :: .mark .colon :: .mark .openArray :: _ =>
    units name == hooksName.map Char.toNat
  | _ => false

/-- A JSON text with one hooks member that has an array, and the text with another array in
its place. -/
structure HookChange where
  before : List Lexeme
  old : List Lexeme
  new : List Lexeme
  after : List Lexeme
  oldValue : Value
  newValue : Value
  oldText : ∃ v, IsJson (before ++ (array old ++ after)) v
  newText : ∃ v, IsJson (before ++ (array new ++ after)) v
  oldArray : IsJson (array old) oldValue
  newArray : IsJson (array new) newValue
  member : ∃ front opener name, opener ∈ [Mark.comma, Mark.openObject] ∧
    tokens before = front ++ [.mark opener, .string name, .mark .colon] ∧
    units name = hooksName.map Char.toNat
  only : (tokens (before ++ (array old ++ after))).tails.countP isHookArray = 1

namespace HookChange

def previous (change : HookChange) : Text :=
  text (change.before ++ (array change.old ++ change.after))

def candidate (change : HookChange) : Text :=
  text (change.before ++ (array change.new ++ change.after))

/-- The normal form up to the array. -/
def lead (change : HookChange) : Text := shownBefore (text change.before)

/-- The normal form from the array on, with `inner` in it. -/
def tail (change : HookChange) (inner : List Lexeme) : Text :=
  '[' :: (shown (text inner) ++ ']' :: shownAfter (text change.after))

/-- The member's own name: the last one before the array. -/
def name (change : HookChange) : Text := (names change.lead).getLast?.getD []

/-- The names before the member's. -/
def earlier (change : HookChange) : List Text := (names change.lead).dropLast

/-- A scan from the member's name reads in the candidate what it has read in the previous text:
from that name, from an earlier one from which it reads something else now, or from a name that
the old array shows. -/
def Reread (change : HookChange) : Prop :=
  ReadAlike (change.name ++ change.tail change.old) (change.name ++ change.tail change.new) ∨
  (∃ s ∈ change.earlier, ¬ ReadAlike (s ++ change.tail change.old) (s ++ change.tail change.new) ∧
    ReadAlike (s ++ change.tail change.old) (change.name ++ change.tail change.new)) ∨
  ∃ s ∈ names (shown (text change.old)),
    ReadAlike (s ++ ']' :: shownAfter (text change.after)) (change.name ++ change.tail change.new)

instance (change : HookChange) : Decidable change.Reread := inferInstanceAs (Decidable (_ ∨ _ ∨ _))

/-- The new array shows more names or more includes than the old one, or a scan from the member's
name reads something new. -/
def Visible (change : HookChange) : Prop :=
  (names (shown (text change.old))).length < (names (shown (text change.new))).length ∨
  (includeStarts (shown (text change.old))).length <
    (includeStarts (shown (text change.new))).length ∨
  ¬ change.Reread

instance (change : HookChange) : Decidable change.Visible := inferInstanceAs (Decidable (_ ∨ _ ∨ _))

/-- Only the member's own name comes to the change: the earlier names and includes read as before,
and the new array shows none. -/
structure Alone (change : HookChange) : Prop where
  earlier : ∀ s ∈ change.earlier,
    ReadAlike (s ++ change.tail change.old) (s ++ change.tail change.new)
  included : ∀ s ∈ includeStarts change.lead, (splitAtMatch (lit "?>") s).isSome
  nameless : names (shown (text change.new)) = []
  plain : includeStarts (shown (text change.new)) = []

/-- Neither array escapes a quote or a backslash as a code unit, and the old one does not show
the name itself. -/
structure Plain (change : HookChange) : Prop where
  old : ∀ l ∈ change.old, PlainLexeme l
  new : ∀ l ∈ change.new, PlainLexeme l
  nameless : ¬ hooksPattern <:+: normalForm (text (array change.old))

end HookChange

theorem text_spaces {pad : List Lexeme} (h : ∀ l ∈ pad, l.isSpace = true) :
    ∀ c ∈ text pad, isSpace c = true := by
  intro c hc
  obtain ⟨l, hl, hin⟩ := List.mem_flatMap.mp hc
  cases l with
  | space d hd =>
    rw [mem_singleton.mp hin]
    exact hd
  | _ => cases h _ hl

variable (change : HookChange)

namespace HookChange

/-- The normal form up to the array ends with the member's name. -/
theorem lead_eq :
    ∃ left mark gap gap', mark ∉ hooksPattern ∧ change.lead = left ++ mark :: owned gap gap' := by
  obtain ⟨front, opener, name, hopener, htokens, hname⟩ := change.member
  obtain ⟨first, rest, hbefore, -, hrest⟩ := List.filter_eq_append_iff.mp htokens
  obtain ⟨pad₀, rest₁, rfl, -, -, hrest⟩ := List.filter_eq_cons_iff.mp hrest
  obtain ⟨pad₁, rest₂, rfl, hpad₁, -, hrest⟩ := List.filter_eq_cons_iff.mp hrest
  obtain ⟨pad₂, pad₃, rfl, hpad₂, -, hpad₃⟩ := List.filter_eq_cons_iff.mp hrest
  have hspaces : ∀ {pad : List Lexeme}, (∀ l ∈ pad, ¬ (!l.isSpace) = true) →
      ∀ c ∈ text pad, isSpace c = true := by
    intro pad h
    exact text_spaces (fun l hl => by simpa using h l hl)
  have htext : text change.before = text (first ++ pad₀) ++ opener.char ::
      (text pad₁ ++ '"' :: (content name ++ '"' :: (text pad₂ ++ ':' :: text pad₃))) := by
    rw [hbefore]
    simp [text, Lexeme.text, Mark.char]
  have hchar : opener.char ∈ [',', '\x7b'] := by
    simp only [List.mem_cons, List.not_mem_nil, or_false] at hopener
    rcases hopener with rfl | rfl
    all_goals decide
  obtain ⟨left, mark, hmark, hshown⟩ := shownBefore_member (text (first ++ pad₀)) hchar
    (hspaces hpad₁) (hspaces hpad₂) (hspaces (List.filter_eq_nil_iff.mp hpad₃)) hname
  exact ⟨left, mark, _, _, hmark, by rw [lead, htext, hshown]; rfl⟩

theorem names_lead_eq : names change.lead = change.earlier ++ [change.name] := by
  obtain ⟨left, mark, gap, gap', hmark, hlead⟩ := change.lead_eq
  rw [earlier, name, hlead, names_lead hmark, List.dropLast_concat, List.getLast?_concat]
  rfl

theorem normalForm_eq (inner : List Lexeme) :
    normalForm (text (change.before ++ (array inner ++ change.after))) =
      change.lead ++ change.tail inner := by
  have htext : text (change.before ++ (array inner ++ change.after)) =
      text change.before ++ '[' :: (text inner ++ ']' :: text change.after) := by
    rw [text_append, text_append, text_array]
    simp
  rw [htext, normalForm_around]
  rfl

/-- What the search finds: at the earlier names, at the member's, in the array and after it. -/
theorem groups_eq (inner : List Lexeme) :
    groups (change.lead ++ change.tail inner) =
      change.earlier.map (fun s => bracketed (s ++ change.tail inner)) ++
        bracketed (change.name ++ change.tail inner) ::
          ((names (shown (text inner))).map
              (fun s => bracketed (s ++ ']' :: shownAfter (text change.after))) ++
            groups (shownAfter (text change.after))) := by
  rw [groups, tail, names_around, names_lead_eq]
  simp only [List.map_append, List.map_cons, List.map_nil, List.map_map, List.append_assoc]
  rfl
end HookChange

theorem refused_iff (ls ls' : List Lexeme) :
    addsExecDirective "dhcp" (utf8 (text ls)) (utf8 (text ls')) = true ↔
      ¬ (found (normalForm (text ls')) : Multiset Text) ≤ found (normalForm (text ls)) := by
  have hkea : ∀ ls, execDirectives "dhcp" (text ls) = found (normalForm (text ls)) := by
    intro ls
    change dnsmasq (text ls) ++ kea (text ls) = _
    rw [dnsmasq_text, kea_eq]
    rfl
  rw [addsExecDirective, fromUtf8Lossy_utf8, fromUtf8Lossy_utf8, hkea, hkea]
  exact LineJoins.anyUnmatched_iff _ _

theorem refused_change :
    addsExecDirective "dhcp" (utf8 change.previous) (utf8 change.candidate) = true ↔
      ¬ (found (change.lead ++ change.tail change.new) : Multiset Text) ≤
        found (change.lead ++ change.tail change.old) := by
  rw [HookChange.previous, HookChange.candidate, refused_iff, change.normalForm_eq,
    change.normalForm_eq]

theorem refused_of_visible {change : HookChange} (h : change.Visible) :
    addsExecDirective "dhcp" (utf8 change.previous) (utf8 change.candidate) = true := by
  rw [refused_change]
  intro hle
  obtain ⟨hnames, hincludes⟩ := shows_le hle
  rw [HookChange.tail, HookChange.tail, names_around, names_around] at hnames
  rw [HookChange.tail, HookChange.tail, includeStarts_around, includeStarts_around] at hincludes
  simp only [List.length_append, List.length_map] at hnames hincludes
  rcases h with hmore | hmore | hnew
  · omega
  · omega
  · -- the new member's group is there once more than before
    have hcount := count_groups_le (v := bracketed (change.name ++ change.tail change.new)) hle
      (by rw [change.groups_eq]; simp)
    simp only [HookChange.Reread, not_or, not_exists, not_and, readAlike_iff] at hnew
    obtain ⟨hown, hearlier, hinside⟩ := hnew
    have hkept : (change.earlier.map fun s => bracketed (s ++ change.tail change.old)).count
        (bracketed (change.name ++ change.tail change.new)) ≤
          (change.earlier.map fun s => bracketed (s ++ change.tail change.new)).count
            (bracketed (change.name ++ change.tail change.new)) := by
      simp only [List.count_eq_countP, List.countP_map]
      refine List.countP_mono_left (fun s hs hsame => ?_)
      simp only [Function.comp, beq_iff_eq] at hsame ⊢
      by_contra hne
      refine hearlier s hs (fun heq => hne ?_) hsame
      rw [← heq, hsame]
    have hnone : ((names (shown (text change.old))).map
        (fun s => bracketed (s ++ ']' :: shownAfter (text change.after)))).count
          (bracketed (change.name ++ change.tail change.new)) = 0 := by
      refine List.count_eq_zero.mpr (fun hmem => ?_)
      obtain ⟨s, hs, hsame⟩ := mem_map.mp hmem
      exact hinside s hs hsame
    rw [change.groups_eq, change.groups_eq, count_append, count_append,
      List.count_cons_self, List.count_cons_of_ne hown, count_append, count_append,
      hnone] at hcount
    omega

/-- A change that only the member's own name comes to, and that reads as before, is not found. -/
theorem accepted_of_reread {change : HookChange} (halone : change.Alone) (h : change.Reread) :
    addsExecDirective "dhcp" (utf8 change.previous) (utf8 change.candidate) = false := by
  rw [← Bool.not_eq_true, refused_change, not_not]
  have hearlier : change.earlier.map (fun s => bracketed (s ++ change.tail change.new)) =
      change.earlier.map (fun s => bracketed (s ++ change.tail change.old)) :=
    List.map_congr_left (fun s hs => (readAlike_iff.mp (halone.earlier s hs)).symm)
  have hstarts : (includeStarts change.lead).map
      (fun s => included (s ++ change.tail change.new)) =
        (includeStarts change.lead).map (fun s => included (s ++ change.tail change.old)) := by
    refine List.map_congr_left (fun s hs => ?_)
    rw [included_append (halone.included s hs), included_append (halone.included s hs)]
  have hgroups : (groups (change.lead ++ change.tail change.new)).Sublist
      (groups (change.lead ++ change.tail change.old)) := by
    rw [change.groups_eq, change.groups_eq, hearlier, halone.nameless]
    refine (List.Sublist.refl _).append ?_
    rcases h with hown | ⟨s, hs, hchanged, -⟩ | ⟨s, hs, hinside⟩
    · rw [readAlike_iff.mp hown]
      exact (List.sublist_append_right _ _).cons_cons _
    · exact absurd (halone.earlier s hs) hchanged
    · refine .cons _ ?_
      rw [← readAlike_iff.mp hinside]
      have hmem := List.mem_map_of_mem
        (f := fun s => bracketed (s ++ ']' :: shownAfter (text change.after))) hs
      exact (List.singleton_sublist.mpr hmem).append (List.Sublist.refl _)
  have hincludes : (includes (change.lead ++ change.tail change.new)).Sublist
      (includes (change.lead ++ change.tail change.old)) := by
    simp only [includes, HookChange.tail, includeStarts_around, List.map_append, List.map_map,
      halone.plain]
    refine List.Sublist.append ?_ ((List.nil_sublist _).append (List.Sublist.refl _))
    change ((includeStarts change.lead).map
      (fun s => included (s ++ change.tail change.new))).Sublist _
    rw [hstarts]
    exact List.Sublist.refl _
  exact Multiset.coe_le.mpr (hgroups.append hincludes).subperm

/-- Between plain arrays every difference of the normal forms is visible. -/
theorem visible_of_plain {change : HookChange} (hplain : change.Plain)
    (hne : normalForm (text (array change.old)) ≠ normalForm (text (array change.new))) :
    change.Visible := by
  rw [text_array, text_array, normalForm_array, normalForm_array] at hne
  have hnone : names (shown (text change.old)) = [] := by
    rw [List.eq_nil_iff_forall_not_mem]
    intro s hs
    obtain ⟨hstart, hend⟩ := mem_matchSuffixesFrom 0 _ hs
    refine hplain.nameless ?_
    rw [text_array, normalForm_array]
    have hin := hstart.isInfix.trans hend.isInfix
    exact (hin.trans (List.prefix_append _ _).isInfix).trans (List.suffix_cons _ _).isInfix
  by_cases hnew : names (shown (text change.new)) = []
  · refine .inr (.inr ?_)
    obtain ⟨left, mark, gap, gap', hmark, hlead⟩ := change.lead_eq
    have hlist := change.names_lead_eq
    rw [hlead, names_lead hmark] at hlist
    obtain ⟨hearlier, hlast⟩ := List.append_inj' hlist rfl
    have hname : change.name = owned gap gap' := (List.head_eq_of_cons_eq hlast).symm
    have hold := scan_array change.oldArray hplain.old
    have hcandidate : bracketed (owned gap gap' ++ '[' :: (shown (text change.new) ++
        ']' :: shownAfter (text change.after))) = _ :=
      bracketed_owned (scan_array change.newArray hplain.new)
    have hone : (names (owned gap gap' ++ '[' :: (shown (text change.new) ++ [']']))).length = 1 := by
      rw [names_around, names_owned, hnew]
      rfl
    rintro (hsame | ⟨s, hs, hchanged, hsame⟩ | ⟨s, hs, -⟩)
    · rw [readAlike_iff, hname, HookChange.tail, HookChange.tail, hcandidate, bracketed_owned hold]
        at hsame
      have htail := (cons.inj (List.append_cancel_left hsame)).2
      exact hne (by rw [List.append_cancel_right htail])
    · rw [← hearlier] at hs
      obtain ⟨start, hstart, rfl⟩ := mem_map.mp hs
      rcases bracketed_left hmark hstart gap gap' with ⟨cut, hcut⟩ | htwo
      · exact hchanged (readAlike_iff.mpr (by rw [hcut, hcut]))
      · have hshows := htwo (change.tail change.old)
        rw [readAlike_iff.mp hsame, hname, HookChange.tail, hcandidate, hone] at hshows
        exact absurd hshows (by decide)
    · rw [hnone] at hs
      cases hs
  · left
    rw [hnone]
    exact List.length_pos_iff.mpr hnew

/-- **A changed hook library.** A change is refused if it is visible, and where only the member's
own name comes to it, exactly then. An array that differs only in white space runs, in letter case
or in how its unicode escapes are spelled passes; of arrays that escape no quote and no backslash,
the old one not naming the member again, every other change is refused. -/
theorem changed_hook_refused_iff (change : HookChange) :
    (change.Visible →
      addsExecDirective "dhcp" (utf8 change.previous) (utf8 change.candidate) = true) ∧
    (change.Alone →
      (addsExecDirective "dhcp" (utf8 change.previous) (utf8 change.candidate) = true ↔
        change.Visible)) ∧
    (normalForm (text (array change.old)) = normalForm (text (array change.new)) →
      addsExecDirective "dhcp" (utf8 change.previous) (utf8 change.candidate) = false) ∧
    (change.Plain →
      (addsExecDirective "dhcp" (utf8 change.previous) (utf8 change.candidate) = true ↔
        normalForm (text (array change.old)) ≠ normalForm (text (array change.new)))) := by
  have hsame : normalForm (text (array change.old)) = normalForm (text (array change.new)) →
      addsExecDirective "dhcp" (utf8 change.previous) (utf8 change.candidate) = false := by
    intro heq
    rw [text_array, text_array, normalForm_array, normalForm_array] at heq
    have hshown := List.append_cancel_right (cons.inj heq).2
    rw [← Bool.not_eq_true, refused_change, HookChange.tail, HookChange.tail, hshown, not_not]
  refine ⟨refused_of_visible, fun halone => ⟨?_, refused_of_visible⟩, hsame, fun hplain => ⟨?_, ?_⟩⟩
  · intro hrefused
    refine .inr (.inr (fun hreread => ?_))
    rw [accepted_of_reread halone hreread] at hrefused
    cases hrefused
  · intro hrefused heq
    rw [hsame heq] at hrefused
    cases hrefused
  · exact fun hne => refused_of_visible (visible_of_plain hplain hne)

/-- The characters of a string, none of them escaped. -/
def raws (s : Text) : List Item :=
  s.filterMap (fun c =>
    if h : 32 ≤ c.toNat ∧ c ≠ '"' ∧ c ≠ '\\' then some (.raw c h) else none)

/-- An object with one hook library, changed from `old` to `new`. -/
def oneLibrary (old new : Text) : HookChange where
  before := [.mark .openObject, .string (raws hooksName), .mark .colon]
  old := [.string (raws old)]
  new := [.string (raws new)]
  after := [.mark .closeObject]
  oldValue := .array [.string (units (raws old))]
  newValue := .array [.string (units (raws new))]
  oldText := ⟨_, .object (.last _ (.array (.last (.string _))))⟩
  newText := ⟨_, .object (.last _ (.array (.last (.string _))))⟩
  oldArray := .array (.last (.string _))
  newArray := .array (.last (.string _))
  member := ⟨[], .openObject, raws hooksName, by decide, rfl, by decide⟩
  only := rfl

/-- The new library's path is written with an escaped backslash. -/
def escapedLibrary : HookChange :=
  { oneLibrary (lit "/a") [] with
    new := [.string (raws (lit "/b") ++ .unit (lit "005c") (by decide) :: raws (lit "/c"))]
    newValue := .array [.string (units (raws (lit "/b") ++
      .unit (lit "005c") (by decide) :: raws (lit "/c")))]
    newText := ⟨_, .object (.last _ (.array (.last (.string _))))⟩
    newArray := .array (.last (.string _)) }

/-- The old array names the member itself. -/
def namedLibrary : HookChange :=
  { oneLibrary [] (lit "/b") with
    old := [.string (raws hooksName), .mark .comma, .string (raws (lit "/a"))]
    oldValue := .array [.string (units (raws hooksName)), .string (units (raws (lit "/a")))]
    oldText := ⟨_, .object (.last _ (.array (.more (.string _) (.last (.string _)))))⟩
    oldArray := .array (.more (.string _) (.last (.string _)))
    only := rfl }

theorem renamed_library_refused :
    addsExecDirective "dhcp" (utf8 (oneLibrary (lit "/a") (lit "/b")).previous)
        (utf8 (oneLibrary (lit "/a") (lit "/b")).candidate) = true ∧
      addsExecDirective "dhcp" (utf8 escapedLibrary.previous) (utf8 escapedLibrary.candidate) =
        true ∧
      addsExecDirective "dhcp" (utf8 namedLibrary.previous) (utf8 namedLibrary.candidate) = true := by
  have hraws : ∀ s : Text, ∀ item ∈ raws s, PlainItem item := by
    intro s item hitem
    obtain ⟨c, -, hc⟩ := List.mem_filterMap.mp hitem
    split at hc
    · obtain rfl := Option.some.inj hc
      trivial
    · cases hc
  have hplain : (oneLibrary (lit "/a") (lit "/b")).Plain := by
    refine ⟨?_, ?_, ?_⟩
    · intro l hl
      obtain rfl := mem_singleton.mp hl
      exact hraws _
    · intro l hl
      obtain rfl := mem_singleton.mp hl
      exact hraws _
    · decide
  have halone : escapedLibrary.Alone := by
    refine ⟨?_, ?_, ?_, ?_⟩
    all_goals decide +kernel
  refine ⟨?_, ?_, ?_⟩
  · exact ((changed_hook_refused_iff (oneLibrary (lit "/a") (lit "/b"))).2.2.2 hplain).mpr (by decide)
  · exact ((changed_hook_refused_iff escapedLibrary).2.1 halone).mpr (by decide +kernel)
  · exact (changed_hook_refused_iff namedLibrary).1 (by decide +kernel)

/-- Two libraries whose paths differ in one letter's case. -/
theorem other_case_not_seen :
    ¬ ∀ change : HookChange, change.oldValue ≠ change.newValue →
      addsExecDirective "dhcp" (utf8 change.previous) (utf8 change.candidate) = true := by
  intro hall
  have hne : (oneLibrary (lit "/a") (lit "/A")).oldValue ≠
      (oneLibrary (lit "/a") (lit "/A")).newValue := by
    have hunits : units (raws (lit "/a")) ≠ units (raws (lit "/A")) := by decide
    intro h
    have hlist := Value.array.inj h
    exact hunits (Value.string.inj (cons.inj hlist).1)
  have hrefused := hall (oneLibrary (lit "/a") (lit "/A")) hne
  revert hrefused
  decide +kernel

end Detent.Guarantees.KeaHooks
