import Detent.Guarantees.NetplanReading
import Detent.Guarantees.NetworkSyntax

/-!
# Netplan lines with and without a comment

A line `key: value` or `- value` is read as a netplan key, as a list item or not at all, and
a comment at its end does not change which. It only becomes a part of the value.
-/
namespace Detent.Guarantees.NetplanLines
open Lib Lib.Text Source.Network
open Source.Doc hiding parse
open NetplanReading NetworkSyntax DocShape
open List (append_assoc cons_append count_append exists_cons_of_ne_nil)

/-- A text with a comment at its end. -/
def mark (value comment : Text) : Text := value ++ ' ' :: '#' :: ' ' :: comment

/-- A key that is no comment sign, list sign or flow sequence, in one word. -/
structure PlainKey (key : Text) : Prop where
  nonempty : key ≠ []
  plain : ∀ c ∈ key, isWhitespace c = false ∧ c ≠ ':' ∧ c ≠ '=' ∧ c ≠ '['

/-- A value that a comment may follow: not empty, without quotes and `#`, on one line. -/
structure PlainValue (value : Text) : Prop where
  nonempty : trim value ≠ []
  plain : ∀ c ∈ value, c ≠ '#' ∧ c ≠ '"' ∧ c ≠ '\'' ∧ c ≠ '\n' ∧ c ≠ '\r'

/-- `key: value` or `- value`; `word` is the key with its colon, or the sign. -/
inductive Commentable : Text → Prop
  | kv {pad key value : Text} (hpad : ∀ c ∈ pad, c = ' ') (hkey : PlainKey key)
      (hvalue : PlainValue value) : Commentable (pad ++ (key ++ [':']) ++ ' ' :: value)
  | item {pad value : Text} (hpad : ∀ c ∈ pad, c = ' ') (hvalue : PlainValue value) :
      Commentable (pad ++ ['-'] ++ ' ' :: value)

/-- A comment stays on its line. -/
def OneLine (comment : Text) : Prop := '\n' ∉ comment ∧ '\r' ∉ comment

section Values

theorem count_space {space : Text} (h : ∀ c ∈ space, isWhitespace c = true) : space.count '#' = 0 := by
  rw [List.count_eq_zero]
  intro hmem
  exact absurd (h '#' hmem) (by decide)

theorem count_trimEnd (t : Text) : (trimEnd t).count '#' = t.count '#' := by
  obtain ⟨space, hspace, hall⟩ := trimEnd_append t
  conv_rhs => rw [hspace]
  rw [count_append, count_space hall, Nat.add_zero]

theorem count_trim (t : Text) : (trim t).count '#' = t.count '#' := by
  have hstart : t = t.takeWhile isWhitespace ++ trimStart t := List.takeWhile_append_dropWhile.symm
  rw [trim, count_trimEnd]
  conv_rhs => rw [hstart]
  rw [count_append, count_space (fun c hc => List.mem_takeWhile_imp hc), Nat.zero_add]

theorem trimStart_append {t : Text} (h : trim t ≠ []) (rest : Text) :
    trimStart (t ++ rest) = trimStart t ++ rest := by
  have hne : t.dropWhile isWhitespace ≠ [] := by
    intro hnil
    exact h (by rw [trim, trimStart, hnil]; rfl)
  rw [trimStart, List.dropWhile_append, if_neg (by simpa using hne)]
  rfl

/-- A comment leaves the value in place and adds to it. -/
theorem trim_mark {value : Text} (h : trim value ≠ []) (comment : Text) :
    ∃ tail, trim (mark value comment) = trim value ++ tail ∧ startsWithSpace tail = true ∧
      tail.count '#' = 1 + comment.count '#' := by
  obtain ⟨space, hspace, hall⟩ := trimEnd_append (trimStart value)
  refine ⟨space ++ ' ' :: '#' :: trimEnd (' ' :: comment), ?_, ?_, ?_⟩
  · have happend : trimStart value ++ ' ' :: '#' :: ' ' :: comment =
        (trimStart value ++ [' ']) ++ '#' :: (' ' :: comment) := by simp
    rw [trim, mark, trimStart_append h, happend, trimEnd_append_cons _ _ (by decide)]
    conv_lhs => rw [hspace]
    simp [trim]
  · cases space with
    | nil => exact (by decide : isWhitespace ' ' = true)
    | cons c space => exact hall c List.mem_cons_self
  · rw [count_append, count_space hall, List.count_cons_of_ne (by decide), List.count_cons_self,
      count_trimEnd, List.count_cons_of_ne (by decide)]
    omega

end Values

section Parsers

variable {pad key value : Text}

theorem indentOf_pad (hpad : ∀ c ∈ pad, c = ' ') {c : Char} (hc : c ≠ ' ' ∧ c ≠ '\t') (rest : Text) :
    indentOf (pad ++ c :: rest) = pad.length := by
  have htake : (pad ++ c :: rest).takeWhile (fun c => c == ' ' || c == '\t') = pad := by
    rw [List.takeWhile_append_of_pos (by
      intro d hd
      rw [hpad d hd]
      decide)]
    simp [hc]
  have hmap : pad.map (fun c => if c = '\t' then 2 else 1) = List.replicate pad.length 1 := by
    rw [List.eq_replicate_iff, List.length_map]
    refine ⟨rfl, fun n hn => ?_⟩
    obtain ⟨d, hd, rfl⟩ := List.mem_map.mp hn
    rw [hpad d hd]
    decide
  rw [indentOf, htake, hmap, List.sum_replicate, Nat.nsmul_eq_mul, Nat.mul_one]

/-- A key that the reader takes with a value. -/
def accepted (key : Text) : Bool :=
  !isCommentStart key && key.head? != some '-' && !key.any (· == '/') && knownLeaves.contains key

variable (hpad : ∀ c ∈ pad, c = ' ')
include hpad

theorem trim_kv (hkey : PlainKey key) (value : Text) :
    trim (pad ++ (key ++ [':']) ++ ' ' :: value) = key ++ ':' :: trimEnd (' ' :: value) := by
  have hspace : ∀ c ∈ pad, isWhitespace c = true := by
    intro c hc
    rw [hpad c hc]
    decide
  have hword : ∀ c ∈ key ++ [':'], isWhitespace c = false := by
    intro c hc
    rcases List.mem_append.mp hc with hc | hc
    · exact (hkey.plain c hc).1
    · rw [List.mem_singleton.mp hc]
      decide
  rw [append_assoc, trim_pad _ hspace, trim_word _ (by simp) hword]
  simp

omit hpad in
theorem isCommentStart_word {word : Text} (hne : word ≠ []) (h : ∀ c ∈ word, isWhitespace c = false)
    (rest : Text) : isCommentStart (word ++ rest) = isCommentStart word := by
  obtain ⟨c, tail, rfl⟩ := exists_cons_of_ne_nil hne
  have hc := h c List.mem_cons_self
  rw [isCommentStart, isCommentStart, cons_append, trimStart_cons _ hc, trimStart_cons _ hc]

omit hpad in
theorem parseNetplanKv_kv (hpad : ∀ c ∈ pad, c = ' ') (hkey : PlainKey key) (h : trim value ≠ []) :
    parseNetplanKv (pad ++ (key ++ [':']) ++ ' ' :: value) =
      if accepted key && !isOpaque (trim value) then some (pad.length, key, trim value) else none := by
  have hspace : ∀ c ∈ key, isWhitespace c = false := fun c hc => (hkey.plain c hc).1
  have hsplit : splitOnceP (· == ':') (key ++ ':' :: trimEnd (' ' :: value)) =
      some (key, trimEnd (' ' :: value)) :=
    splitOnceP_append _ (by
      intro c hc
      simpa using (hkey.plain c hc).2.1) (by decide)
  have hvalue : trim (trimEnd (' ' :: value)) = trim value := by
    rw [trim_trimEnd, trim_cons_whitespace _ (by decide)]
  have hany : key.any isWhitespace = false := by
    rw [List.any_eq_false]
    intro c hc
    simp [hspace c hc]
  have hindent : indentOf (pad ++ (key ++ [':']) ++ ' ' :: value) = pad.length := by
    obtain ⟨c, tail, hcons⟩ := exists_cons_of_ne_nil hkey.nonempty
    have hc := hspace c (hcons ▸ List.mem_cons_self)
    rw [hcons, append_assoc]
    refine indentOf_pad hpad ⟨?_, ?_⟩ _
    all_goals
      rintro rfl
      cases hc
  have hhead : (key ++ ':' :: trimEnd (' ' :: value)).head? = key.head? :=
    List.head?_append_of_ne_nil _ hkey.nonempty
  have hempty : (key ++ ':' :: trimEnd (' ' :: value)).isEmpty = false := by simp
  unfold parseNetplanKv
  rw [trim_kv hpad hkey]
  dsimp only
  rw [isCommentStart_word hkey.nonempty hspace, hhead, hempty, hsplit, hindent]
  dsimp only
  rw [hvalue, trim_eq_self_of_all hspace, hany]
  have hne : key.isEmpty = false := by simpa using hkey.nonempty
  have hvalueNe : (trim value).isEmpty = false := by simpa using h
  rw [hne, hvalueNe]
  unfold accepted
  cases isCommentStart key <;> cases hminus : key.head? == some '-' <;>
    cases key.any (· == '/') <;> cases knownLeaves.contains key <;> cases isOpaque (trim value) <;>
    simp_all

/-- No list sign starts a line with a key. -/
theorem parseNetplanListItem_kv (hkey : PlainKey key) (value : Text) :
    parseNetplanListItem (pad ++ (key ++ [':']) ++ ' ' :: value) = none := by
  have hstart : ¬ "- ".toList <+: key ++ ':' :: trimEnd (' ' :: value) := by
    intro hprefix
    obtain ⟨c, tail, hcons⟩ := exists_cons_of_ne_nil hkey.nonempty
    cases tail with
    | nil =>
      rw [hcons] at hprefix
      exact absurd hprefix (by simp)
    | cons d tail =>
      rw [hcons] at hprefix
      have hd := (hkey.plain d (by simp [hcons])).1
      have hsign : "- ".toList = ['-', ' '] := rfl
      rw [hsign, cons_append, cons_append] at hprefix
      rw [← (List.cons_prefix_cons.mp (List.cons_prefix_cons.mp hprefix).2).1] at hd
      exact absurd hd (by decide)
  have hsign : key ++ ':' :: trimEnd (' ' :: value) ≠ ['-'] := by
    intro hsame
    have hmem : ':' ∈ key ++ ':' :: trimEnd (' ' :: value) := by simp
    rw [hsame] at hmem
    exact absurd hmem (by decide)
  have hcond : (!startsWith "- ".toList (key ++ ':' :: trimEnd (' ' :: value))) = true := by
    rw [startsWith, Bool.not_eq_true', ← Bool.not_eq_true, List.isPrefixOf_iff_prefix]
    exact hstart
  unfold parseNetplanListItem
  rw [trim_kv hpad hkey]
  dsimp only
  rw [if_pos (Bool.and_eq_true_iff.mpr ⟨hcond, decide_eq_true hsign⟩)]

theorem trim_item (h : trim value ≠ []) :
    trim (pad ++ ['-'] ++ ' ' :: value) = "- ".toList ++ trimEnd value := by
  have hspace : ∀ c ∈ pad, isWhitespace c = true := by
    intro c hc
    rw [hpad c hc]
    decide
  have hend : trimEnd (' ' :: value) = ' ' :: trimEnd value := by
    obtain ⟨c, hc, hcspace⟩ : ∃ c ∈ value, isWhitespace c = false := by
      by_contra hall
      push Not at hall
      apply h
      have hblank : ∀ c ∈ value, isWhitespace c = true := fun c hc => by simpa using hall c hc
      rw [← List.nil_append value, trim_append_spaces [] value hblank]
      rfl
    obtain ⟨before, after, rfl⟩ := List.append_of_mem hc
    rw [← cons_append, trimEnd_append_cons _ _ hcspace, trimEnd_append_cons _ _ hcspace]
    rfl
  rw [append_assoc, trim_pad _ hspace, trim_word _ (by simp) (by decide), hend]
  rfl

theorem parseNetplanKv_item (h : trim value ≠ []) :
    parseNetplanKv (pad ++ ['-'] ++ ' ' :: value) = none := by
  unfold parseNetplanKv
  rw [trim_item hpad h]
  rfl

theorem parseNetplanListItem_item (h : trim value ≠ []) :
    parseNetplanListItem (pad ++ ['-'] ++ ' ' :: value) =
      if isOpaque (trim value) then none else some (pad.length, trim value) := by
  have hstart : startsWith "- ".toList ("- ".toList ++ trimEnd value) = true := by
    rw [startsWith, List.isPrefixOf_iff_prefix]
    exact List.prefix_append _ _
  have hindent : indentOf (pad ++ ['-'] ++ ' ' :: value) = pad.length := by
    rw [append_assoc]
    exact indentOf_pad hpad (by decide) _
  unfold parseNetplanListItem
  rw [trim_item hpad h]
  dsimp only
  rw [hstart, stripStart_append, Option.getD_some, trim_trimEnd, hindent, if_neg (by simp)]

omit hpad

end Parsers

section Unread

/-- No key of the INI formats has the shape of a netplan word. -/
theorem ini_word {word : Text} (hword : NetplanWord word) (builder : Builder) (value : Text) :
    builder.ini word value = builder := by
  have hkeys : ∀ other ∈ ["id", "Name", "DHCP", "Address", "Gateway", "DNS", "Destination", "VLAN", "Id",
      "method", "addresses", "gateway", "dns"].map String.toList, word ≠ other := by
    have hplain : ∀ other ∈ ["id", "Name", "DHCP", "Address", "Gateway", "DNS", "Destination", "VLAN",
        "Id", "method", "addresses", "gateway", "dns"].map String.toList, ¬ NetplanWord other := by
      unfold NetplanWord
      decide
    rintro other hother rfl
    exact hplain word hother hword
  simp only [List.map_cons, List.map_nil, List.forall_mem_cons, List.not_mem_nil, false_imp_iff,
    implies_true, and_true] at hkeys
  obtain ⟨hid, hname, hdhcp, haddress, hgateway, hdns, hdestination, hvlan, hId, hmethod, haddresses,
    hnmGateway, hnmDns⟩ := hkeys
  unfold Builder.ini
  rw [if_neg (by simp only [hid, hname, false_and, and_false, or_self, not_false_eq_true])]
  have hnone : ∀ iface : Interface,
      iniKey builder.currentSection iface.name word value iface = iface := by
    intro iface
    unfold iniKey
    simp only [hdhcp, haddress, hgateway, hdns, hdestination, hvlan, hId, hmethod, haddresses, hnmGateway,
      hnmDns, false_and, if_false]
  simp only [hnone, hgateway, false_and, if_false]
  exact update_id builder _

/-- An equals sign further on makes the word a key, and no other text. -/
theorem parseKvEquals_word {pad word : Text} (hpad : ∀ c ∈ pad, isWhitespace c = true)
    (hspace : ∀ c ∈ word, isWhitespace c = false) (hne : word ≠ []) (hequals : '=' ∉ word) (rest : Text) :
    parseKvEquals (pad ++ word ++ ' ' :: rest) = none ∨
      ∃ value, parseKvEquals (pad ++ word ++ ' ' :: rest) = some (word, value) := by
  have htrim : trim (pad ++ word ++ ' ' :: rest) = word ++ trimEnd (' ' :: rest) := by
    rw [append_assoc, trim_pad _ hpad, trim_word _ hne hspace]
  unfold parseKvEquals
  rw [htrim]
  dsimp only
  split_ifs with hcond
  · exact .inl rfl
  · cases hsplit : splitOnceP (· == '=') (word ++ trimEnd (' ' :: rest)) with
    | none => exact .inl rfl
    | some pair =>
      obtain ⟨key, value⟩ := pair
      dsimp only
      split_ifs with hkey
      · exact .inl rfl
      · refine .inr ⟨trim value, ?_⟩
        obtain ⟨c, hc, hline, hfree⟩ := splitOnceP_some hsplit
        obtain rfl : c = '=' := by simpa using hc
        -- The sign stands after the word, which has none.
        have hword : word <+: key := by
          rcases List.prefix_or_prefix_of_prefix (List.prefix_append word _)
            (hline ▸ List.prefix_append key ('=' :: value)) with hprefix | hprefix
          · exact hprefix
          · obtain ⟨tail, rfl⟩ := hprefix
            cases tail with
            | nil => simp
            | cons d tail =>
              rw [append_assoc, List.append_cancel_left_eq, cons_append] at hline
              rw [(List.cons.inj hline).1] at hequals
              simp at hequals
        obtain ⟨tail, rfl⟩ := hword
        have htail : tail = [] ∨ startsWithSpace tail = true := by
          cases tail with
          | nil => exact .inl rfl
          | cons d tail =>
            rw [append_assoc, List.append_cancel_left_eq, cons_append] at hline
            rcases startsWithSpace_trimEnd (.inr rfl : ' ' :: rest = [] ∨
              startsWithSpace (' ' :: rest) = true) with hnil | hstart
            · rw [hnil] at hline
              cases hline
            · rw [hline] at hstart
              exact .inr hstart
        rw [trim_word _ hne hspace] at hkey ⊢
        rcases startsWithSpace_trimEnd htail with hnil | hstart
        · rw [hnil, List.append_nil]
        · cases hcons : trimEnd tail with
          | nil => rw [List.append_nil]
          | cons d more =>
            rw [hcons] at hstart hkey
            have hd : isWhitespace d = true := hstart
            exact absurd hkey (by simp [hd])

/-- A line of neither netplan shape leaves everything as it is. -/
theorem step_foreign {pad word : Text} (hpad : ∀ c ∈ pad, c = ' ')
    (hspace : ∀ c ∈ word, isWhitespace c = false) (hword : NetplanWord word)
    (hhead : word.head? ≠ some '[') (hequals : '=' ∉ word) {rest : Text}
    (hkv : parseNetplanKv (pad ++ word ++ ' ' :: rest) = none)
    (hitem : parseNetplanListItem (pad ++ word ++ ' ' :: rest) = none) (builder : Builder) (row : Nat)
    (next : Option Text) : builder.step row (pad ++ word ++ ' ' :: rest) next = builder := by
  have hpadSpace : ∀ c ∈ pad, isWhitespace c = true := by
    intro c hc
    rw [hpad c hc]
    decide
  have hne : word ≠ [] := by
    rcases hword with hmem | rfl
    · exact List.ne_nil_of_mem hmem
    · simp
  obtain ⟨hsection, hauto, hiface, hoption⟩ :=
    netplan_foreign hpadSpace hspace hword hhead (.inr rfl : ' ' :: rest = [] ∨ _)
  unfold Builder.step
  rw [hkv, hitem, hsection, hauto, hiface, hoption]
  dsimp only
  rcases parseKvEquals_word hpadSpace hspace hne hequals rest with hnone | ⟨value, hsome⟩
  · rw [hnone]
  · rw [hsome]
    exact ini_word hword builder value

end Unread

theorem trim_mark_ne {value : Text} (h : trim value ≠ []) (comment : Text) :
    trim (mark value comment) ≠ [] := by
  obtain ⟨tail, htail, -⟩ := trim_mark h comment
  rw [htail]
  simp [h]

theorem isOpaque_mark {value : Text} (h : trim value ≠ []) (comment : Text) :
    isOpaque (trim (mark value comment)) = isOpaque (trim value) := by
  obtain ⟨tail, htail, -⟩ := trim_mark h comment
  obtain ⟨c, rest, hcons⟩ := exists_cons_of_ne_nil h
  rw [htail, hcons]
  rfl

/-- How a line is read, and how it is read with any comment. -/
inductive Reading (line : Text) : Prop
  | kv (indent : Nat) (key value : Text) (hvalue : PlainValue value)
      (hline : parseNetplanKv line = some (indent, key, trim value))
      (hmark : ∀ comment, parseNetplanKv (mark line comment) =
        some (indent, key, trim (mark value comment)))
  | item (indent : Nat) (value : Text) (hvalue : PlainValue value) (hkv : parseNetplanKv line = none)
      (hmarkKv : ∀ comment, parseNetplanKv (mark line comment) = none)
      (hline : parseNetplanListItem line = some (indent, trim value))
      (hmark : ∀ comment, parseNetplanListItem (mark line comment) =
        some (indent, trim (mark value comment)))
  | foreign (hkv : parseNetplanKv line = none) (hitem : parseNetplanListItem line = none)
      (hmarkKv : ∀ comment, parseNetplanKv (mark line comment) = none)
      (hline : ∀ builder row next, Builder.step builder row line next = builder)
      (hmark : ∀ comment builder row next, Builder.step builder row (mark line comment) next = builder)

theorem reading {line : Text} (h : Commentable line) : Reading line := by
  cases h with
  | @kv pad key value hpad hkey hvalue =>
    have hmark (comment : Text) : mark (pad ++ (key ++ [':']) ++ ' ' :: value) comment =
        pad ++ (key ++ [':']) ++ ' ' :: mark value comment := by simp [mark]
    have hline := parseNetplanKv_kv hpad hkey hvalue.nonempty
    have hkv (comment : Text) := parseNetplanKv_kv hpad hkey (trim_mark_ne hvalue.nonempty comment)
    simp only [isOpaque_mark hvalue.nonempty] at hkv
    by_cases hread : (accepted key && !isOpaque (trim value)) = true
    · rw [if_pos hread] at hline
      simp only [if_pos hread] at hkv
      exact .kv pad.length key value hvalue hline (fun comment => by rw [hmark, hkv])
    · rw [if_neg hread] at hline
      simp only [if_neg hread] at hkv
      have hspace : ∀ c ∈ key ++ [':'], isWhitespace c = false := by
        intro c hc
        rcases List.mem_append.mp hc with hc | hc
        · exact (hkey.plain c hc).1
        · rw [List.mem_singleton.mp hc]
          decide
      have hhead : (key ++ [':']).head? ≠ some '[' := by
        rw [List.head?_append_of_ne_nil _ hkey.nonempty]
        intro hbracket
        exact (hkey.plain '[' (List.mem_of_mem_head? hbracket)).2.2.2 rfl
      have hequals : '=' ∉ key ++ [':'] := by
        intro hmem
        rcases List.mem_append.mp hmem with hmem | hmem
        · exact (hkey.plain '=' hmem).2.2.1 rfl
        · exact absurd hmem (by decide)
      have hforeign (value : Text) :=
        @step_foreign pad (key ++ [':']) hpad hspace (.inl (by simp)) hhead hequals value
      refine .foreign hline (parseNetplanListItem_kv hpad hkey _) (fun comment => by rw [hmark, hkv])
        (hforeign value hline (parseNetplanListItem_kv hpad hkey _)) (fun comment => ?_)
      rw [hmark]
      exact hforeign _ (hkv comment) (parseNetplanListItem_kv hpad hkey _)
  | @item pad value hpad hvalue =>
    have hmark (comment : Text) : mark (pad ++ ['-'] ++ ' ' :: value) comment =
        pad ++ ['-'] ++ ' ' :: mark value comment := by simp [mark]
    have hkv := parseNetplanKv_item hpad hvalue.nonempty
    have hmarkKv (comment : Text) := parseNetplanKv_item hpad (trim_mark_ne hvalue.nonempty comment)
    have hline := parseNetplanListItem_item hpad hvalue.nonempty
    have hitem (comment : Text) := parseNetplanListItem_item hpad (trim_mark_ne hvalue.nonempty comment)
    simp only [isOpaque_mark hvalue.nonempty] at hitem
    by_cases hread : isOpaque (trim value) = true
    · rw [if_pos hread] at hline
      simp only [if_pos hread] at hitem
      refine .foreign hkv hline (fun comment => by rw [hmark, hmarkKv])
        (step_foreign hpad (by decide) (.inr rfl) (by decide) (by decide) hkv hline) (fun comment => ?_)
      rw [hmark]
      exact step_foreign hpad (by decide) (.inr rfl) (by decide) (by decide) (hmarkKv comment) (hitem comment)
    · rw [if_neg hread] at hline
      simp only [if_neg hread] at hitem
      exact .item pad.length value hvalue hkv (fun comment => by rw [hmark, hmarkKv]) hline
        (fun comment => by rw [hmark, hitem])

section Lists

/-- The number signs in a list of values. -/
def hashes (list : List Text) : Nat := list.flatten.count '#'

theorem count_dropWhile {p : Char → Bool} (hp : p '#' = false) (t : Text) :
    (t.dropWhile p).count '#' = t.count '#' := by
  have hnone : (t.takeWhile p).count '#' = 0 := by
    rw [List.count_eq_zero]
    intro hmem
    have htrue : p '#' = true := List.mem_takeWhile_imp hmem
    rw [hp] at htrue
    cases htrue
  conv_rhs => rw [← @List.takeWhile_append_dropWhile _ p t]
  rw [count_append, hnone, Nat.zero_add]

theorem count_trimMatches {c : Char} (hc : c ≠ '#') (t : Text) :
    (trimMatches c t).count '#' = t.count '#' := by
  have hp : ('#' == c) = false := by simpa using hc.symm
  rw [trimMatches, List.rdropWhile, List.count_reverse, @count_dropWhile (· == c) hp, List.count_reverse,
    @count_dropWhile (· == c) hp]

theorem hashes_cons (value : Text) (list : List Text) :
    hashes (value :: list) = value.count '#' + hashes list := by
  simp [hashes]

theorem hashes_map {f : Text → Text} (hf : ∀ t, (f t).count '#' = t.count '#') (list : List Text) :
    hashes (list.map f) = hashes list := by
  induction list with
  | nil => rfl
  | cons value list ih => rw [List.map_cons, hashes_cons, hashes_cons, hf, ih]

theorem hashes_filter (list : List Text) : hashes (list.filter (!·.isEmpty)) = hashes list := by
  induction list with
  | nil => rfl
  | cons value list ih =>
    cases value with
    | nil => simpa [hashes] using ih
    | cons c value =>
      rw [List.filter_cons_of_pos (by simp), hashes_cons, hashes_cons, ih]

theorem hashes_splitOn (t : Text) : hashes (t.splitOn ',') = t.count '#' := by
  induction t with
  | nil => rfl
  | cons c t ih =>
    rw [List.splitOn_cons_eq_if_modifyHead]
    split
    next hc =>
      rw [hashes_cons, ih, List.count_nil, Nat.zero_add, List.count_cons_of_ne]
      rintro rfl
      cases hc
    next =>
      obtain ⟨head, tail, hsplit⟩ := exists_cons_of_ne_nil (List.splitOn_ne_nil ',' t)
      rw [hsplit, hashes_cons] at ih
      rw [hsplit, List.modifyHead_cons, hashes_cons, List.count_cons, List.count_cons, ← ih]
      omega

/-- An inline list holds every number sign of its text. -/
theorem hashes_inline {value : Text} {list : List Text} (h : parseInlineList value = some list) :
    hashes list = value.count '#' := by
  unfold parseInlineList at h
  split at h
  next rest hrest =>
    split at h
    next inner hinner =>
      have hvalue : value.count '#' = inner.count '#' := by
        rw [← count_trim value, hrest, stripLast_eq_some hinner, List.count_cons_of_ne (by decide),
          count_append, List.count_singleton]
        rfl
      rw [hvalue]
      split_ifs at h with hempty
      · obtain rfl := Option.some.inj h
        rw [← count_trim inner, List.isEmpty_iff.mp hempty]
        rfl
      · obtain rfl := Option.some.inj h
        rw [hashes_filter, hashes_map, hashes_splitOn]
        intro part
        rw [count_trimMatches (by decide), count_trimMatches (by decide), count_trim]
    next => cases h
  next => cases h

/-- Behind an opening bracket, a comment that ends in a closing one makes a list. -/
theorem inline_mark {value comment : Text} (h : (trim value).head? = some '[') :
    ∃ list, parseInlineList (trim (mark value (comment ++ [']']))) = some list := by
  have hne : trim value ≠ [] := by
    intro hnil
    rw [hnil] at h
    cases h
  obtain ⟨tail, htail, hstart, hcount⟩ := trim_mark hne (comment ++ [']'])
  obtain ⟨rest, hrest⟩ : ∃ rest, trim value = '[' :: rest := by
    obtain ⟨c, rest, hcons⟩ := exists_cons_of_ne_nil hne
    rw [hcons] at h
    obtain rfl : c = '[' := Option.some.inj h
    exact ⟨rest, hcons⟩
  have hlast : (trim (mark value (comment ++ [']']))).getLast? = some ']' := by
    have hmark : mark value (comment ++ [']']) = (value ++ ' ' :: '#' :: ' ' :: comment) ++ [']'] := by
      simp [mark]
    rw [hmark]
    exact getLast?_trim List.getLast?_concat (by decide)
  obtain ⟨inner, hinner⟩ : ∃ inner, trim (mark value (comment ++ [']'])) = '[' :: (inner ++ [']']) := by
    rw [htail, hrest, cons_append] at hlast ⊢
    obtain ⟨init, hinit⟩ := List.getLast?_eq_some_iff.mp hlast
    cases init with
    | nil => cases hinit
    | cons c init =>
      rw [cons_append] at hinit
      exact ⟨init, by rw [(List.cons.inj hinit).2]⟩
  unfold parseInlineList
  rw [trim_idem, hinner]
  simp only [stripLast_append]
  split_ifs
  all_goals exact ⟨_, rfl⟩

theorem inline_none {value : Text} (h : (trim value).head? ≠ some '[') : parseInlineList value = none := by
  unfold parseInlineList
  split
  next rest hrest =>
    rw [hrest] at h
    exact absurd rfl h
  next => rfl

theorem parseU16_hash {value : Text} (h : '#' ∈ value) : IpAddr.parseU16 value = none := by
  have hany : ∀ digits : Text, '#' ∈ digits →
      digits.any (fun c => (IpAddr.toDigit 10 c).isNone) = true := by
    intro digits hmem
    rw [List.any_eq_true]
    exact ⟨'#', hmem, by decide⟩
  unfold IpAddr.parseU16
  dsimp only
  split
  next rest =>
    have hrest : '#' ∈ rest := by simpa using h
    rw [if_pos (by rw [hany _ hrest, Bool.or_true])]
  next => rw [if_pos (by rw [hany _ h, Bool.or_true])]

end Lists

end Detent.Guarantees.NetplanLines
