import Detent.Lib.JsonText
import Detent.Lib.TextSearch
import Detent.Source.ExecDeny

/-!
# The normal form of a Kea configuration

`kea` decodes unicode escapes, squashes white space and folds letters before it looks for
names, and cuts each group at its closing bracket. Each of these steps works left to right
with little state: a mark outside a string separates what stands before it from what follows,
and the brackets of a JSON text keep their places, apart from escapes that spell a quote or a
backslash.
-/
namespace Detent.Guarantees.KeaForms
open Lib Lib.Text Lib.JsonText Source.ExecDeny
open List (cons.inj cons_append mem_cons mem_cons_of_mem)

/-- The text that `kea` searches. -/
def normalForm (t : Text) : Text := toAsciiLowercase (squash (decodeJsonEscapes t))

/-- The character that the text after `\u` spells. -/
def spelled (after : Text) : Option Char :=
  if (after.take 4).length = 4 then (parseHex (after.take 4)).bind charFromU32 else none

theorem decodeFrom_drop : ∀ (n : Nat) (t : Text),
    decodeJsonEscapesFrom n t = decodeJsonEscapes (t.drop n)
  | 0, _ => rfl
  | _ + 1, [] => rfl
  | n + 1, _ :: t => decodeFrom_drop n t

variable {c : Char}

theorem decode_cons (t : Text) (h : c ≠ '\\') :
    decodeJsonEscapes (c :: t) = c :: decodeJsonEscapes t := by
  rw [decodeJsonEscapes, decodeJsonEscapesFrom]
  · rfl
  · intro after hc
    exact absurd hc h

theorem decode_backslash {t : Text} (h : t.head? ≠ some 'u') :
    decodeJsonEscapes ('\\' :: t) = '\\' :: decodeJsonEscapes t := by
  rw [decodeJsonEscapes, decodeJsonEscapesFrom]
  · rfl
  · rintro after - rfl
    exact h rfl

theorem decode_escape (after : Text) :
    decodeJsonEscapes ('\\' :: 'u' :: after) =
      match spelled after with
      | some d => d :: decodeJsonEscapes (after.drop 4)
      | none => '\\' :: 'u' :: decodeJsonEscapes after := by
  rw [decodeJsonEscapes, decodeJsonEscapesFrom]
  change (match spelled after with
    | some d => d :: decodeJsonEscapesFrom 5 ('u' :: after)
    | none => '\\' :: decodeJsonEscapesFrom 0 ('u' :: after)) = _
  cases spelled after with
  | none => exact congrArg _ (decode_cons after (by decide))
  | some d => exact congrArg _ (decodeFrom_drop 5 ('u' :: after))

theorem decode_word (w t : Text) (h : '\\' ∉ w) :
    decodeJsonEscapes (w ++ t) = w ++ decodeJsonEscapes t := by
  induction w with
  | nil => rfl
  | cons c w ih =>
    rw [cons_append, decode_cons _ (fun hc => h (by simp [hc])),
      ih (fun hmem => h (mem_cons_of_mem _ hmem)), cons_append]

theorem parseHex_eq_none {hex : Text} (hmem : c ∈ hex) (hdigit : hexDigit c = none)
    (hplus : c ≠ '+') : parseHex hex = none := by
  have hnone : ∀ (digits : Text) (acc : Nat), c ∈ digits →
      digits.foldlM (fun acc c => (hexDigit c).map (fun d => 16 * acc + d)) acc = none := by
    intro digits
    induction digits with
    | nil => intro acc h; cases h
    | cons d digits ih =>
      intro acc h
      rw [List.foldlM_cons]
      rcases mem_cons.mp h with rfl | h
      · rw [hdigit]
        rfl
      · cases hd : hexDigit d with
        | none => rfl
        | some n => exact ih _ h
  unfold parseHex
  dsimp only
  split
  · split
    · rfl
    · exact hnone _ 0 (by simpa [hplus] using hmem)
  · split
    · rfl
    · exact hnone _ 0 hmem

theorem hexDigit_of_isHex {d : Char} (h : isHex d = true) : hexDigit d = some (hexValue d) := by
  rw [hexDigit, hexValue]
  by_cases hdigit : isAsciiDigit d = true
  · rw [if_pos hdigit, if_pos hdigit]
  · rw [if_neg hdigit, if_neg hdigit]
    by_cases hlow : ('a' ≤ d && d ≤ 'f') = true
    · have ha : 'a' ≤ d := by
        simp only [Bool.and_eq_true, decide_eq_true_eq] at hlow
        exact hlow.1
      rw [if_pos hlow, if_pos ha]
    · have hupper : ('A' ≤ d && d ≤ 'F') = true := by
        simpa [isHex, hdigit, hlow] using h
      have ha : ¬ 'a' ≤ d := by
        intro ha
        simp only [Bool.and_eq_true, decide_eq_true_eq] at hupper
        have hlow : 97 ≤ d.toNat := ha
        have hhigh : d.toNat ≤ 70 := hupper.2
        omega
      rw [if_neg hlow, if_pos hupper, if_neg ha]

theorem parseHex_of_isHex {digits : Text} (hlen : digits.length = 4)
    (h : ∀ d ∈ digits, isHex d = true) : parseHex digits = some (unitValue digits) := by
  have hfold : ∀ (digits : Text) (acc : Nat), (∀ d ∈ digits, isHex d = true) →
      digits.foldlM (fun acc c => (hexDigit c).map (fun d => 16 * acc + d)) acc =
        some (digits.foldl (fun n d => 16 * n + hexValue d) acc) := by
    intro digits
    induction digits with
    | nil => intro acc _; rfl
    | cons d digits ih =>
      intro acc h
      rw [List.foldlM_cons, hexDigit_of_isHex (h d (by simp))]
      exact ih _ (fun e he => h e (mem_cons_of_mem _ he))
  cases digits with
  | nil => cases hlen
  | cons d digits =>
    have hplus : d ≠ '+' := by
      rintro rfl
      exact absurd (h '+' (by simp)) (by decide)
    unfold parseHex
    dsimp only
    split
    · rename_i heq
      exact absurd (cons.inj heq).1 hplus
    · exact hfold (d :: digits) 0 h

/-- Characters that no escape runs over. -/
def Apart (c : Char) : Prop := hexDigit c = none ∧ c ≠ '+' ∧ c ≠ 'u' ∧ c ≠ '\\'

instance (c : Char) : Decidable (Apart c) := inferInstanceAs (Decidable (_ ∧ _))

theorem spelled_append_cons (a b : Text) (hc : Apart c) : spelled (a ++ c :: b) = spelled a := by
  by_cases hlen : 4 ≤ a.length
  · rw [spelled, spelled, List.take_append_of_le_length hlen]
  · have hshort : (a.take 4).length ≠ 4 := by
      simp only [List.length_take]
      omega
    have hin : c ∈ (a ++ c :: b).take 4 := by
      rw [List.take_append]
      obtain ⟨n, hn⟩ : ∃ n, 4 - a.length = n + 1 := ⟨3 - a.length, by omega⟩
      simp [hn]
    rw [spelled, spelled, if_neg hshort, parseHex_eq_none hin hc.1 hc.2.1]
    simp

/-- A character that no escape runs over separates the text before it from the text after. -/
theorem decodeFrom_append_cons (hc : Apart c) (b : Text) :
    ∀ (skip : Nat) (a : Text), skip ≤ a.length →
      decodeJsonEscapesFrom skip (a ++ c :: b) =
        decodeJsonEscapesFrom skip a ++ c :: decodeJsonEscapes b
  | skip + 1, [], h => absurd h (by simp)
  | skip + 1, _ :: a, h => decodeFrom_append_cons hc b skip a (by simpa using h)
  | 0, [], _ => decode_cons b hc.2.2.2
  | 0, d :: a, _ => by
    have hrest : decodeJsonEscapes (a ++ c :: b) = decodeJsonEscapes a ++ c :: decodeJsonEscapes b :=
      decodeFrom_append_cons hc b 0 a (by omega)
    change decodeJsonEscapes (d :: (a ++ c :: b)) = decodeJsonEscapes (d :: a) ++ _
    by_cases hd : d = '\\'
    · subst hd
      by_cases hu : a.head? = some 'u'
      · obtain ⟨after, rfl⟩ := List.head?_eq_some_iff.mp hu
        rw [cons_append, decode_escape, decode_escape, spelled_append_cons after b hc]
        cases hspelled : spelled after with
        | none =>
          have hafter : decodeJsonEscapes (after ++ c :: b) =
              decodeJsonEscapes after ++ c :: decodeJsonEscapes b := by
            rw [cons_append, decode_cons _ (by decide), decode_cons _ (by decide)] at hrest
            exact (cons.inj hrest).2
          rw [hafter]
          rfl
        | some x =>
          have hlen : 5 ≤ ('u' :: after).length := by
            rw [spelled] at hspelled
            split at hspelled
            · rename_i hfour
              simp only [List.length_take] at hfour
              simp only [List.length_cons]
              omega
            · cases hspelled
          have hskip := decodeFrom_append_cons hc b 5 ('u' :: after) hlen
          rw [decodeFrom_drop, decodeFrom_drop] at hskip
          exact congrArg _ hskip
      · have hu' : (a ++ c :: b).head? ≠ some 'u' := by
          cases a with
          | nil => simpa using hc.2.2.1
          | cons e a => exact hu
        rw [decode_backslash hu', decode_backslash hu, hrest]
        rfl
    · rw [decode_cons _ hd, decode_cons _ hd, hrest]
      rfl

theorem decode_append_cons (hc : Apart c) (a b : Text) :
    decodeJsonEscapes (a ++ c :: b) = decodeJsonEscapes a ++ c :: decodeJsonEscapes b :=
  decodeFrom_append_cons hc b 0 a (by omega)

def blank (gap : Bool) : Text := if gap then [' '] else []

/-- Runs of white space as one space, once something follows; `gap` tells whether a run has
begun. -/
def squeeze : Bool → Text → Text
  | _, [] => []
  | gap, c :: t => if isWhitespace c then squeeze true t else blank gap ++ c :: squeeze false t

/-- Whether the text leaves a run open. -/
def pending : Bool → Text → Bool
  | gap, [] => gap
  | _, c :: t => pending (isWhitespace c) t

theorem squeeze_cons (gap : Bool) (t : Text) (hc : isWhitespace c = false) :
    squeeze gap (c :: t) = blank gap ++ c :: squeeze false t := by
  rw [squeeze, hc]
  rfl

theorem squeeze_append : ∀ (gap : Bool) (a b : Text),
    squeeze gap (a ++ b) = squeeze gap a ++ squeeze (pending gap a) b
  | _, [], _ => rfl
  | gap, c :: a, b => by
    rw [cons_append, squeeze, squeeze, pending]
    cases hc : isWhitespace c with
    | true => exact squeeze_append true a b
    | false => simp [squeeze_append false a b]

theorem pending_append : ∀ (gap : Bool) (a b : Text),
    pending gap (a ++ b) = pending (pending gap a) b
  | _, [], _ => rfl
  | _, c :: a, b => pending_append (isWhitespace c) a b

theorem squeeze_word {w : Text} (h : ∀ c ∈ w, isWhitespace c = false) (t : Text) :
    squeeze false (w ++ t) = w ++ squeeze false t := by
  induction w with
  | nil => rfl
  | cons c w ih =>
    rw [cons_append, squeeze_cons false _ (h c (by simp)),
      ih (fun d hd => h d (mem_cons_of_mem _ hd))]
    rfl

/-- A run that has begun shows only before something else. -/
theorem squeeze_true (t : Text) :
    squeeze true t = if trimStart t = [] then [] else ' ' :: squeeze false (trimStart t) := by
  induction t with
  | nil => rfl
  | cons c t ih =>
    by_cases hc : isWhitespace c = true
    · have htrim : trimStart (c :: t) = trimStart t := by simp [trimStart, hc]
      rw [squeeze, if_pos hc, ih, htrim]
    · have hc : isWhitespace c = false := by simpa using hc
      rw [squeeze_cons true t hc, trimStart_cons t hc, squeeze_cons false t hc]
      rfl

theorem splitWhitespace_trimStart (t : Text) : splitWhitespace (trimStart t) = splitWhitespace t := by
  induction t with
  | nil => rfl
  | cons c t ih =>
    by_cases hc : isWhitespace c = true
    · have htrim : trimStart (c :: t) = trimStart t := by simp [trimStart, hc]
      rw [htrim, ih, splitWhitespace_cons_whitespace t hc]
    · rw [trimStart_cons t (by simpa using hc)]

theorem head_trimStart {t rest : Text} (h : trimStart t = c :: rest) : isWhitespace c = false := by
  have hstart : t.dropWhile isWhitespace = c :: rest := h
  have hhead := List.head_dropWhile_not isWhitespace (l := t) (by simp [hstart])
  simpa [hstart] using hhead

/-- The words of a text, joined by spaces. -/
theorem squash_eq (t : Text) : squash t = squeeze false (trimStart t) := by
  generalize hn : t.length = n
  induction n using Nat.strongRecOn generalizing t with
  | ind n ih =>
    rw [squash, ← splitWhitespace_trimStart]
    have hshort : (trimStart t).length ≤ n := hn ▸ (List.dropWhile_suffix _).length_le
    cases hstart : trimStart t with
    | nil => rfl
    | cons c rest =>
      have hc := head_trimStart hstart
      -- the first word, and what the white space after it leads to
      have hsplit := List.takeWhile_append_dropWhile (p := fun d => !isWhitespace d) (l := rest)
      have hword : ∀ d ∈ c :: rest.takeWhile (fun d => !isWhitespace d), isWhitespace d = false := by
        intro d hd
        rcases mem_cons.mp hd with rfl | hd
        · exact hc
        · simpa using List.mem_takeWhile_imp hd
      generalize hw : rest.takeWhile (fun d => !isWhitespace d) = word at hsplit hword
      cases hrest : rest.dropWhile (fun d => !isWhitespace d) with
      | nil =>
        rw [hrest, List.append_nil] at hsplit
        subst hsplit
        rw [splitWhitespace_eq_singleton (by simp) hword]
        have hsame := squeeze_word hword []
        rw [List.append_nil] at hsame
        rw [hsame]
        simp [join, squeeze]
      | cons e more =>
        have he : isWhitespace e = true := by
          have hhead := List.head_dropWhile_not (fun d => !isWhitespace d) (l := rest) (by simp [hrest])
          simpa [hrest] using hhead
        rw [hrest] at hsplit
        subst hsplit
        have hmore : more.length < n := by
          rw [hstart] at hshort
          simp only [List.length_cons, List.length_append] at hshort
          omega
        have hrec := ih more.length hmore more rfl
        rw [← cons_append, splitWhitespace_word more (by simp) hword he, squeeze_word hword,
          squeeze, if_pos he, squeeze_true]
        rw [squash] at hrec
        by_cases hall : trimStart more = []
        · rw [if_pos hall, ← splitWhitespace_trimStart, hall, List.append_nil]
          rfl
        · obtain ⟨d, tail, htail⟩ := List.exists_cons_of_ne_nil hall
          rw [if_neg hall, ← hrec]
          cases hwords : splitWhitespace more with
          | nil =>
            rw [hwords, htail, squeeze_cons false tail (head_trimStart htail)] at hrec
            cases hrec
          | cons first words => simp [join]

theorem trimStart_append_cons (a b : Text) (hc : isWhitespace c = false) :
    trimStart (a ++ c :: b) = trimStart a ++ c :: b := by
  induction a with
  | nil => exact trimStart_cons b hc
  | cons d a ih =>
    by_cases hd : isWhitespace d = true
    · have hleft : trimStart (d :: a) = trimStart a := by simp [trimStart, hd]
      have hright : trimStart (d :: (a ++ c :: b)) = trimStart (a ++ c :: b) := by
        simp [trimStart, hd]
      rw [cons_append, hleft, hright, ih]
    · have hd : isWhitespace d = false := by simpa using hd
      rw [cons_append, trimStart_cons _ hd, trimStart_cons _ hd]
      rfl

theorem toAsciiLowercase_append (a b : Text) :
    toAsciiLowercase (a ++ b) = toAsciiLowercase a ++ toAsciiLowercase b :=
  List.map_append

/-- A text that something other than white space follows. -/
def squeezed (t : Text) : Text := squeeze false t ++ blank (pending false t)

theorem squeeze_before (a b : Text) (hc : isWhitespace c = false) :
    squeeze false (a ++ c :: b) = squeezed a ++ c :: squeeze false b := by
  rw [squeeze_append, squeeze_cons _ b hc, squeezed, List.append_assoc]

/-- What an array shows between its brackets. -/
def shown (body : Text) : Text := toAsciiLowercase (squeezed (decodeJsonEscapes body))

/-- What shows of the text before an array, and of the text after it. -/
def shownBefore (t : Text) : Text := toAsciiLowercase (squeezed (trimStart (decodeJsonEscapes t)))

def shownAfter (t : Text) : Text := toAsciiLowercase (squeeze false (decodeJsonEscapes t))

theorem squeezed_append_cons (a b : Text) (hc : isWhitespace c = false) :
    squeezed (a ++ c :: b) = squeezed a ++ c :: squeezed b := by
  rw [squeezed, squeeze_before a b hc, pending_append, pending, hc, List.append_assoc,
    cons_append]
  rfl

theorem squeezed_pad {pad : Text} (h : ∀ c ∈ pad, isWhitespace c = true) :
    squeezed pad = blank (!pad.isEmpty) := by
  have hgap : ∀ (gap : Bool) (pad : Text), (∀ c ∈ pad, isWhitespace c = true) →
      squeeze gap pad = [] ∧ pending gap pad = (gap || !pad.isEmpty) := by
    intro gap pad
    induction pad generalizing gap with
    | nil => simp [squeeze, pending]
    | cons c pad ih =>
      intro h
      have hc := h c (by simp)
      obtain ⟨hnil, hopen⟩ := ih true (fun d hd => h d (mem_cons_of_mem _ hd))
      rw [squeeze, if_pos hc, pending, hc]
      exact ⟨hnil, by simpa using hopen⟩
  obtain ⟨hnil, hopen⟩ := hgap false pad h
  rw [squeezed, hnil, hopen]
  rfl

theorem normalForm_around (before body after : Text) :
    normalForm (before ++ '[' :: (body ++ ']' :: after)) =
      shownBefore before ++ '[' :: (shown body ++ ']' :: shownAfter after) := by
  rw [normalForm, decode_append_cons (by decide), decode_append_cons (by decide), squash_eq,
    trimStart_append_cons _ _ (by decide), squeeze_before _ _ (by decide),
    squeeze_before _ _ (by decide)]
  simp only [shownBefore, shown, shownAfter, toAsciiLowercase, List.map_append, List.map_cons]
  rfl

theorem normalForm_array (body : Text) :
    normalForm ('[' :: (body ++ [']'])) = '[' :: (shown body ++ [']']) := by
  have h := normalForm_around [] body []
  exact h

/-- An escape of a code unit that is no character stays as it is. -/
theorem decode_unit {digits : Text} (h : digits.length = 4 ∧ ∀ d ∈ digits, isHex d = true)
    (rest : Text) :
    decodeJsonEscapes ('\\' :: 'u' :: (digits ++ rest)) =
      match charFromU32 (unitValue digits) with
      | some d => d :: decodeJsonEscapes rest
      | none => '\\' :: 'u' :: (digits ++ decodeJsonEscapes rest) := by
  have htake : (digits ++ rest).take 4 = digits := by
    rw [← h.1, List.take_left]
  have hdrop : (digits ++ rest).drop 4 = rest := by
    rw [← h.1, List.drop_left]
  have hback : '\\' ∉ digits := fun hmem => absurd (h.2 _ hmem) (by decide)
  rw [decode_escape, spelled, htake, if_pos h.1, parseHex_of_isHex h.1 h.2, Option.bind_some, hdrop,
    decode_word digits rest hback]

/-- What a name that spells these ASCII letters decodes to. -/
theorem decode_name : ∀ (items : List Item) (name rest : Text),
    (∀ c ∈ name, 32 ≤ c.toNat ∧ c.toNat < 128 ∧ c ≠ '"' ∧ c ≠ '\\' ∧ c ≠ '/') →
    units items = name.map Char.toNat →
      decodeJsonEscapes (content items ++ rest) = name ++ decodeJsonEscapes rest
  | [], name, rest, _, h => by
    have hnil : name = [] := by simpa [units] using h
    rw [hnil]
    rfl
  | item :: items, name, rest, hplain, h => by
    have hsplit : item.units ++ units items = name.map Char.toNat := h
    have htext : content (item :: items) ++ rest = item.text ++ (content items ++ rest) := by
      simp [content]
    cases name with
    | nil =>
      have hempty : item.units = [] := (List.append_eq_nil_iff.mp hsplit).1
      cases item with
      | raw c hc =>
        simp only [Item.units] at hempty
        split at hempty
        all_goals cases hempty
      | short | unit => cases hempty
    | cons c name =>
      obtain ⟨hlow, hhigh, hquote, hback, hslash⟩ := hplain c (by simp)
      have hrest := decode_name items name rest (fun d hd => hplain d (mem_cons_of_mem _ hd))
      rw [htext]
      rw [List.map_cons] at hsplit
      cases item with
      | raw d hd =>
        simp only [Item.units] at hsplit
        split at hsplit
        · obtain ⟨hsame, htail⟩ := cons.inj hsplit
          have hchar : d = c := Char.toNat_inj.mp hsame
          rw [Item.text, List.singleton_append, decode_cons _ hd.2.2, hrest htail, hchar]
          rfl
        · have hfirst := (cons.inj hsplit).1
          omega
      | short e he =>
        have hfirst : e.2 = c.toNat := (cons.inj hsplit).1
        have hne : ∀ d : Char, c ≠ d → c.toNat ≠ d.toNat := fun d hd h => hd (Char.toNat_inj.mp h)
        have h34 : c.toNat ≠ 34 := hne '"' hquote
        have h92 : c.toNat ≠ 92 := hne '\\' hback
        have h47 : c.toNat ≠ 47 := hne '/' hslash
        simp only [shortEscapes, mem_cons, List.not_mem_nil, or_false] at he
        rcases he with rfl | rfl | rfl | rfl | rfl | rfl | rfl | rfl
        all_goals
          simp only at hfirst
          omega
      | unit digits hdigits =>
        obtain ⟨hvalue, htail⟩ := cons.inj hsplit
        have hvalid : c.toNat.isValidChar := .inl (by omega)
        have hchar : charFromU32 (unitValue digits) = some c := by
          rw [hvalue, charFromU32, if_pos hvalid, Char.ofNat_toNat]
        rw [Item.text, cons_append, cons_append, decode_unit hdigits, hchar]
        exact congrArg _ (hrest htail)

def hooksName : Text := lit "hooks-libraries"

def hooksPattern : Text := lit "\"hooks-libraries\""

theorem isWhitespace_of_isSpace (h : isSpace c = true) : isWhitespace c = true := by
  simp only [isSpace, Bool.or_eq_true, beq_iff_eq] at h
  rcases h with ((rfl | rfl) | rfl) | rfl
  all_goals decide

theorem decode_pad {pad : Text} (h : ∀ c ∈ pad, isSpace c = true) (rest : Text) :
    decodeJsonEscapes (pad ++ rest) = pad ++ decodeJsonEscapes rest :=
  decode_word pad rest (fun hmem => absurd (h _ hmem) (by decide))

/-- The name of a hooks member shows in full before its array, whatever spells it. -/
theorem shownBefore_member (front : Text) {opener : Char} (hopener : opener ∈ [',', '\x7b'])
    {pad₁ pad₂ pad₃ : Text} (h₁ : ∀ c ∈ pad₁, isSpace c = true) (h₂ : ∀ c ∈ pad₂, isSpace c = true)
    (h₃ : ∀ c ∈ pad₃, isSpace c = true) {name : List Item}
    (hname : units name = hooksName.map Char.toNat) :
    ∃ left mark, mark ∉ hooksPattern ∧
      shownBefore (front ++ opener ::
          (pad₁ ++ '"' :: (content name ++ '"' :: (pad₂ ++ ':' :: pad₃)))) =
        left ++ mark :: (hooksPattern ++ (blank (!pad₂.isEmpty) ++ ':' :: blank (!pad₃.isEmpty))) := by
  have hopener' : Apart opener ∧ isWhitespace opener = false ∧ opener ∉ hooksPattern ∧
      toAsciiLowercase [opener] = [opener] := by
    simp only [mem_cons, List.not_mem_nil, or_false] at hopener
    rcases hopener with rfl | rfl
    all_goals decide
  obtain ⟨hapart, hblack, hout, hlower⟩ := hopener'
  have hwhite : ∀ {pad : Text}, (∀ c ∈ pad, isSpace c = true) → ∀ c ∈ pad, isWhitespace c = true :=
    fun h c hc => isWhitespace_of_isSpace (h c hc)
  have hdecoded : decodeJsonEscapes
      (pad₁ ++ '"' :: (content name ++ '"' :: (pad₂ ++ ':' :: pad₃))) =
        pad₁ ++ '"' :: (hooksName ++ '"' :: (pad₂ ++ ':' :: pad₃)) := by
    have hlast : decodeJsonEscapes pad₃ = pad₃ := by
      have h := decode_pad h₃ []
      simpa [decodeJsonEscapes, decodeJsonEscapesFrom] using h
    rw [decode_pad h₁, decode_cons _ (by decide), decode_name name hooksName _ (by decide) hname,
      decode_cons _ (by decide), decode_pad h₂, decode_cons _ (by decide), hlast]
  have hsqueezed : squeezed hooksName = hooksName := by decide
  rw [shownBefore, decode_append_cons hapart, hdecoded, trimStart_append_cons _ _ hblack,
    squeezed_append_cons _ _ hblack, squeezed_append_cons _ _ (by decide),
    squeezed_append_cons _ _ (by decide), squeezed_append_cons _ _ (by decide), hsqueezed,
    squeezed_pad (hwhite h₁), squeezed_pad (hwhite h₂), squeezed_pad (hwhite h₃)]
  have hblank : ∀ gap, toAsciiLowercase (blank gap) = blank gap := by decide
  have hpattern : toAsciiLowercase hooksPattern = hooksPattern := by decide
  have hcolon : toAsciiLowercase [':'] = [':'] := by decide
  have hlowered : ∀ a b c d, toAsciiLowercase (a ++ opener ::
        (blank b ++ '"' :: (hooksName ++ '"' :: (blank c ++ ':' :: blank d)))) =
      toAsciiLowercase a ++ opener :: (blank b ++ (hooksPattern ++ (blank c ++ ':' :: blank d))) := by
    intro a b c d
    change toAsciiLowercase (a ++ ([opener] ++ (blank b ++ (hooksPattern ++
      (blank c ++ ([':'] ++ blank d)))))) = _
    simp only [toAsciiLowercase_append, hlower, hblank, hpattern, hcolon]
    rfl
  rw [hlowered]
  generalize toAsciiLowercase (squeezed (trimStart (decodeJsonEscapes front))) = left
  cases pad₁.isEmpty with
  | true => exact ⟨left, opener, hout, rfl⟩
  | false =>
    refine ⟨left ++ [opener], ' ', by decide, ?_⟩
    rw [List.append_assoc]
    rfl

end Detent.Guarantees.KeaForms
