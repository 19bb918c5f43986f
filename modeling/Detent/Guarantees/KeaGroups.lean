import Detent.Guarantees.KeaForms

/-!
# The group that a Kea scan cuts

`bracketed` walks a text with a depth and a string state. The walk over a normal form sees
the brackets of the JSON text it comes from: letters and white space do not move it, and
neither does a unicode escape inside a string, unless it spells a quote or a backslash.
-/
namespace Detent.Guarantees.KeaGroups
open Lib Lib.Text Lib.JsonText Source.ExecDeny
open KeaForms
open List (cons.inj cons_append mem_cons not_mem_nil)
open Option (some.inj)

/-- The state after a character; none where it closes the group. -/
def advance (st : Bracketing) (c : Char) : Option Bracketing :=
  if st.inString then
    if st.escaped then some { st with escaped := false }
    else if c = '\\' then some { st with escaped := true }
    else if c = '"' then some { st with inString := false }
    else some st
  else if c = '"' then some { st with inString := true }
  else if c = '[' || c = '\x7b' then some { st with depth := st.depth + 1 }
  else if c = ']' || c = '\x7d' then
    if st.depth - 1 = 0 then none else some { st with depth := st.depth - 1 }
  else some st

theorem bracketedFrom_cons (st : Bracketing) (c : Char) (t : Text) :
    bracketedFrom st (c :: t) = c :: ((advance st c).map (fun st => bracketedFrom st t)).getD [] := by
  obtain ⟨depth, inString, escaped⟩ := st
  rw [bracketedFrom.eq_def]
  dsimp only
  cases inString with
  | true =>
    cases escaped with
    | true => rfl
    | false =>
      by_cases hback : c = '\\'
      · subst hback
        rfl
      · by_cases hquote : c = '"'
        · subst hquote
          rfl
        · simp [advance, hback, hquote]
  | false =>
    by_cases hquote : c = '"'
    · simp [advance, hquote]
    · by_cases hopen : (c = '[' || c = '\x7b') = true
      · simp [advance, hquote, hopen]
      · by_cases hclose : (c = ']' || c = '\x7d') = true
        · by_cases hdepth : depth - 1 = 0
          all_goals simp [advance, hquote, hopen, hclose, hdepth]
        · simp [advance, hquote, hopen, hclose]

variable {st : Bracketing} {c : Char}

/-- A walk that is still open at the end of a text goes on after it. -/
theorem bracketedFrom_append {st' : Bracketing} {a : Text} (h : exec advance st a = some st')
    (b : Text) : bracketedFrom st (a ++ b) = a ++ bracketedFrom st' b := by
  induction a generalizing st with
  | nil =>
    obtain rfl : st = st' := some.inj h
    rfl
  | cons c a ih =>
    obtain ⟨next, hnext, hrest⟩ := Option.bind_eq_some_iff.mp h
    rw [cons_append, bracketedFrom_cons, hnext]
    exact congrArg _ (ih hrest)

/-- A walk that ends inside a text does not see what follows. -/
theorem bracketedFrom_closed {a : Text} (h : exec advance st a = none) :
    ∃ cut, ∀ b, bracketedFrom st (a ++ b) = cut := by
  induction a generalizing st with
  | nil => cases h
  | cons c a ih =>
    cases hnext : advance st c with
    | none =>
      refine ⟨[c], fun b => ?_⟩
      rw [cons_append, bracketedFrom_cons, hnext]
      rfl
    | some next =>
      rw [exec_cons hnext] at h
      obtain ⟨cut, hcut⟩ := ih h
      refine ⟨c :: cut, fun b => ?_⟩
      rw [cons_append, bracketedFrom_cons, hnext, Option.map_some, Option.getD_some, hcut]

/-- The characters that the walk looks at. -/
def watched : List Char := ['"', '\\', '[', ']', '\x7b', '\x7d']

/-- The state after a character that only ends an escape. -/
def settle (st : Bracketing) : Bracketing :=
  if st.inString ∧ st.escaped then { st with escaped := false } else st

theorem settle_settle (st : Bracketing) : settle (settle st) = settle st := by
  obtain ⟨depth, _ | _, _ | _⟩ := st
  all_goals rfl

theorem advance_unwatched (st : Bracketing) (h : c ∉ watched) :
    advance st c = some (settle st) := by
  simp only [watched, mem_cons, not_mem_nil, or_false, not_or] at h
  obtain ⟨hquote, hback, hopen, hclose, hopen', hclose'⟩ := h
  obtain ⟨depth, _ | _, _ | _⟩ := st
  all_goals simp [advance, settle, hquote, hback, hopen, hclose, hopen', hclose']

theorem whitespace_unwatched (h : isWhitespace c = true) : c ∉ watched := by
  intro hmem
  simp only [watched, mem_cons, not_mem_nil, or_false] at hmem
  rcases hmem with rfl | rfl | rfl | rfl | rfl | rfl
  all_goals exact absurd h (by decide)

theorem advance_lowercase (st : Bracketing) (c : Char) :
    advance st (if 'A' ≤ c && c ≤ 'Z' then Char.ofNat (c.toNat + 32) else c) = advance st c := by
  split
  · rename_i hupper
    simp only [Bool.and_eq_true, decide_eq_true_eq] at hupper
    have hlow : 65 ≤ c.toNat := hupper.1
    have hhigh : c.toNat ≤ 90 := hupper.2
    -- no letter, of either case, is watched
    have hletter : ∀ d : Char, 65 ≤ d.toNat ∧ d.toNat ≤ 90 ∨ 97 ≤ d.toNat ∧ d.toNat ≤ 122 →
        d ∉ watched := by
      intro d hd hmem
      simp only [watched, mem_cons, not_mem_nil, or_false] at hmem
      rcases hmem with rfl | rfl | rfl | rfl | rfl | rfl
      all_goals exact absurd hd (by decide)
    have hnat : (Char.ofNat (c.toNat + 32)).toNat = c.toNat + 32 := toNat_ofNat (by omega)
    rw [advance_unwatched st (hletter c (by omega)),
      advance_unwatched st (hletter _ (by rw [hnat]; omega))]
  · rfl

theorem exec_cons_congr {st' : Bracketing} {d : Char} {t u : Text}
    (h : advance st c = advance st' d) (hrest : ∀ next, exec advance next t = exec advance next u) :
    exec advance st (c :: t) = exec advance st' (d :: u) := by
  rw [exec, exec, List.foldlM_cons, List.foldlM_cons, h]
  cases advance st' d with
  | none => rfl
  | some next => exact hrest next

/-- Letters count alike in both cases. -/
theorem exec_lowercase (t : Text) (st : Bracketing) :
    exec advance st (toAsciiLowercase t) = exec advance st t := by
  induction t generalizing st with
  | nil => rfl
  | cons c t ih => exact exec_cons_congr (advance_lowercase st c) ih

/-- A run of white space counts as one space. -/
theorem exec_squeeze : ∀ (gap : Bool) (t : Text) (st : Bracketing),
    exec advance st (squeeze gap t ++ blank (pending gap t)) =
      exec advance (if gap then settle st else st) t
  | false, [], st => rfl
  | true, [], st => exec_cons (advance_unwatched st (by decide))
  | gap, c :: t, st => by
    have hopen := exec_squeeze true t st
    have hclosed := exec_squeeze false t
    rw [squeeze, pending]
    cases hc : isWhitespace c with
    | true =>
      have hsettle := fun st => advance_unwatched st (whitespace_unwatched hc)
      cases gap with
      | true =>
        rw [if_pos rfl, if_pos rfl, exec_cons (hsettle _), settle_settle]
        exact hopen
      | false =>
        rw [if_pos rfl, if_neg (by decide), exec_cons (hsettle _)]
        exact hopen
    | false =>
      rw [if_neg (by decide), List.append_assoc, cons_append]
      cases gap with
      | true =>
        rw [if_pos rfl]
        change exec advance st (' ' :: _) = _
        rw [exec_cons (advance_unwatched st (by decide))]
        exact exec_cons_congr rfl hclosed
      | false => exact exec_cons_congr rfl hclosed

theorem exec_shown (body : Text) (st : Bracketing) :
    exec advance st (shown body) = exec advance st (decodeJsonEscapes body) := by
  rw [shown, exec_lowercase]
  exact exec_squeeze false _ st

/-- No unicode escape of a quote or of a backslash. -/
def PlainItem : Item → Prop
  | .unit digits _ => unitValue digits ≠ 34 ∧ unitValue digits ≠ 92
  | _ => True

def PlainLexeme : Lexeme → Prop
  | .string items => ∀ item ∈ items, PlainItem item
  | _ => True

/-- A part of a string without backslashes ends between two characters of it. -/
theorem content_split {rest : Text} : ∀ {w : Text} {items : List Item}, '\\' ∉ w →
    content items = w ++ rest → ∃ later, later <:+ items ∧ rest = content later
  | [], items, _, h => ⟨items, List.suffix_refl _, h.symm⟩
  | c :: w, [], _, h => by cases h
  | c :: w, .raw d hd :: items, hw, h => by
    have htail : content items = w ++ rest := (cons.inj h).2
    obtain ⟨later, hlater, hrest⟩ := content_split (fun hmem => hw (by simp [hmem])) htail
    exact ⟨later, hlater.trans (List.suffix_cons _ _), hrest⟩
  | c :: w, .short e he :: items, hw, h => absurd (by simp [← (cons.inj h).1]) hw
  | c :: w, .unit digits hd :: items, hw, h => absurd (by simp [← (cons.inj h).1]) hw

theorem exec_word {w : Text} (h : ∀ c ∈ w, c ∉ watched) (hst : settle st = st) :
    exec advance st w = some st := by
  induction w with
  | nil => rfl
  | cons c w ih =>
    rw [exec_cons (advance_unwatched st (h c (by simp))), hst]
    exact ih (fun d hd => h d (List.mem_cons_of_mem _ hd))

theorem advance_inside (d : Nat) (hquote : c ≠ '"') (hback : c ≠ '\\') :
    advance { depth := d, inString := true, escaped := false } c =
      some { depth := d, inString := true, escaped := false } := by
  simp [advance, hquote, hback]

theorem hex_unwatched (h : isHex c = true) : c ∉ watched := by
  intro hmem
  simp only [watched, mem_cons, not_mem_nil, or_false] at hmem
  rcases hmem with rfl | rfl | rfl | rfl | rfl | rfl
  all_goals exact absurd h (by decide)

/-- The walk stays inside a string that is written without the two escapes. -/
theorem scan_content (d : Nat) {items : List Item} (h : ∀ item ∈ items, PlainItem item) :
    exec advance { depth := d, inString := true, escaped := false }
        (decodeJsonEscapes (content items)) =
      some { depth := d, inString := true, escaped := false } := by
  generalize hn : items.length = n
  induction n using Nat.strongRecOn generalizing items with
  | ind n ih =>
    cases items with
    | nil => rfl
    | cons item items =>
      have hrest : ∀ {later : List Item}, later <:+ items → _ := fun {later} hlater =>
        ih later.length (by
          have hle := hlater.length_le
          simp only [List.length_cons] at hn
          omega) (fun item hmem => h item (List.mem_cons_of_mem _ (hlater.subset hmem))) rfl
      have hitems := hrest (List.suffix_refl items)
      have hcontent : content (item :: items) = item.text ++ content items := rfl
      rw [hcontent]
      cases item with
      | raw c hc =>
        rw [Item.text, List.singleton_append, decode_cons _ hc.2.2,
          exec_cons (advance_inside d hc.2.1 hc.2.2)]
        exact hitems
      | unit digits hdigits =>
        have hplain : PlainItem (.unit digits hdigits) := h _ (by simp)
        rw [Item.text, cons_append, cons_append, decode_unit hdigits]
        cases hchar : charFromU32 (unitValue digits) with
        | some x =>
          have hx : x.toNat = unitValue digits := by
            rw [charFromU32] at hchar
            split at hchar
            · rename_i hvalid
              obtain rfl := some.inj hchar
              rw [Char.ofNat, dif_pos hvalid]
              rfl
            · cases hchar
          rw [exec_cons (advance_inside d _ _)]
          · exact hitems
          · rintro rfl
            exact hplain.1 hx.symm
          · rintro rfl
            exact hplain.2 hx.symm
        | none =>
          -- a surrogate keeps its escape: the letter after the backslash ends it
          rw [exec_cons (t := { depth := d, inString := true, escaped := true }) rfl,
            exec_cons (t := { depth := d, inString := true, escaped := false }) rfl,
            exec_append (exec_word (fun c hc => hex_unwatched (hdigits.2 c hc)) rfl)]
          exact hitems
      | short e he =>
        rw [Item.text]
        by_cases hback : e.1 = '\\'
        · -- the second backslash may itself start what `decode` reads as an escape
          rw [hback, cons_append, List.singleton_append, decode_backslash (by simp),
            exec_cons (t := { depth := d, inString := true, escaped := true }) rfl]
          by_cases hu : (content items).head? = some 'u'
          · obtain ⟨after, hafter⟩ := List.head?_eq_some_iff.mp hu
            rw [hafter, decode_escape]
            cases hspelled : spelled after with
            | some x =>
              have hclean : '\\' ∉ 'u' :: after.take 4 := by
                intro hmem
                have hin : '\\' ∈ after.take 4 := by simpa using hmem
                rw [spelled, parseHex_eq_none hin (by decide) (by decide)] at hspelled
                simp at hspelled
              obtain ⟨later, hlater, hdrop⟩ := @content_split (after.drop 4) _ _ hclean
                (by rw [hafter, cons_append, List.take_append_drop])
              rw [exec_cons (t := { depth := d, inString := true, escaped := false }) rfl, hdrop]
              exact hrest hlater
            | none =>
              rw [hafter, decode_cons _ (by decide)] at hitems
              rw [exec_cons (t := { depth := d, inString := true, escaped := false }) rfl]
              exact hitems
          · rw [decode_backslash hu,
              exec_cons (t := { depth := d, inString := true, escaped := false }) rfl]
            exact hitems
        · have hu : e.1 ≠ 'u' := by
            intro hu
            simp only [shortEscapes, mem_cons, not_mem_nil, or_false] at he
            rcases he with rfl | rfl | rfl | rfl | rfl | rfl | rfl | rfl
            all_goals exact absurd hu (by decide)
          rw [cons_append, List.singleton_append, decode_backslash (by simpa using hu),
            decode_cons _ hback,
            exec_cons (t := { depth := d, inString := true, escaped := true }) rfl,
            exec_cons (t := { depth := d, inString := true, escaped := false }) rfl]
          exact hitems

/-- Lexemes that the walk passes over. -/
def Quiet : Lexeme → Prop
  | .mark _ | .string _ => False
  | _ => True

theorem number_unwatched (n : Number) : ∀ c ∈ n.text, c ∉ watched := by
  intro c hmem
  rcases mem_numberText hmem with hdigit | hmark
  · exact hex_unwatched (by simp [isHex, hdigit])
  · have hmarks : ∀ c ∈ ['-', '+', '.', 'e', 'E'], c ∉ watched := by decide
    exact hmarks c hmark

theorem quiet_unwatched {l : Lexeme} (h : Quiet l) : ∀ c ∈ l.text, c ∉ watched := by
  cases l with
  | space c hc =>
    intro d hd
    rw [List.mem_singleton.mp hd]
    exact whitespace_unwatched (isWhitespace_of_isSpace hc)
  | mark m => cases h
  | null => decide
  | bool b =>
    cases b with
    | true | false => decide
  | number n => exact number_unwatched n
  | string items => cases h

theorem nest_quiet {l : Lexeme} (h : Quiet l) (d : Nat) : nest d l = some d := by
  cases l with
  | mark | string => cases h
  | space | null | bool | number => rfl

/-- Outside strings, at a depth. -/
def outside (d : Nat) : Bracketing := { depth := d, inString := false, escaped := false }

theorem advance_mark {m : Mark} {d d' : Nat} (h : nest d (.mark m) = some d') :
    advance (outside d) m.char = some (outside d') := by
  have hclose : ∀ c, c = ']' ∨ c = '\x7d' → (if d ≤ 1 then none else some (d - 1)) = some d' →
      advance (outside d) c = some (outside d') := by
    intro c hc hd
    split at hd
    · cases hd
    · obtain rfl := some.inj hd
      have hdepth : ¬ d - 1 = 0 := by omega
      rcases hc with rfl | rfl
      all_goals simp [advance, outside, hdepth]
  cases m with
  | openArray | openObject => exact congrArg _ (congrArg outside (some.inj h))
  | closeArray => exact hclose _ (.inl rfl) h
  | closeObject => exact hclose _ (.inr rfl) h
  | colon | comma => exact congrArg _ (congrArg outside (some.inj h))

theorem mark_apart (m : Mark) : Apart m.char := by
  cases m with
  | openArray | closeArray | openObject | closeObject | colon | comma => decide

/-- One lexeme decodes by itself, and moves the walk as its bracket does. -/
theorem scan_lexeme {l : Lexeme} (h : PlainLexeme l) (rest : Text) :
    ∃ shown, decodeJsonEscapes (l.text ++ rest) = shown ++ decodeJsonEscapes rest ∧
      ∀ d d', nest d l = some d' → exec advance (outside d) shown = some (outside d') := by
  have hquiet : Quiet l → ∃ shown, decodeJsonEscapes (l.text ++ rest) = shown ++ decodeJsonEscapes rest ∧
      ∀ d d', nest d l = some d' → exec advance (outside d) shown = some (outside d') := by
    intro hquiet
    have hunwatched := quiet_unwatched hquiet
    refine ⟨l.text, decode_word _ _ (fun hmem => hunwatched _ hmem (by decide)), ?_⟩
    intro d d' hd
    rw [nest_quiet hquiet d] at hd
    rw [← some.inj hd]
    exact exec_word hunwatched rfl
  cases l with
  | mark m =>
    refine ⟨[m.char], decode_append_cons (mark_apart m) [] rest, ?_⟩
    intro d d' hd
    rw [exec_cons (advance_mark hd)]
    rfl
  | string items =>
    refine ⟨'"' :: (decodeJsonEscapes (content items) ++ ['"']), ?_, ?_⟩
    · have htext : (Lexeme.string items).text ++ rest = '"' :: (content items ++ '"' :: rest) := by
        simp [Lexeme.text]
      rw [htext, decode_cons _ (by decide), decode_append_cons (by decide)]
      simp
    · intro d d' hd
      obtain rfl : d = d' := some.inj hd
      rw [exec_cons (t := { depth := d, inString := true, escaped := false }) rfl,
        exec_append (scan_content d h), exec_cons (t := outside d) rfl]
      rfl
  | space | null | bool | number => exact hquiet trivial

theorem scan_text {ls : List Lexeme} (h : ∀ l ∈ ls, PlainLexeme l) {d d' : Nat}
    (hnest : exec nest d ls = some d') :
    exec advance (outside d) (decodeJsonEscapes (text ls)) = some (outside d') := by
  induction ls generalizing d with
  | nil => exact congrArg _ (congrArg outside (some.inj hnest))
  | cons l ls ih =>
    obtain ⟨next, hnext, hrest⟩ := Option.bind_eq_some_iff.mp hnest
    obtain ⟨shown, hshown, hmoves⟩ := scan_lexeme (h l (by simp)) (text ls)
    have htext : text (l :: ls) = l.text ++ text ls := rfl
    rw [htext, hshown, exec_append (hmoves d next hnext)]
    exact ih (fun l hl => h l (List.mem_cons_of_mem _ hl)) hrest

theorem nest_tokens (ls : List Lexeme) (d : Nat) : exec nest d (tokens ls) = exec nest d ls := by
  induction ls generalizing d with
  | nil => rfl
  | cons l ls ih =>
    cases hspace : l.isSpace with
    | true =>
      have htokens : tokens (l :: ls) = tokens ls := by simp [tokens, hspace]
      have hsame : nest d l = some d := by
        cases l with
        | space c hc => rfl
        | _ => cases hspace
      rw [htokens, ih, exec_cons hsame]
    | false =>
      have htokens : tokens (l :: ls) = l :: tokens ls := by simp [tokens, hspace]
      rw [htokens]
      cases hl : nest d l with
      | none => simp [exec, hl]
      | some d' => rw [exec_cons hl, exec_cons hl, ih]

/-- The lexemes of an array. -/
def array (inner : List Lexeme) : List Lexeme :=
  .mark .openArray :: (inner ++ [.mark .closeArray])

theorem text_array (inner : List Lexeme) : text (array inner) = '[' :: (text inner ++ [']']) := by
  simp [text, array, Lexeme.text, Mark.char]

theorem nest_array {inner : List Lexeme} {v : Value} (h : IsJson (array inner) v) (d : Nat) :
    exec nest (d + 1) inner = some (d + 1) := by
  have htokens : tokens (array inner) = .mark .openArray :: (tokens inner ++ [.mark .closeArray]) := by
    simp [tokens, array, Lexeme.isSpace]
  rw [IsJson, htokens] at h
  rw [← nest_tokens]
  generalize hls : Lexeme.mark Mark.openArray :: (tokens inner ++ [.mark .closeArray]) = ls at h
  cases h with
  | emptyArray =>
    have hnil : tokens inner = [] := by simpa using hls
    rw [hnil]
    rfl
  | array hbody =>
    have hsame := List.append_cancel_right (cons.inj hls).2
    rw [hsame]
    exact hbody.nest d
  | null | bool | number | string | emptyObject | object => cases (cons.inj hls).1

/-- The walk into a plain array comes to its closing bracket. -/
theorem scan_array {inner : List Lexeme} {v : Value} (h : IsJson (array inner) v)
    (hplain : ∀ l ∈ inner, PlainLexeme l) :
    exec advance (outside 1) (shown (text inner)) = some (outside 1) := by
  rw [exec_shown]
  exact scan_text hplain (nest_array h 0)

/-- The last character of a text is the bracket that closes the group it starts. -/
def ClosesGroup (g : Text) : Prop :=
  ∃ body c st, g = body ++ [c] ∧ exec advance (outside 0) body = some st ∧ advance st c = none

/-- Two texts are the same, or the same up to the bracket that closes the group. -/
def ReadAlike (t t' : Text) : Prop := t = t' ∨ ∃ g, ClosesGroup g ∧ g <+: t ∧ g <+: t'

theorem bracketed_closed {g t : Text} (hg : ClosesGroup g) (h : g <+: t) : bracketed t = g := by
  obtain ⟨body, c, st, rfl, hwalk, hclose⟩ := hg
  obtain ⟨rest, rfl⟩ := h
  rw [List.append_assoc, List.singleton_append]
  change bracketedFrom (outside 0) _ = _
  rw [bracketedFrom_append hwalk, bracketedFrom_cons, hclose]
  rfl

/-- A walk that ends inside a text ends at one of its characters. -/
theorem walk_ends {t : Text} (h : exec advance st t = none) :
    ∃ body c rest st', t = body ++ c :: rest ∧ exec advance st body = some st' ∧
      advance st' c = none := by
  induction t generalizing st with
  | nil => cases h
  | cons c t ih =>
    cases hnext : advance st c with
    | none => exact ⟨[], c, t, st, rfl, rfl, hnext⟩
    | some next =>
      rw [exec_cons hnext] at h
      obtain ⟨body, d, rest, st', rfl, hwalk, hclose⟩ := ih h
      exact ⟨c :: body, d, rest, st', rfl, by rw [exec_cons hnext, hwalk], hclose⟩

/-- A group is the whole text, or it ends where it is closed. -/
theorem bracketed_cases (t : Text) :
    bracketed t = t ∨ ClosesGroup (bracketed t) ∧ bracketed t <+: t := by
  cases hwalk : exec advance (outside 0) t with
  | some st =>
    left
    have hopen := bracketedFrom_append hwalk []
    rw [List.append_nil] at hopen
    exact hopen.trans (List.append_nil t)
  | none =>
    right
    obtain ⟨body, c, rest, st, rfl, hbody, hclose⟩ := walk_ends hwalk
    have hg : ClosesGroup (body ++ [c]) := ⟨body, c, st, rfl, hbody, hclose⟩
    have hstart : body ++ [c] <+: body ++ c :: rest := ⟨rest, by simp⟩
    rw [bracketed_closed hg hstart]
    exact ⟨hg, hstart⟩

theorem readAlike_iff {t t' : Text} : ReadAlike t t' ↔ bracketed t = bracketed t' := by
  constructor
  · rintro (rfl | ⟨g, hg, hstart, hstart'⟩)
    · rfl
    · rw [bracketed_closed hg hstart, bracketed_closed hg hstart']
  · intro heq
    rcases bracketed_cases t with hwhole | ⟨hg, hstart⟩
    · rcases bracketed_cases t' with hwhole' | ⟨hg', hstart'⟩
      · exact .inl (hwhole.symm.trans (heq.trans hwhole'))
      · exact .inr ⟨_, hg', (heq.symm.trans hwhole) ▸ List.prefix_refl _, hstart'⟩
    · refine .inr ⟨_, hg, hstart, ?_⟩
      rcases bracketed_cases t' with hwhole' | ⟨-, hstart'⟩
      · exact (heq.trans hwhole') ▸ List.prefix_refl _
      · rwa [heq]

instance (t t' : Text) : Decidable (ReadAlike t t') := decidable_of_iff _ readAlike_iff.symm

end Detent.Guarantees.KeaGroups
