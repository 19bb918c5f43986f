import Detent.Lib.JsonComments
import Detent.Lib.JsonReader
import Detent.Source.Dhcp

/-!
# Kea documents as trees

What the parser of Kea documents reads: every character of the text is in one place of the
tree, comments are whole, strings are JSON strings, and a comma stands behind every member
and item but perhaps the last. The text without its comments is a JSON text exactly where the
words are JSON's and no last member or item has a comma.
-/
namespace Detent.Guarantees.KeaTrees
open Lib Lib.Text Lib.JsonText Source.Dhcp
open Source.ExecDeny (lit hexDigit charFromU32)
open Option (bind_eq_some_iff map_eq_some_iff some.inj)
open Prod (mk.inj)

variable {c : Char} {src run rest : Text}

theorem isSpace_of_isBlank (h : isBlank c = true) : isSpace c = true := by
  simp only [isBlank, Bool.or_eq_true, beq_iff_eq] at h
  rcases h with ((rfl | rfl) | rfl) | rfl
  all_goals decide

theorem plain_of_isSpace (h : isSpace c = true) : c ≠ '/' ∧ c ≠ '"' := by
  constructor
  all_goals
    rintro rfl
    exact absurd h (by decide)

/-- What a reader of comments took from the front of a text, where `strip` removes what is
inside. -/
structure Took (strip : Text → Text) (src run rest : Text) : Prop where
  src_eq : src = run ++ rest
  spaces : ∀ c ∈ strip run, isSpace c = true
  whole : rest ≠ [] → ∀ more, strip (run ++ more) = strip run ++ uncomment more
  stops : trivia rest = some ([], rest)

/-- One more character in front, which `strip'` keeps. -/
theorem Took.keep {strip strip' : Text → Text} (h : Took strip src run rest) (hc : isSpace c = true)
    (hstrip : ∀ t, strip' (c :: t) = c :: strip t) : Took strip' (c :: src) (c :: run) rest where
  src_eq := congrArg (c :: ·) h.src_eq
  spaces := by
    intro d hd
    rw [hstrip] at hd
    rcases List.mem_cons.mp hd with rfl | hd
    · exact hc
    · exact h.spaces d hd
  whole hrest more := by rw [List.cons_append, hstrip, hstrip, h.whole hrest, List.cons_append]
  stops := h.stops

/-- More characters in front, which `strip'` removes. -/
theorem Took.skip {strip strip' : Text → Text} (front : Text) (h : Took strip src run rest)
    (hstrip : ∀ more, strip' (front ++ (run ++ more)) = strip (run ++ more)) :
    Took strip' (front ++ src) (front ++ run) rest := by
  have hrun : strip' (front ++ run) = strip run := by simpa using hstrip []
  refine ⟨?_, ?_, ?_, h.stops⟩
  · rw [h.src_eq, List.append_assoc]
  · rw [hrun]
    exact h.spaces
  · intro hrest more
    rw [List.append_assoc, hstrip, hrun, h.whole hrest]

theorem blockComment_ne_nil (h : blockComment src = some (run, rest)) : run ≠ [] := by
  rw [blockComment.eq_def] at h
  split at h
  · cases h
  all_goals
    obtain ⟨p, -, hrun⟩ := map_eq_some_iff.mp h
    rw [← (mk.inj hrun).1]
    exact List.cons_ne_nil _ _

theorem took_all :
    (∀ src : Text, ∀ run rest, trivia src = some (run, rest) → Took uncomment src run rest) ∧
    (∀ src : Text, ∀ run rest, lineComment src = some (run, rest) →
      Took uncommentLine src run rest) ∧
    (∀ src : Text, ∀ run rest, blockComment src = some (run, rest) →
      Took uncommentBlock src run rest) := by
  refine trivia.mutual_induct
    (fun src => ∀ run rest, trivia src = some (run, rest) → Took uncomment src run rest)
    (fun src => ∀ run rest, lineComment src = some (run, rest) → Took uncommentLine src run rest)
    (fun src => ∀ run rest, blockComment src = some (run, rest) → Took uncommentBlock src run rest)
    ?_ ?_ ?_ ?_ ?_ ?_ ?_ ?_ ?_ ?_ ?_
  · intro run rest h
    obtain ⟨rfl, rfl⟩ : [] = run ∧ [] = rest := by simpa [trivia] using h
    exact ⟨rfl, by simp [uncomment], fun hne => absurd rfl hne, rfl⟩
  · intro src ih run rest h
    obtain ⟨⟨run', rest'⟩, hblock, hrun⟩ := map_eq_some_iff.mp h
    obtain ⟨rfl, rfl⟩ := mk.inj hrun
    exact (ih _ _ hblock).skip ['/', '*'] (fun _ => rfl)
  · intro src ih run rest h
    obtain ⟨⟨run', rest'⟩, hline, hrun⟩ := map_eq_some_iff.mp h
    obtain ⟨rfl, rfl⟩ := mk.inj hrun
    exact (ih _ _ hline).skip ['/', '/'] (fun _ => rfl)
  · intro c src hblock hline hblank ih run rest h
    rw [trivia.eq_4 c src hblock hline, if_pos hblank] at h
    obtain ⟨⟨run', rest'⟩, htrivia, hrun⟩ := map_eq_some_iff.mp h
    obtain ⟨rfl, rfl⟩ := mk.inj hrun
    have hspace := isSpace_of_isBlank hblank
    obtain ⟨hslash, hquote⟩ := plain_of_isSpace hspace
    exact (ih _ _ htrivia).keep hspace (fun t => uncomment_cons t hslash hquote)
  · intro c src hblock hline hblank run rest h
    rw [trivia.eq_4 c src hblock hline, if_neg hblank] at h
    obtain ⟨rfl, rfl⟩ : [] = run ∧ c :: src = rest := by simpa using h
    refine ⟨rfl, by simp [uncomment], fun _ _ => rfl, ?_⟩
    rw [trivia.eq_4 c src hblock hline, if_neg hblank]
  · intro run rest h
    obtain ⟨rfl, rfl⟩ : [] = run ∧ [] = rest := by simpa [lineComment] using h
    exact ⟨rfl, by simp [uncommentLine], fun hne => absurd rfl hne, rfl⟩
  · intro src ih run rest h
    obtain ⟨⟨run', rest'⟩, htrivia, hrun⟩ := map_eq_some_iff.mp h
    obtain ⟨rfl, rfl⟩ := mk.inj hrun
    exact (ih _ _ htrivia).keep (by decide) (fun _ => rfl)
  · intro c src hc ih run rest h
    rw [lineComment.eq_3 c src hc] at h
    obtain ⟨⟨run', rest'⟩, hline, hrun⟩ := map_eq_some_iff.mp h
    obtain ⟨rfl, rfl⟩ := mk.inj hrun
    exact (ih _ _ hline).skip [c] (fun _ => uncommentLine.eq_3 c _ hc)
  · intro run rest h
    cases h
  · intro src ih run rest h
    obtain ⟨⟨run', rest'⟩, htrivia, hrun⟩ := map_eq_some_iff.mp h
    obtain ⟨rfl, rfl⟩ := mk.inj hrun
    exact (ih _ _ htrivia).skip ['*', '/'] (fun _ => rfl)
  · intro c src hc ih run rest h
    rw [blockComment.eq_3 c src hc] at h
    obtain ⟨⟨run', rest'⟩, hblock, hrun⟩ := map_eq_some_iff.mp h
    obtain ⟨rfl, rfl⟩ := mk.inj hrun
    refine (ih _ _ hblock).skip [c] (fun more => uncommentBlock.eq_3 c _ ?_)
    -- the comment closes in what was read, so its first character there is the text's
    intro t hstar ht
    cases run' with
    | nil => exact blockComment_ne_nil hblock rfl
    | cons d run' =>
      obtain ⟨rfl, -⟩ := List.cons.inj ht
      exact hc _ hstar (ih _ _ hblock).src_eq

theorem trivia_took (h : trivia src = some (run, rest)) :
    Took uncomment src run rest := took_all.1 src run rest h

theorem Took.trivial (h : Took uncomment src run rest) (hrest : rest ≠ []) :
    Trivial run := ⟨h.whole hrest, h.spaces⟩

/-! ## Strings -/

/-- What the scan of a string token lets stand between the quotes. -/
inductive Scanned : Text → Prop
  | nil : Scanned []
  | plain {c : Char} {body : Text} (h : 32 ≤ c.toNat ∧ c ≠ '"' ∧ c ≠ '\\') (hbody : Scanned body) :
      Scanned (c :: body)
  | escape (c : Char) {body : Text} (hbody : Scanned body) : Scanned ('\\' :: c :: body)

theorem Scanned.tail {body : Text} (h : Scanned (c :: body)) (hc : c ≠ '\\') : Scanned body := by
  cases h with
  | plain _ hbody => exact hbody
  | escape _ _ => exact absurd rfl hc

theorem stringBody_scanned (h : stringBody src = some (run, rest)) :
    ∃ body, run = body ++ ['"'] ∧ src = run ++ rest ∧ Scanned body := by
  induction src using stringBody.induct generalizing run rest with
  | case1 => cases h
  | case2 chars =>
    rw [stringBody.eq_def] at h
    dsimp only at h
    rw [if_pos rfl] at h
    obtain ⟨rfl, rfl⟩ := mk.inj (some.inj h)
    exact ⟨[], rfl, rfl, .nil⟩
  | case3 hquote =>
    rw [stringBody.eq_def] at h
    dsimp only at h
    rw [if_neg hquote, if_pos rfl] at h
    cases h
  | case4 d src hquote ih =>
    rw [stringBody.eq_def] at h
    dsimp only at h
    rw [if_neg hquote, if_pos rfl] at h
    obtain ⟨⟨run', rest'⟩, hbody, hrun⟩ := map_eq_some_iff.mp h
    obtain ⟨rfl, rfl⟩ := mk.inj hrun
    obtain ⟨body, rfl, rfl, hscanned⟩ := ih hbody
    exact ⟨'\\' :: d :: body, rfl, rfl, .escape d hscanned⟩
  | case5 c chars hquote hescape hlow =>
    rw [stringBody.eq_def] at h
    dsimp only at h
    rw [if_neg hquote, if_neg hescape, if_pos hlow] at h
    cases h
  | case6 c chars hquote hescape hlow ih =>
    rw [stringBody.eq_def] at h
    dsimp only at h
    rw [if_neg hquote, if_neg hescape, if_neg hlow] at h
    obtain ⟨⟨run', rest'⟩, hbody, hrun⟩ := map_eq_some_iff.mp h
    obtain ⟨rfl, rfl⟩ := mk.inj hrun
    obtain ⟨body, rfl, rfl, hscanned⟩ := ih hbody
    exact ⟨c :: body, rfl, rfl, .plain ⟨by omega, hquote, hescape⟩ hscanned⟩

theorem isHex_of_hexDigit {n : Nat} (h : hexDigit c = some n) : isHex c = true := by
  unfold hexDigit at h
  unfold isHex
  split_ifs at h with hdigit hlow hhigh
  · simp [hdigit]
  · rw [hlow]
    simp
  · rw [hhigh]
    simp

theorem isHex_of_decodeHex4 {a b d : Char} {n : Nat} (h : decodeHex4 a b c d = some n) :
    ∀ e ∈ [a, b, c, d], isHex e = true := by
  have hdigit : ∀ e ∈ [a, b, c, d], ∃ n, hexDigit e = some n := by
    intro e he
    cases hdigit : hexDigit e with
    | some n => exact ⟨n, rfl⟩
    | none =>
      revert h
      simp only [List.mem_cons, List.not_mem_nil, or_false] at he
      rcases he with rfl | rfl | rfl | rfl
      all_goals
        simp only [decodeHex4, List.foldlM_cons, List.foldlM_nil, hdigit]
        simp
  intro e he
  obtain ⟨n, hn⟩ := hdigit e he
  exact isHex_of_hexDigit hn

theorem items_unit {a b d : Char} {n : Nat} (h : decodeHex4 a b c d = some n)
    (hrest : Scanned (a :: b :: c :: d :: rest) → ∃ items, content items = rest)
    (hscanned : Scanned ('\\' :: 'u' :: a :: b :: c :: d :: rest)) :
    ∃ items, content items = '\\' :: 'u' :: a :: b :: c :: d :: rest := by
  have hinner : Scanned (a :: b :: c :: d :: rest) := by
    cases hscanned with
    | plain h _ => exact absurd rfl h.2.2
    | escape _ h => exact h
  obtain ⟨items, hitems⟩ := hrest hinner
  refine ⟨.unit [a, b, c, d] ⟨rfl, isHex_of_decodeHex4 h⟩ :: items, ?_⟩
  rw [content, List.flatMap_cons]
  change '\\' :: 'u' :: a :: b :: c :: d :: content items = _
  rw [hitems]

theorem Scanned.after_hex {a b d : Char} {n : Nat} (h : decodeHex4 a b c d = some n)
    (hscanned : Scanned (a :: b :: c :: d :: rest)) : Scanned rest := by
  have hescape : ∀ e ∈ [a, b, c, d], e ≠ '\\' := fun e he =>
    (ne_of_isHex (isHex_of_decodeHex4 h e he)).2
  exact (((hscanned.tail (hescape a (by simp))).tail (hescape b (by simp))).tail
    (hescape c (by simp))).tail (hescape d (by simp))

theorem mem_shortEscapes {e d : Char} (h : shortEscape e = some d) :
    ∃ p ∈ shortEscapes, p.1 = e := by
  unfold shortEscape at h
  split at h
  all_goals first
    | decide
    | cases h

theorem items_of_decode {body value : Text} (hscanned : Scanned body)
    (h : decodeChars body = some value) : ∃ items, content items = body := by
  induction body using decodeChars.induct generalizing value with
  | case1 => exact ⟨[], rfl⟩
  | case2 c chars hc ih =>
    rw [decodeChars.eq_def] at h
    dsimp only at h
    rw [if_pos hc] at h
    obtain ⟨rest, hrest, -⟩ := map_eq_some_iff.mp h
    cases hscanned with
    | plain hplain htail =>
      obtain ⟨items, rfl⟩ := ih htail hrest
      exact ⟨.raw c hplain :: items, rfl⟩
    | escape _ _ => exact absurd rfl hc
  | case3 c hc =>
    rw [decodeChars.eq_def] at h
    simp [hc] at h
  | case4 c hc a b c' d chars hhex =>
    rw [decodeChars.eq_def] at h
    simp [hc, hhex] at h
  | case5 c hc a b c' d first hhex hrange slash letter e f g i chars hslash hpair =>
    rw [decodeChars.eq_def] at h
    simp [hc, hhex, hrange, hslash, hpair] at h
  | case6 c hc a b c' d first hhex hrange slash letter e f g i chars hslash decoded hpair ih =>
    obtain rfl : c = '\\' := not_not.mp hc
    obtain ⟨rfl, rfl⟩ := hslash
    rw [decodeChars.eq_def] at h
    simp only [ne_eq, not_true_eq_false, if_false, if_true, hhex, hrange, and_self, hpair] at h
    obtain ⟨rest, hrest, -⟩ := map_eq_some_iff.mp h
    obtain ⟨second, hsecond, -⟩ := bind_eq_some_iff.mp hpair
    exact items_unit hhex (fun hinner => items_unit hsecond
      (fun hlast => ih (hlast.after_hex hsecond) hrest) (hinner.after_hex hhex)) hscanned
  | case7 c hc a b c' d first hhex hrange slash letter e f g i chars hslash =>
    rw [decodeChars.eq_def] at h
    simp [hc, hhex, hrange, hslash] at h
  | case8 c hc a b c' d chars first hhex hrange hshort =>
    rw [decodeChars.eq_def] at h
    simp [hc, hhex, hrange] at h
  | case9 c hc a b c' d chars first hhex hrange hchar =>
    rw [decodeChars.eq_def] at h
    simp [hc, hhex, hrange, hchar] at h
  | case10 c hc a b c' d chars first hhex hrange decoded hchar ih =>
    obtain rfl : c = '\\' := not_not.mp hc
    rw [decodeChars.eq_def] at h
    simp only [ne_eq, not_true_eq_false, if_false, if_true, hhex, hrange, hchar] at h
    obtain ⟨rest, hrest, -⟩ := map_eq_some_iff.mp h
    exact items_unit hhex (fun hinner => ih (hinner.after_hex hhex) hrest) hscanned
  | case11 c hc chars hshort =>
    rw [decodeChars.eq_def] at h
    simp [hc] at h
  | case12 c hc escape chars hu hescape =>
    rw [decodeChars.eq_def] at h
    simp [hc, hu, hescape] at h
  | case13 c hc escape chars hu decoded hescape ih =>
    obtain rfl : c = '\\' := not_not.mp hc
    rw [decodeChars.eq_def] at h
    simp only [ne_eq, not_true_eq_false, if_false, hu, hescape] at h
    obtain ⟨rest, hrest, -⟩ := map_eq_some_iff.mp h
    obtain ⟨p, hp, rfl⟩ := mem_shortEscapes hescape
    cases hscanned with
    | plain h _ => exact absurd rfl h.2.2
    | escape _ hinner =>
      obtain ⟨items, rfl⟩ := ih hinner hrest
      exact ⟨.short p hp :: items, rfl⟩

theorem decodeJsonString_token {body value : Text}
    (h : decodeJsonString ('"' :: (body ++ ['"'])) = some value) :
    decodeChars body = some value := by
  rw [decodeJsonString, stripLast_append] at h
  exact h

/-- A string token that was read is a JSON string. -/
theorem parseStringLit_quoted {leaf : Lit} (h : parseStringLit src = some (leaf, rest)) :
    ∃ items value, leaf = .str (quoted items) value ∧ src = quoted items ++ rest := by
  unfold parseStringLit at h
  obtain ⟨src', heat, h⟩ := bind_eq_some_iff.mp h
  obtain ⟨⟨run, rest'⟩, hbody, h⟩ := bind_eq_some_iff.mp h
  obtain ⟨value, hvalue, h⟩ := bind_eq_some_iff.mp h
  obtain ⟨rfl, rfl⟩ := mk.inj (some.inj h)
  obtain ⟨body, rfl, rfl, hscanned⟩ := stringBody_scanned hbody
  obtain ⟨items, rfl⟩ := items_of_decode hscanned (decodeJsonString_token hvalue)
  refine ⟨items, value, rfl, ?_⟩
  cases src with
  | nil => cases heat
  | cons c src =>
    rw [eat] at heat
    split_ifs at heat with hc
    obtain rfl := some.inj heat
    rw [hc]
    rfl

theorem item_of_escapeChar (c : Char) : ∃ item : Item, item.text = escapeChar c := by
  unfold escapeChar
  split_ifs with hquote hslash hfeed hreturn htab hlow
  · exact ⟨.short ('"', 34) (by decide), rfl⟩
  · exact ⟨.short ('\\', 92) (by decide), rfl⟩
  · exact ⟨.short ('n', 10) (by decide), rfl⟩
  · exact ⟨.short ('r', 13) (by decide), rfl⟩
  · exact ⟨.short ('t', 9) (by decide), rfl⟩
  · have hhex : ∀ n : Fin 32, ∀ d ∈ ['0', '0', Nat.digitChar (n.val / 16),
        Nat.digitChar (n.val % 16)], isHex d = true := by decide
    exact ⟨.unit _ ⟨rfl, hhex ⟨c.toNat, hlow⟩⟩, rfl⟩
  · exact ⟨.raw c ⟨by omega, hquote, hslash⟩, rfl⟩

theorem litStr_quoted (value : Text) : ∃ items, litStr value = .str (quoted items) value := by
  have hitems : ∃ items, content items = jsonEscape value := by
    induction value with
    | nil => exact ⟨[], rfl⟩
    | cons c value ih =>
      obtain ⟨items, hitems⟩ := ih
      obtain ⟨item, hitem⟩ := item_of_escapeChar c
      refine ⟨item :: items, ?_⟩
      rw [content, List.flatMap_cons, jsonEscape, List.flatMap_cons, hitem]
      exact congrArg _ hitems
  obtain ⟨items, hitems⟩ := hitems
  exact ⟨items, by rw [litStr, quoted, hitems]⟩

/-! ## Trees -/

/-- Commas between, and perhaps one behind the last. -/
def Separated : List Text → Prop
  | [] => True
  | [c] => c = [] ∨ c = [',']
  | c :: d :: cs => c = [','] ∧ Separated (d :: cs)

/-- Commas between and none behind the last. -/
def Exact : List Text → Prop
  | [] => True
  | [c] => c = []
  | c :: d :: cs => c = [','] ∧ Exact (d :: cs)

/-- What is asked of the words and of the commas of a tree. -/
structure Rules where
  word : Text → Prop
  commas : List Text → Prop

def RawWord (w : Text) : Prop := w ≠ [] ∧ ∀ c ∈ w, isWordChar c = true

/-- What the parser sees to. -/
def loose : Rules := ⟨RawWord, Separated⟩

/-- What JSON asks. -/
def strict : Rules := ⟨fun w => RawWord w ∧ IsWord w, Exact⟩

def Opens (c : Char) (opening : Text) : Prop := ∃ run, opening = c :: run ∧ Trivial run

def Closes (c : Char) (close : Text) : Prop := ∃ run, close = run ++ [c] ∧ Trivial run

def Colon (colon : Text) : Prop :=
  ∃ pre post, colon = pre ++ ':' :: post ∧ Trivial pre ∧ Trivial post

def LitFits (R : Rules) : Lit → Prop
  | .str token _ => ∃ items, token = quoted items
  | .raw token => R.word token

def IsKey (key : Lit) : Prop := ∃ items value, key = .str (quoted items) value

mutual

def ValueFits (R : Rules) : Jsonc → Prop
  | .obj object => ObjFits R object
  | .arr array => ArrFits R array
  | .lit leaf => LitFits R leaf

def ObjFits (R : Rules) : Obj → Prop
  | ⟨opening, members, close⟩ =>
    Opens '\x7b' opening ∧ Closes '\x7d' close ∧ MembersFit R members ∧
      R.commas (members.map Member.comma)

def ArrFits (R : Rules) : Arr → Prop
  | ⟨opening, items, close⟩ =>
    Opens '[' opening ∧ Closes ']' close ∧ ItemsFit R items ∧ R.commas (items.map ArrItem.comma)

def MembersFit (R : Rules) : List Member → Prop
  | [] => True
  | ⟨key, colon, value, post, _, tail⟩ :: members =>
    (IsKey key ∧ Colon colon ∧ Trivial post ∧ Trivial tail) ∧ ValueFits R value ∧
      MembersFit R members

def ItemsFit (R : Rules) : List ArrItem → Prop
  | [] => True
  | ⟨value, post, _, tail⟩ :: items =>
    (Trivial post ∧ Trivial tail) ∧ ValueFits R value ∧ ItemsFit R items

end

/-- A member and an item by themselves. -/
def MemberFits (R : Rules) (member : Member) : Prop :=
  (IsKey member.key ∧ Colon member.colon ∧ Trivial member.post ∧ Trivial member.tail) ∧
    ValueFits R member.value

def ItemFits (R : Rules) (item : ArrItem) : Prop :=
  (Trivial item.post ∧ Trivial item.tail) ∧ ValueFits R item.value

theorem membersFit_iff {R : Rules} (members : List Member) :
    MembersFit R members ↔ ∀ member ∈ members, MemberFits R member := by
  induction members with
  | nil => simp [MembersFit]
  | cons member members ih =>
    rw [List.forall_mem_cons, ← ih]
    obtain ⟨key, colon, value, post, comma, tail⟩ := member
    exact and_assoc.symm

theorem itemsFit_iff {R : Rules} (items : List ArrItem) :
    ItemsFit R items ↔ ∀ item ∈ items, ItemFits R item := by
  induction items with
  | nil => simp [ItemsFit]
  | cons item items ih =>
    rw [List.forall_mem_cons, ← ih]
    obtain ⟨value, post, comma, tail⟩ := item
    exact and_assoc.symm

/-! ## What the parser reads -/

/-- A parser of values reads the text that the value renders to, where no trivia stands
before it. -/
def ReadsValues (parse : Text → Option (Jsonc × Text)) : Prop :=
  ∀ src value rest, trivia src = some ([], src) → parse src = some (value, rest) →
    src ≠ [] ∧ src = value.render ++ rest ∧ ValueFits loose value

theorem eat_eq_some (h : eat c src = some rest) : src = c :: rest := by
  cases src with
  | nil => cases h
  | cons d src =>
    rw [eat] at h
    split_ifs at h with hd
    rw [hd, some.inj h]

theorem ne_nil_of_eat (h : eat c src = some rest) : src ≠ [] := by
  rw [eat_eq_some h]
  exact List.cons_ne_nil _ _

theorem trivia_trivial (h : trivia src = some (run, rest)) (hrest : rest ≠ []) :
    src = run ++ rest ∧ Trivial run ∧ trivia rest = some ([], rest) :=
  ⟨(trivia_took h).src_eq, (trivia_took h).trivial hrest, (trivia_took h).stops⟩

theorem parseStringLit_ne_nil {leaf : Lit} (h : parseStringLit src = some (leaf, rest)) :
    src ≠ [] := by
  obtain ⟨items, value, -, rfl⟩ := parseStringLit_quoted h
  simp [quoted]

section

variable {parseValue : Text → Option (Jsonc × Text)}

theorem parseMembers_ne_nil {turns : Nat} {result : List Member × Text × Text}
    (h : parseMembers parseValue turns src = some result) : src ≠ [] := by
  cases turns with
  | zero => cases h
  | succ turns =>
    rw [parseMembers] at h
    obtain ⟨p, hname, -⟩ := bind_eq_some_iff.mp h
    exact parseStringLit_ne_nil hname

theorem closes_single : Closes c [c] := ⟨[], rfl, trivial_nil⟩

/-- What `parse_obj`'s loop read. -/
structure ReadMembers (src : Text) (members : List Member) (close rest : Text) : Prop where
  src_eq : src = renderMembers members ++ (close ++ rest)
  fit : MembersFit loose members
  commas : Separated (members.map Member.comma)
  closes : Closes '\x7d' close
  ne_nil : members ≠ []

theorem parseMembers_reads (hvalue : ReadsValues parseValue) {turns : Nat} {close : Text}
    {members : List Member} (h : parseMembers parseValue turns src = some (members, close, rest)) :
    ReadMembers src members close rest := by
  induction turns generalizing src close rest members with
  | zero => cases h
  | succ turns ih =>
    rw [parseMembers] at h
    obtain ⟨⟨key, src1⟩, hkey, h1⟩ := bind_eq_some_iff.mp h
    obtain ⟨⟨pre, src2⟩, hpre, h2⟩ := bind_eq_some_iff.mp h1
    obtain ⟨src3, hcolon, h3⟩ := bind_eq_some_iff.mp h2
    obtain ⟨⟨post, src4⟩, hpost, h4⟩ := bind_eq_some_iff.mp h3
    obtain ⟨⟨value, src5⟩, hread, h5⟩ := bind_eq_some_iff.mp h4
    obtain ⟨⟨after, src6⟩, hafter, hend⟩ := bind_eq_some_iff.mp h5
    clear h h1 h2 h3 h4 h5
    dsimp only at hkey hpre hcolon hpost hread hafter hend
    obtain ⟨items, name, rfl, rfl⟩ := parseStringLit_quoted hkey
    obtain ⟨rfl, hpreTrivial, -⟩ := trivia_trivial hpre (ne_nil_of_eat hcolon)
    obtain rfl := eat_eq_some hcolon
    obtain ⟨hne, hsrc4, hfits⟩ := hvalue _ _ _ (trivia_took hpost).stops hread
    obtain ⟨rfl, hpostTrivial, -⟩ := trivia_trivial hpost hne
    have hcolons : Colon (pre ++ ':' :: post) := ⟨pre, post, rfl, hpreTrivial, hpostTrivial⟩
    cases hcomma : eat ',' src6 with
    | some src7 =>
      rw [hcomma] at hend
      obtain ⟨⟨tail, src8⟩, htail, hlast⟩ := bind_eq_some_iff.mp hend
      clear hend
      dsimp only at htail hlast
      obtain ⟨rfl, hafterTrivial, -⟩ := trivia_trivial hafter (ne_nil_of_eat hcomma)
      obtain rfl := eat_eq_some hcomma
      cases hbrace : eat '\x7d' src8 with
      | some src9 =>
        rw [hbrace] at hlast
        obtain ⟨rfl, rfl, rfl⟩ : _ = members ∧ _ = close ∧ src9 = rest := by simpa using hlast
        obtain ⟨rfl, htailTrivial, -⟩ := trivia_trivial htail (ne_nil_of_eat hbrace)
        obtain rfl := eat_eq_some hbrace
        refine ⟨?_, ?_, .inr rfl, closes_single, List.cons_ne_nil _ _⟩
        · simp [renderMembers, Lit.render, hsrc4]
        · exact ⟨⟨⟨items, name, rfl⟩, hcolons, hafterTrivial, htailTrivial⟩, hfits, trivial⟩
      | none =>
        rw [hbrace] at hlast
        obtain ⟨⟨others, close', rest'⟩, hothers, hpure⟩ := bind_eq_some_iff.mp hlast
        obtain ⟨rfl, rfl, rfl⟩ : _ = members ∧ close' = close ∧ rest' = rest := by simpa using hpure
        obtain ⟨hsrc8, hothersFit, hcommas, hcloses, hnotNil⟩ := ih hothers
        obtain ⟨rfl, htailTrivial, -⟩ := trivia_trivial htail (parseMembers_ne_nil hothers)
        refine ⟨?_, ?_, ?_, hcloses, List.cons_ne_nil _ _⟩
        · simp [renderMembers, Lit.render, hsrc4, hsrc8]
        · exact ⟨⟨⟨items, name, rfl⟩, hcolons, hafterTrivial, htailTrivial⟩, hfits, hothersFit⟩
        · cases others with
          | nil => exact absurd rfl hnotNil
          | cons second others => exact ⟨rfl, hcommas⟩
    | none =>
      rw [hcomma] at hend
      obtain ⟨src7, hbrace, hpure⟩ := bind_eq_some_iff.mp hend
      obtain ⟨rfl, rfl, rfl⟩ : _ = members ∧ _ = close ∧ src7 = rest := by simpa using hpure
      obtain ⟨rfl, hafterTrivial, -⟩ := trivia_trivial hafter (ne_nil_of_eat hbrace)
      obtain rfl := eat_eq_some hbrace
      refine ⟨?_, ?_, .inl rfl, ⟨after, rfl, hafterTrivial⟩, List.cons_ne_nil _ _⟩
      · simp [renderMembers, Lit.render, hsrc4]
      · exact ⟨⟨⟨items, name, rfl⟩, hcolons, trivial_nil, trivial_nil⟩, hfits, trivial⟩

theorem parseObj_reads (hvalue : ReadsValues parseValue) {object : Obj}
    (h : parseObj parseValue src = some (object, rest)) :
    src = object.render ++ rest ∧ ObjFits loose object := by
  rw [parseObj] at h
  obtain ⟨src1, hopen, h1⟩ := bind_eq_some_iff.mp h
  obtain ⟨⟨lead, src2⟩, hlead, hend⟩ := bind_eq_some_iff.mp h1
  clear h h1
  dsimp only at hlead hend
  obtain rfl := eat_eq_some hopen
  cases hbrace : eat '\x7d' src2 with
  | some src3 =>
    rw [hbrace] at hend
    obtain ⟨rfl, rfl⟩ : _ = object ∧ src3 = rest := by simpa using hend
    obtain ⟨rfl, hleadTrivial, -⟩ := trivia_trivial hlead (ne_nil_of_eat hbrace)
    obtain rfl := eat_eq_some hbrace
    exact ⟨by simp [Obj.render, renderMembers],
      ⟨lead, rfl, hleadTrivial⟩, closes_single, trivial, trivial⟩
  | none =>
    rw [hbrace] at hend
    obtain ⟨⟨members, close, src3⟩, hmembers, hpure⟩ := bind_eq_some_iff.mp hend
    obtain ⟨rfl, rfl⟩ : _ = object ∧ src3 = rest := by simpa using hpure
    obtain ⟨rfl, hleadTrivial, -⟩ := trivia_trivial hlead (parseMembers_ne_nil hmembers)
    have hread := parseMembers_reads hvalue hmembers
    refine ⟨?_, ⟨lead, rfl, hleadTrivial⟩, hread.closes, hread.fit, hread.commas⟩
    simp [Obj.render, ← hread.src_eq]

/-- What `parse_arr`'s loop read. -/
structure ReadItems (src : Text) (items : List ArrItem) (close rest : Text) : Prop where
  src_eq : src = renderItems items ++ (close ++ rest)
  fit : ItemsFit loose items
  commas : Separated (items.map ArrItem.comma)
  closes : Closes ']' close

theorem parseItems_reads (hvalue : ReadsValues parseValue) {turns : Nat} {close : Text}
    {items : List ArrItem} (hlead : trivia src = some ([], src))
    (h : parseItems parseValue turns src = some (items, close, rest)) :
    src ≠ [] ∧ ReadItems src items close rest := by
  induction turns generalizing src close rest items with
  | zero => cases h
  | succ turns ih =>
    rw [parseItems, hlead] at h
    dsimp only [Option.bind_eq_bind, Option.bind_some] at h
    cases hbracket : eat ']' src with
    | some src1 =>
      rw [hbracket] at h
      obtain ⟨rfl, rfl, rfl⟩ : [] = items ∧ [']'] = close ∧ src1 = rest := by simpa using h
      obtain rfl := eat_eq_some hbracket
      exact ⟨List.cons_ne_nil _ _, rfl, trivial, trivial, closes_single⟩
    | none =>
      rw [hbracket] at h
      obtain ⟨⟨value, src1⟩, hread, h1⟩ := bind_eq_some_iff.mp h
      obtain ⟨⟨after, src2⟩, hafter, hend⟩ := bind_eq_some_iff.mp h1
      clear h h1
      dsimp only at hread hafter hend
      obtain ⟨hne, rfl, hfits⟩ := hvalue _ _ _ hlead hread
      refine ⟨hne, ?_⟩
      cases hcomma : eat ',' src2 with
      | some src3 =>
        rw [hcomma] at hend
        obtain ⟨⟨tail, src4⟩, htail, hlast⟩ := bind_eq_some_iff.mp hend
        obtain ⟨⟨others, close', rest'⟩, hothers, hpure⟩ := bind_eq_some_iff.mp hlast
        clear hend hlast
        dsimp only at htail hothers
        obtain ⟨rfl, rfl, rfl⟩ : _ = items ∧ close' = close ∧ rest' = rest := by simpa using hpure
        obtain ⟨rfl, hafterTrivial, -⟩ := trivia_trivial hafter (ne_nil_of_eat hcomma)
        obtain rfl := eat_eq_some hcomma
        obtain ⟨hsrc4ne, hsrc4, hothersFit, hcommas, hcloses⟩ :=
          ih (trivia_took htail).stops hothers
        obtain ⟨rfl, htailTrivial, -⟩ := trivia_trivial htail hsrc4ne
        refine ⟨?_, ⟨⟨hafterTrivial, htailTrivial⟩, hfits, hothersFit⟩, ?_, hcloses⟩
        · simp [renderItems, hsrc4]
        · cases others with
          | nil => exact .inr rfl
          | cons second others => exact ⟨rfl, hcommas⟩
      | none =>
        rw [hcomma] at hend
        obtain ⟨src3, hclose, hpure⟩ := bind_eq_some_iff.mp hend
        obtain ⟨rfl, rfl, rfl⟩ : _ = items ∧ _ = close ∧ src3 = rest := by simpa using hpure
        obtain ⟨rfl, hafterTrivial, -⟩ := trivia_trivial hafter (ne_nil_of_eat hclose)
        obtain rfl := eat_eq_some hclose
        refine ⟨?_, ⟨⟨trivial_nil, trivial_nil⟩, hfits, trivial⟩, .inl rfl, ?_⟩
        swap
        · exact ⟨after, rfl, hafterTrivial⟩
        simp [renderItems]

theorem parseArr_reads (hvalue : ReadsValues parseValue) {array : Arr}
    (h : parseArr parseValue src = some (array, rest)) :
    src = array.render ++ rest ∧ ArrFits loose array := by
  rw [parseArr] at h
  obtain ⟨src1, hopen, h1⟩ := bind_eq_some_iff.mp h
  obtain ⟨⟨lead, src2⟩, hlead, h2⟩ := bind_eq_some_iff.mp h1
  obtain ⟨⟨items, close, src3⟩, hitems, hpure⟩ := bind_eq_some_iff.mp h2
  clear h h1 h2
  obtain ⟨rfl, rfl⟩ : _ = array ∧ src3 = rest := by simpa using hpure
  obtain rfl := eat_eq_some hopen
  obtain ⟨hne, hread⟩ := parseItems_reads hvalue (trivia_took hlead).stops hitems
  obtain ⟨rfl, hleadTrivial, -⟩ := trivia_trivial hlead hne
  refine ⟨?_, ⟨lead, rfl, hleadTrivial⟩, hread.closes, hread.fit, hread.commas⟩
  simp [Arr.render, ← hread.src_eq]

theorem parseRaw_reads {leaf : Lit} (h : parseRaw src = some (leaf, rest)) :
    ∃ w, leaf = .raw w ∧ src = w ++ rest ∧ RawWord w := by
  rw [parseRaw] at h
  split_ifs at h with hempty
  obtain ⟨rfl, rfl⟩ : _ = leaf ∧ _ = rest := by simpa using h
  refine ⟨_, rfl, List.takeWhile_append_dropWhile.symm, by simpa using hempty, ?_⟩
  exact fun c hc => List.mem_takeWhile_imp hc

theorem ne_nil_of_head (h : src.head? = some c) : src ≠ [] := by
  rintro rfl
  cases h

end

theorem parseValue_reads (levels : Nat) : ReadsValues (parseValue levels) := by
  induction levels with
  | zero => exact nofun
  | succ levels ih =>
    intro src value rest hlead h
    rw [parseValue, hlead] at h
    dsimp only [Option.bind_eq_bind, Option.bind_some] at h
    split at h
    · rename_i hhead
      obtain ⟨⟨object, rest'⟩, hobj, hpair⟩ := map_eq_some_iff.mp h
      obtain ⟨rfl, rfl⟩ := mk.inj hpair
      obtain ⟨hsrc, hfits⟩ := parseObj_reads ih hobj
      exact ⟨ne_nil_of_head hhead, hsrc, hfits⟩
    · rename_i hhead
      obtain ⟨⟨array, rest'⟩, harr, hpair⟩ := map_eq_some_iff.mp h
      obtain ⟨rfl, rfl⟩ := mk.inj hpair
      obtain ⟨hsrc, hfits⟩ := parseArr_reads ih harr
      exact ⟨ne_nil_of_head hhead, hsrc, hfits⟩
    · rename_i hhead
      obtain ⟨⟨leaf, rest'⟩, hstr, hpair⟩ := map_eq_some_iff.mp h
      obtain ⟨rfl, rfl⟩ := mk.inj hpair
      obtain ⟨items, name, rfl, hsrc⟩ := parseStringLit_quoted hstr
      exact ⟨ne_nil_of_head hhead, hsrc, items, rfl⟩
    · obtain ⟨⟨leaf, rest'⟩, hraw, hpair⟩ := map_eq_some_iff.mp h
      obtain ⟨rfl, rfl⟩ := mk.inj hpair
      obtain ⟨w, rfl, rfl, hword⟩ := parseRaw_reads hraw
      refine ⟨fun hnil => hword.1 (List.append_eq_nil_iff.mp hnil).1, rfl, hword⟩

/-- A document's trivia, its root object, and its last trivia, which may end in a line
comment. -/
theorem parseJsonc_reads {root : JsoncRoot} (h : parseJsonc src = some root) :
    src = root.render ∧ Trivial root.lead ∧ ObjFits loose root.root ∧
      ∀ c ∈ uncomment root.trail, isSpace c = true := by
  rw [parseJsonc] at h
  obtain ⟨⟨lead, src1⟩, hlead, h1⟩ := bind_eq_some_iff.mp h
  obtain ⟨⟨object, src2⟩, hobj, h2⟩ := bind_eq_some_iff.mp h1
  obtain ⟨⟨trail, src3⟩, htrail, hend⟩ := bind_eq_some_iff.mp h2
  clear h h1 h2
  dsimp only at hlead hobj htrail hend
  split_ifs at hend with hempty
  obtain rfl := some.inj hend
  obtain rfl : src3 = [] := by simpa using hempty
  obtain ⟨rfl, hfits⟩ := parseObj_reads (parseValue_reads _) hobj
  have hopen := hfits
  obtain ⟨opening, members, close⟩ := object
  obtain ⟨⟨run, rfl, -⟩, -⟩ := hopen
  obtain ⟨rfl, hleadTrivial, -⟩ := trivia_trivial hlead (by simp [Obj.render])
  have htook := trivia_took htrail
  refine ⟨?_, hleadTrivial, hfits, htook.spaces⟩
  rw [JsoncRoot.render, htook.src_eq, List.append_nil]

end Detent.Guarantees.KeaTrees
