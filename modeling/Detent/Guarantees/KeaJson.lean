import Detent.Guarantees.KeaTrees

/-!
# Kea documents as JSON

A tree without its comments is a JSON text exactly where it keeps JSON's rules on words and
commas: a reader of JSON stops at any other word and at a comma that a bracket follows.
-/
namespace Detent.Guarantees.KeaJson
open Lib Lib.Text Lib.JsonText Source.Dhcp KeaTrees
open Reader (step)

theorem separated_of_exact : ∀ {cs : List Text}, Exact cs → Separated cs
  | [], _ => trivial
  | [_], h => .inl h
  | _ :: _ :: _, ⟨hfirst, hrest⟩ => ⟨hfirst, separated_of_exact hrest⟩

theorem separated_mem : ∀ {cs : List Text}, Separated cs → ∀ c ∈ cs, c = [] ∨ c = [',']
  | [], _, c, hc => by cases hc
  | [d], h, c, hc => by
    obtain rfl := List.mem_singleton.mp hc
    exact h
  | d :: e :: cs, ⟨hfirst, hrest⟩, c, hc => by
    rcases List.mem_cons.mp hc with rfl | hc
    · exact .inr hfirst
    · exact separated_mem hrest c hc

/-- `R` asks no less than `R'`. -/
structure Stricter (R R' : Rules) : Prop where
  word : ∀ w, R.word w → R'.word w
  commas : ∀ cs, R.commas cs → R'.commas cs

theorem strict_stricter : Stricter strict loose := ⟨fun _ h => h.1, fun _ => separated_of_exact⟩

section Weaken

variable {R R' : Rules}

mutual

theorem valueFits_mono (hR : Stricter R R') : ∀ {value : Jsonc}, ValueFits R value →
    ValueFits R' value
  | .obj _, h => objFits_mono hR h
  | .arr _, h => arrFits_mono hR h
  | .lit (.str _ _), h => h
  | .lit (.raw w), h => hR.word w h

theorem objFits_mono (hR : Stricter R R') : ∀ {object : Obj}, ObjFits R object → ObjFits R' object
  | ⟨_, _, _⟩, ⟨hopens, hcloses, hmembers, hcommas⟩ =>
    ⟨hopens, hcloses, membersFit_mono hR hmembers, hR.commas _ hcommas⟩

theorem arrFits_mono (hR : Stricter R R') : ∀ {array : Arr}, ArrFits R array → ArrFits R' array
  | ⟨_, _, _⟩, ⟨hopens, hcloses, hitems, hcommas⟩ =>
    ⟨hopens, hcloses, itemsFit_mono hR hitems, hR.commas _ hcommas⟩

theorem membersFit_mono (hR : Stricter R R') : ∀ {members : List Member}, MembersFit R members →
    MembersFit R' members
  | [], _ => trivial
  | ⟨_, _, _, _, _, _⟩ :: _, ⟨hframe, hvalue, hmembers⟩ =>
    ⟨hframe, valueFits_mono hR hvalue, membersFit_mono hR hmembers⟩

theorem itemsFit_mono (hR : Stricter R R') : ∀ {items : List ArrItem}, ItemsFit R items →
    ItemsFit R' items
  | [], _ => trivial
  | ⟨_, _, _, _⟩ :: _, ⟨hframe, hvalue, hitems⟩ =>
    ⟨hframe, valueFits_mono hR hvalue, itemsFit_mono hR hitems⟩

end

end Weaken

theorem plain_rawWord {w : Text} (h : RawWord w) : Plain w := by
  intro c hc
  obtain ⟨-, -, -, hquote, -, hslash⟩ := not_special_of_wordChar (h.2 c hc)
  exact ⟨hslash, hquote⟩

theorem plain_comma {c : Text} (h : c = [] ∨ c = [',']) : Plain c := by
  rcases h with rfl | rfl
  · nofun
  · unfold Plain
    decide

variable {c : Char} {colon t rest post tail : Text} {within : List Bool} {P Q : List Lexeme → Prop}

theorem plain_char (h : c ≠ '/' ∧ c ≠ '"') : Plain [c] := by
  intro d hd
  rw [List.mem_singleton.mp hd]
  exact h

theorem opens_whole {opening : Text} (h : Opens c opening) (hc : c ≠ '/' ∧ c ≠ '"') :
    Whole opening := by
  obtain ⟨run, rfl, hrun⟩ := h
  exact (plain_char hc).whole.append hrun.whole

theorem closes_whole {close : Text} (h : Closes c close) (hc : c ≠ '/' ∧ c ≠ '"') :
    Whole close := by
  obtain ⟨run, rfl, hrun⟩ := h
  exact hrun.whole.append (plain_char hc).whole

theorem colon_whole (h : Colon colon) : Whole colon := by
  obtain ⟨pre, post, rfl, hpre, hpost⟩ := h
  exact hpre.whole.append ((plain_char (c := ':') (by decide)).whole.append hpost.whole)

mutual

theorem value_whole : ∀ {value : Jsonc}, ValueFits loose value → Whole value.render
  | .obj _, h => obj_whole h
  | .arr _, h => arr_whole h
  | .lit (.str _ _), ⟨items, h⟩ => by
    rw [Jsonc.render, Lit.render, h]
    exact whole_quoted items
  | .lit (.raw _), h => (plain_rawWord h).whole

theorem obj_whole : ∀ {object : Obj}, ObjFits loose object → Whole object.render
  | ⟨_, _, _⟩, ⟨hopens, hcloses, hmembers, hcommas⟩ =>
    (opens_whole hopens (by decide)).append
      ((members_whole hmembers hcommas).append (closes_whole hcloses (by decide)))

theorem arr_whole : ∀ {array : Arr}, ArrFits loose array → Whole array.render
  | ⟨_, _, _⟩, ⟨hopens, hcloses, hitems, hcommas⟩ =>
    (opens_whole hopens (by decide)).append
      ((items_whole hitems hcommas).append (closes_whole hcloses (by decide)))

theorem members_whole : ∀ {members : List Member}, MembersFit loose members →
    Separated (members.map Member.comma) → Whole (renderMembers members)
  | [], _, _ => whole_nil
  | ⟨_, _, _, _, comma, _⟩ :: members,
      ⟨⟨hkey, hcolon, hpost, htail⟩, hvalue, hmembers⟩, hcommas => by
    obtain ⟨items, name, rfl⟩ := hkey
    have hcomma := plain_comma (separated_mem hcommas comma (by simp))
    have hrest : Separated (members.map Member.comma) := by
      cases members with
      | nil => trivial
      | cons second members => exact hcommas.2
    exact (whole_quoted items).append ((colon_whole hcolon).append ((value_whole hvalue).append
      (hpost.whole.append (hcomma.whole.append (htail.whole.append
        (members_whole hmembers hrest))))))

theorem items_whole : ∀ {items : List ArrItem}, ItemsFit loose items →
    Separated (items.map ArrItem.comma) → Whole (renderItems items)
  | [], _, _ => whole_nil
  | ⟨_, _, comma, _⟩ :: items, ⟨⟨hpost, htail⟩, hvalue, hitems⟩, hcommas => by
    have hcomma := plain_comma (separated_mem hcommas comma (by simp))
    have hrest : Separated (items.map ArrItem.comma) := by
      cases items with
      | nil => trivial
      | cons second items => exact hcommas.2
    exact (value_whole hvalue).append (hpost.whole.append (hcomma.whole.append (htail.whole.append
      (items_whole hitems hrest))))

end

/-- A text in which no word goes on. -/
def Delimited (t : Text) : Prop := ∃ c rest, t = c :: rest ∧ isWordChar c = false

theorem delimited_append {space : Text} (hspace : ∀ c ∈ space, isSpace c = true)
    (ht : Delimited t) : Delimited (space ++ t) := by
  cases space with
  | nil => exact ht
  | cons c space => exact ⟨c, space ++ t, rfl, not_wordChar_of_isSpace (hspace c (by simp))⟩

theorem uncomment_opens {run : Text} (hc : c ≠ '/' ∧ c ≠ '"') :
    uncomment (c :: run) = c :: uncomment run := uncomment_cons run hc.1 hc.2

theorem uncomment_closes {run : Text} (hrun : Trivial run) (hc : c ≠ '/' ∧ c ≠ '"') :
    uncomment (run ++ [c]) = uncomment run ++ [c] := by
  rw [hrun.whole, uncomment_eq_self (plain_char hc)]

theorem exec_colon (h : Colon colon) :
    exec step ⟨within, .colon⟩ (uncomment colon ++ rest) =
      exec step ⟨within, .value false⟩ rest := by
  obtain ⟨pre, post, rfl, hpre, hpost⟩ := h
  rw [hpre.whole, uncomment_opens (by decide), List.append_assoc,
    exec_spaces (r := ⟨within, .colon⟩) trivial hpre.spaces, List.cons_append]
  rw [exec_cons (t := ⟨within, .value false⟩) (by simp [step, isSpace])]
  exact exec_spaces (r := ⟨within, .value false⟩) trivial hpost.spaces rest

theorem uncomment_member {key : Lit} {comma : Text} {value : Jsonc} {items : List Item}
    {name : Text} (hkey : key = .str (quoted items) name) (hcolon : Colon colon)
    (hpost : Trivial post) (htail : Trivial tail) (hvalue : ValueFits loose value)
    (hcomma : comma = [] ∨ comma = [',']) :
    uncomment (key.render ++ (colon ++ (value.render ++ (post ++ (comma ++ (tail ++ rest)))))) =
      quoted items ++ (uncomment colon ++ (uncomment value.render ++ (uncomment post ++
        (comma ++ (uncomment tail ++ uncomment rest))))) := by
  rw [hkey, Lit.render, uncomment_quoted, colon_whole hcolon, value_whole hvalue, hpost.whole,
    uncomment_plain (plain_comma hcomma), htail.whole]

theorem uncomment_item {comma : Text} {value : Jsonc} (hpost : Trivial post) (htail : Trivial tail)
    (hvalue : ValueFits loose value) (hcomma : comma = [] ∨ comma = [',']) :
    uncomment (value.render ++ (post ++ (comma ++ (tail ++ rest)))) =
      uncomment value.render ++
        (uncomment post ++ (comma ++ (uncomment tail ++ uncomment rest))) := by
  rw [value_whole hvalue, hpost.whole, uncomment_plain (plain_comma hcomma), htail.whole]

/-- White space and a comma or a bracket behind it. -/
theorem delimited_post {comma : Text} (hpost : Trivial post)
    (hcomma : comma = [','] ∨ comma = [] ∧ Delimited rest) :
    Delimited (uncomment post ++ (comma ++ rest)) := by
  refine delimited_append hpost.spaces ?_
  rcases hcomma with rfl | ⟨rfl, hrest⟩
  · exact ⟨',', rest, rfl, by decide⟩
  · exact hrest

/-- Nothing follows an entry without a comma. -/
theorem map_eq_nil_of_separated {α : Type} {comma : α → Text} {entries : List α}
    (h : Separated ([] :: entries.map comma)) : entries = [] := by
  cases entries with
  | nil => rfl
  | cons entry entries => cases h.1

theorem separated_tail : ∀ {c : Text} {cs : List Text}, Separated (c :: cs) → Separated cs
  | _, [], _ => trivial
  | _, _ :: _, h => h.2

theorem exact_cons {cs : List Text} (hne : cs ≠ []) (h : Exact cs) : Exact ([','] :: cs) := by
  cases cs with
  | nil => exact absurd rfl hne
  | cons c cs => exact ⟨rfl, h⟩

theorem close_object (within : List Bool) :
    step ⟨true :: within, .after⟩ '\x7d' = some ⟨within, .after⟩ := by
  simp [step, isSpace, afterValue]

theorem close_array (within : List Bool) :
    step ⟨false :: within, .after⟩ ']' = some ⟨within, .after⟩ := by
  simp [step, isSpace, afterValue]

theorem comma_object (within : List Bool) :
    step ⟨true :: within, .after⟩ ',' = some ⟨true :: within, .name false⟩ := by
  simp [step, isSpace, afterValue]

theorem comma_array (within : List Bool) :
    step ⟨false :: within, .after⟩ ',' = some ⟨false :: within, .value false⟩ := by
  simp [step, isSpace, afterValue]

/-- From behind the last value of a bracket's to behind the bracket. -/
theorem exec_last {inner : List Bool} {space : Text} {closer : Char} {r : Reader}
    (hpost : Trivial post) (htail : Trivial tail) (hspace : ∀ c ∈ space, isSpace c = true)
    (hclose : step ⟨inner, .after⟩ closer = some ⟨within, .after⟩)
    (h : exec step ⟨inner, .after⟩
      (uncomment post ++ ([] ++ (uncomment tail ++ ([] ++ (space ++ closer :: rest))))) = some r) :
    exec step ⟨within, .after⟩ rest = some r := by
  rw [exec_spaces (r := ⟨inner, .after⟩) trivial hpost.spaces, List.nil_append,
    exec_spaces (r := ⟨inner, .after⟩) trivial htail.spaces, List.nil_append,
    exec_spaces (r := ⟨inner, .after⟩) trivial hspace, exec_cons hclose] at h
  exact h

/-- From behind a value and over the comma to what follows. -/
theorem exec_more {next r : Reader} (hpost : Trivial post) (htail : Trivial tail)
    (hcomma : step ⟨within, .after⟩ ',' = some next) (hnext : next.phase.Waits)
    (h : exec step ⟨within, .after⟩
      (uncomment post ++ ([','] ++ (uncomment tail ++ rest))) = some r) :
    exec step next rest = some r := by
  rw [exec_spaces (r := ⟨within, .after⟩) trivial hpost.spaces, List.singleton_append,
    exec_cons hcomma, exec_spaces hnext htail.spaces] at h
  exact h

mutual

theorem value_read : ∀ {value : Jsonc}, ValueFits loose value →
    ∀ {within : List Bool} {empty : Bool} {rest : Text} {r : Reader}, Delimited rest →
      exec step ⟨within, .value empty⟩ (uncomment value.render ++ rest) = some r →
        ValueFits strict value ∧ exec step ⟨within, .after⟩ rest = some r
  | .obj _, h, _, _, _, _, _, hexec => obj_read h hexec
  | .arr _, h, _, _, _, _, _, hexec => arr_read h hexec
  | .lit (.str _ _), ⟨items, h⟩, within, empty, rest, r, _, hexec => by
    refine ⟨⟨items, h⟩, ?_⟩
    rw [Jsonc.render, Lit.render, h, uncomment_quoted_self] at hexec
    exact (exec_string within empty items rest).symm.trans hexec
  | .lit (.raw w), h, within, empty, rest, r, ⟨c, t, hrest, hc⟩, hexec => by
    rw [Jsonc.render, Lit.render, uncomment_eq_self (plain_rawWord h), exec_word h.1 h.2,
      hrest] at hexec
    by_cases hw : IsWord w
    · have hstep : step ⟨within, .word w⟩ c = step ⟨within, .after⟩ c :=
        Reader.Behind.step (.inr ⟨w, hw, rfl⟩) hc
      refine ⟨⟨h, hw⟩, ?_⟩
      rw [hrest]
      rw [exec, List.foldlM_cons, hstep] at hexec
      exact hexec
    · have hstep : step ⟨within, .word w⟩ c = none := by simp [step, hc, hw]
      rw [exec, List.foldlM_cons, hstep] at hexec
      cases hexec

theorem obj_read : ∀ {object : Obj}, ObjFits loose object →
    ∀ {within : List Bool} {empty : Bool} {rest : Text} {r : Reader},
      exec step ⟨within, .value empty⟩ (uncomment object.render ++ rest) = some r →
        ObjFits strict object ∧ exec step ⟨within, .after⟩ rest = some r
  | ⟨opening, members, close⟩, ⟨hopens, hcloses, hmembers, hcommas⟩, within, empty, rest, r,
      hexec => by
    obtain ⟨lead, rfl, hlead⟩ := id hopens
    obtain ⟨run, rfl, hrun⟩ := id hcloses
    have hstart : step ⟨within, .value empty⟩ '\x7b' =
        some ⟨true :: within, .name true⟩ := by
      simp [step, isSpace]
    rw [Obj.render, (opens_whole hopens (by decide)), members_whole hmembers hcommas,
      uncomment_opens (by decide), uncomment_closes hrun (by decide), List.cons_append,
      List.cons_append, exec_cons hstart, List.append_assoc,
      exec_spaces (r := ⟨true :: within, .name true⟩) trivial hlead.spaces] at hexec
    have hshape : uncomment (renderMembers members) ++ (uncomment run ++ ['\x7d']) ++ rest =
        uncomment (renderMembers members) ++ (uncomment run ++ '\x7d' :: rest) := by simp
    rw [hshape] at hexec
    obtain ⟨hstrict, hexact, -, hafter⟩ := members_read hmembers hcommas hrun.spaces hexec
    exact ⟨⟨hopens, hcloses, hstrict, hexact⟩, hafter⟩

theorem arr_read : ∀ {array : Arr}, ArrFits loose array →
    ∀ {within : List Bool} {empty : Bool} {rest : Text} {r : Reader},
      exec step ⟨within, .value empty⟩ (uncomment array.render ++ rest) = some r →
        ArrFits strict array ∧ exec step ⟨within, .after⟩ rest = some r
  | ⟨opening, items, close⟩, ⟨hopens, hcloses, hitems, hcommas⟩, within, empty, rest, r,
      hexec => by
    obtain ⟨lead, rfl, hlead⟩ := id hopens
    obtain ⟨run, rfl, hrun⟩ := id hcloses
    have hstart : step ⟨within, .value empty⟩ '[' = some ⟨false :: within, .value true⟩ := by
      simp [step, isSpace]
    rw [Arr.render, (opens_whole hopens (by decide)), items_whole hitems hcommas,
      uncomment_opens (by decide), uncomment_closes hrun (by decide), List.cons_append,
      List.cons_append, exec_cons hstart, List.append_assoc,
      exec_spaces (r := ⟨false :: within, .value true⟩) trivial hlead.spaces] at hexec
    have hshape : uncomment (renderItems items) ++ (uncomment run ++ [']']) ++ rest =
        uncomment (renderItems items) ++ (uncomment run ++ ']' :: rest) := by simp
    rw [hshape] at hexec
    obtain ⟨hstrict, hexact, -, hafter⟩ := items_read hitems hcommas hrun.spaces hexec
    exact ⟨⟨hopens, hcloses, hstrict, hexact⟩, hafter⟩

/-- With the bracket that closes them; a comma that the bracket follows is refused. -/
theorem members_read : ∀ {members : List Member}, MembersFit loose members →
    Separated (members.map Member.comma) →
    ∀ {within : List Bool} {empty : Bool} {space rest : Text} {r : Reader},
      (∀ c ∈ space, isSpace c = true) →
      exec step ⟨true :: within, .name empty⟩
        (uncomment (renderMembers members) ++ (space ++ '\x7d' :: rest)) = some r →
        MembersFit strict members ∧ Exact (members.map Member.comma) ∧
          (members = [] → empty = true) ∧ exec step ⟨within, .after⟩ rest = some r
  | [], _, _, within, empty, space, rest, r, hspace, hexec => by
    have hexec : exec step ⟨true :: within, .name empty⟩ (space ++ '\x7d' :: rest) =
        some r := hexec
    rw [exec_spaces (r := ⟨true :: within, .name empty⟩) trivial hspace] at hexec
    cases empty with
    | false =>
      have hstep : step ⟨true :: within, .name false⟩ '\x7d' = none := by
        simp [step, isSpace]
      rw [exec, List.foldlM_cons, hstep] at hexec
      cases hexec
    | true =>
      have hstep : step ⟨true :: within, .name true⟩ '\x7d' = some ⟨within, .after⟩ := by
        simp [step, isSpace, afterValue]
      rw [exec_cons hstep] at hexec
      exact ⟨trivial, trivial, fun _ => rfl, hexec⟩
  | ⟨key, colon, value, post, comma, tail⟩ :: members,
      ⟨⟨hkey, hcolon, hpost, htail⟩, hvalue, hmembers⟩, hcommas, within, empty, space, rest, r,
      hspace, hexec => by
    obtain ⟨items, name, hname⟩ := id hkey
    have hcomma := separated_mem hcommas comma (by simp)
    rw [renderMembers, uncomment_member hname hcolon hpost htail hvalue hcomma] at hexec
    simp only [List.append_assoc] at hexec
    have hread := exec_name (true :: within) empty items
    simp only [Lexeme.text, ← quoted.eq_1] at hread
    rw [hread, exec_colon hcolon] at hexec
    have hdelimited : Delimited (uncomment post ++ (comma ++ (uncomment tail ++
        (uncomment (renderMembers members) ++ (space ++ '\x7d' :: rest))))) := by
      refine delimited_post hpost ?_
      rcases hcomma with rfl | rfl
      · obtain rfl := map_eq_nil_of_separated hcommas
        have hclose : Delimited (space ++ '\x7d' :: rest) :=
          delimited_append hspace ⟨'\x7d', rest, rfl, by decide⟩
        exact .inr ⟨rfl, delimited_append htail.spaces hclose⟩
      · exact .inl rfl
    obtain ⟨hstrict, hafter⟩ := value_read hvalue hdelimited hexec
    rcases hcomma with rfl | rfl
    · obtain rfl := map_eq_nil_of_separated hcommas
      have hclosed := exec_last hpost htail hspace (close_object within) hafter
      exact ⟨⟨⟨hkey, hcolon, hpost, htail⟩, hstrict, trivial⟩, rfl, by simp, hclosed⟩
    · have hnext := exec_more hpost htail (comma_object within) trivial hafter
      obtain ⟨hothers, hexact, hne, hclosed⟩ :=
        members_read hmembers (separated_tail hcommas) hspace hnext
      refine ⟨⟨⟨hkey, hcolon, hpost, htail⟩, hstrict, hothers⟩, ?_, by simp, hclosed⟩
      exact exact_cons (fun hnil => by cases hne (List.map_eq_nil_iff.mp hnil)) hexact

theorem items_read : ∀ {items : List ArrItem}, ItemsFit loose items →
    Separated (items.map ArrItem.comma) →
    ∀ {within : List Bool} {empty : Bool} {space rest : Text} {r : Reader},
      (∀ c ∈ space, isSpace c = true) →
      exec step ⟨false :: within, .value empty⟩
        (uncomment (renderItems items) ++ (space ++ ']' :: rest)) = some r →
        ItemsFit strict items ∧ Exact (items.map ArrItem.comma) ∧
          (items = [] → empty = true) ∧ exec step ⟨within, .after⟩ rest = some r
  | [], _, _, within, empty, space, rest, r, hspace, hexec => by
    have hexec : exec step ⟨false :: within, .value empty⟩ (space ++ ']' :: rest) = some r :=
      hexec
    rw [exec_spaces (r := ⟨false :: within, .value empty⟩) trivial hspace] at hexec
    cases empty with
    | false =>
      have hstep : step ⟨false :: within, .value false⟩ ']' = none := by
        simp [step, isSpace]
      rw [exec, List.foldlM_cons, hstep] at hexec
      cases hexec
    | true =>
      have hstep : step ⟨false :: within, .value true⟩ ']' = some ⟨within, .after⟩ := by
        simp [step, isSpace, afterValue]
      rw [exec_cons hstep] at hexec
      exact ⟨trivial, trivial, fun _ => rfl, hexec⟩
  | ⟨value, post, comma, tail⟩ :: items, ⟨⟨hpost, htail⟩, hvalue, hitems⟩, hcommas, within, empty,
      space, rest, r, hspace, hexec => by
    have hcomma := separated_mem hcommas comma (by simp)
    rw [renderItems, uncomment_item hpost htail hvalue hcomma] at hexec
    simp only [List.append_assoc] at hexec
    have hdelimited : Delimited (uncomment post ++ (comma ++ (uncomment tail ++
        (uncomment (renderItems items) ++ (space ++ ']' :: rest))))) := by
      refine delimited_post hpost ?_
      rcases hcomma with rfl | rfl
      · obtain rfl := map_eq_nil_of_separated hcommas
        have hclose : Delimited (space ++ ']' :: rest) :=
          delimited_append hspace ⟨']', rest, rfl, by decide⟩
        exact .inr ⟨rfl, delimited_append htail.spaces hclose⟩
      · exact .inl rfl
    obtain ⟨hstrict, hafter⟩ := value_read hvalue hdelimited hexec
    rcases hcomma with rfl | rfl
    · obtain rfl := map_eq_nil_of_separated hcommas
      have hclosed := exec_last hpost htail hspace (close_array within) hafter
      exact ⟨⟨⟨hpost, htail⟩, hstrict, trivial⟩, rfl, by simp, hclosed⟩
    · have hnext := exec_more hpost htail (comma_array within) trivial hafter
      obtain ⟨hothers, hexact, hne, hclosed⟩ :=
        items_read hitems (separated_tail hcommas) hspace hnext
      refine ⟨⟨⟨hpost, htail⟩, hstrict, hothers⟩, ?_, by simp, hclosed⟩
      exact exact_cons (fun hnil => by cases hne (List.map_eq_nil_iff.mp hnil)) hexact

end

theorem lexemes_spaces (h : ∀ c ∈ t, isSpace c = true) : ∃ ls, text ls = t ∧ tokens ls = [] := by
  induction t with
  | nil => exact ⟨[], rfl, rfl⟩
  | cons c t ih =>
    obtain ⟨ls, htext, htokens⟩ := ih (fun d hd => h d (List.mem_cons_of_mem _ hd))
    refine ⟨.space c (h c (by simp)) :: ls, ?_, htokens⟩
    rw [text_cons, htext]
    rfl

theorem tokens_append (a b : List Lexeme) : tokens (a ++ b) = tokens a ++ tokens b :=
  List.filter_append a b

/-- Lexemes that make up a text and whose tokens are as `P` says. -/
def Lexed (t : Text) (P : List Lexeme → Prop) : Prop := ∃ ls, text ls = t ∧ P (tokens ls)

theorem lexed_spaces (h : ∀ c ∈ t, isSpace c = true) : Lexed t (· = []) :=
  lexemes_spaces h

theorem lexed_nil : Lexed [] (· = []) := ⟨[], rfl, rfl⟩

theorem lexed_append {a b : Text} {R : List Lexeme → Prop} (ha : Lexed a P) (hb : Lexed b Q)
    (h : ∀ x y, P x → Q y → R (x ++ y)) : Lexed (a ++ b) R := by
  obtain ⟨ls, rfl, hls⟩ := ha
  obtain ⟨ms, rfl, hms⟩ := hb
  refine ⟨ls ++ ms, text_append ls ms, ?_⟩
  rw [tokens_append]
  exact h _ _ hls hms

theorem lexed_mark (m : Mark) : Lexed [m.char] (· = [.mark m]) := ⟨[.mark m], rfl, rfl⟩

theorem lexed_space_before {a b : Text} (ha : ∀ c ∈ a, isSpace c = true) (hb : Lexed b P) :
    Lexed (a ++ b) P :=
  lexed_append (lexed_spaces ha) hb (fun _ y hx hy => by
    rw [hx]
    exact hy)

theorem lexed_space_after {a b : Text} (ha : Lexed a P) (hb : ∀ c ∈ b, isSpace c = true) :
    Lexed (a ++ b) P :=
  lexed_append ha (lexed_spaces hb) (fun x _ hx hy => by
    rw [hy, List.append_nil]
    exact hx)

theorem lexed_string (items : List Item) : Lexed (quoted items) (· = [.string items]) :=
  ⟨[.string items], by simp [text, Lexeme.text, quoted], rfl⟩

theorem lexed_colon (h : Colon colon) : Lexed (uncomment colon) (· = [.mark .colon]) := by
  obtain ⟨pre, post, rfl, hpre, hpost⟩ := h
  rw [hpre.whole, uncomment_opens (by decide)]
  exact lexed_space_before hpre.spaces
    (lexed_space_after (b := uncomment post) (lexed_mark .colon) hpost.spaces)

theorem lexed_behind (ht : Lexed t P) (hpost : Trivial post) (htail : Trivial tail) :
    Lexed (t ++ (uncomment post ++ ([] ++ (uncomment tail ++ uncomment [])))) P := by
  refine lexed_space_after ht (fun c hc => ?_)
  simp only [List.nil_append, uncomment, List.append_nil, List.mem_append] at hc
  exact hc.elim (hpost.spaces c) (htail.spaces c)

theorem lexed_between (ht : Lexed t P) (hpost : Trivial post) (htail : Trivial tail)
    (hrest : Lexed rest Q) :
    Lexed (t ++ (uncomment post ++ ([','] ++ (uncomment tail ++ rest))))
      (fun toks => ∃ x y, toks = x ++ .mark .comma :: y ∧ P x ∧ Q y) := by
  refine lexed_append ht (lexed_space_before hpost.spaces
    (lexed_append (lexed_mark .comma) (lexed_space_before htail.spaces hrest)
      (R := fun toks => ∃ y, toks = .mark .comma :: y ∧ Q y) ?_)) ?_
  · rintro _ y rfl hy
    exact ⟨y, rfl, hy⟩
  · rintro x _ hx ⟨y, rfl, hy⟩
    exact ⟨x, y, rfl, hx, hy⟩

/-- A key in front of what its member holds. -/
theorem lexed_keyed (items : List Item) (hcolon : Colon colon) (ht : Lexed t P) :
    Lexed (quoted items ++ (uncomment colon ++ t))
      (fun toks => ∃ x, toks = .string items :: .mark .colon :: x ∧ P x) := by
  refine lexed_append (lexed_string items) (lexed_append (lexed_colon hcolon) ht
    (R := fun toks => ∃ x, toks = .mark .colon :: x ∧ P x) ?_) ?_
  · rintro _ x rfl hx
    exact ⟨x, rfl, hx⟩
  · rintro _ _ rfl ⟨x, rfl, hx⟩
    exact ⟨x, rfl, hx⟩

/-- What stands between two brackets. -/
theorem lexed_brackets {lead body run : Text} (opener closer : Mark) (hlead : Trivial lead)
    (hrun : Trivial run) (hbody : Lexed body P)
    (h : ∀ x, P x → Q (.mark opener :: (x ++ [.mark closer]))) :
    Lexed (opener.char :: (uncomment lead ++ (body ++ (uncomment run ++ [closer.char])))) Q := by
  have hclosed : Lexed (body ++ (uncomment run ++ [closer.char]))
      (fun toks => ∃ x, P x ∧ toks = x ++ [.mark closer]) :=
    lexed_append hbody (lexed_space_before hrun.spaces (lexed_mark closer))
      (fun x y hx hy => ⟨x, hx, by rw [hy]⟩)
  refine lexed_append (lexed_mark opener) (lexed_space_before hlead.spaces hclosed) ?_
  rintro x y rfl ⟨z, hz, rfl⟩
  exact h z hz

mutual

theorem value_lexed : ∀ {value : Jsonc}, ValueFits strict value →
    Lexed (uncomment value.render) (fun toks => ∃ v, IsValue toks v)
  | .obj _, h => obj_lexed h
  | .arr _, h => arr_lexed h
  | .lit (.str _ _), ⟨items, h⟩ => by
    rw [Jsonc.render, Lit.render, h, uncomment_quoted_self]
    obtain ⟨ls, htext, htokens⟩ := lexed_string items
    refine ⟨ls, htext, .string (units items), ?_⟩
    rw [htokens]
    exact IsValue.string items
  | .lit (.raw w), ⟨hraw, hword⟩ => by
    rw [Jsonc.render, Lit.render, uncomment_eq_self (plain_rawWord hraw)]
    obtain ⟨-, l, v, hv, rfl⟩ := hword
    have htokens : tokens [l] = [l] := by
      cases l with
      | space c hc => nomatch hv
      | _ => rfl
    refine ⟨[l], by simp [text], v, ?_⟩
    rwa [htokens]

theorem obj_lexed : ∀ {object : Obj}, ObjFits strict object →
    Lexed (uncomment object.render) (fun toks => ∃ v, IsValue toks v)
  | ⟨opening, members, close⟩, ⟨hopens, hcloses, hmembers, hcommas⟩ => by
    obtain ⟨lead, rfl, hlead⟩ := id hopens
    obtain ⟨run, rfl, hrun⟩ := id hcloses
    have hloose := membersFit_mono strict_stricter hmembers
    rw [Obj.render, opens_whole hopens (by decide),
      members_whole hloose (separated_of_exact hcommas), uncomment_opens (by decide),
      uncomment_closes hrun (by decide), List.cons_append]
    cases members with
    | nil =>
      refine lexed_brackets .openObject .closeObject hlead hrun lexed_nil ?_
      rintro x rfl
      exact ⟨_, .emptyObject⟩
    | cons member members =>
      refine lexed_brackets .openObject .closeObject hlead hrun
        (members_lexed (List.cons_ne_nil _ _) hmembers hcommas) ?_
      rintro x ⟨ms, hx⟩
      exact ⟨_, .object hx⟩

theorem arr_lexed : ∀ {array : Arr}, ArrFits strict array →
    Lexed (uncomment array.render) (fun toks => ∃ v, IsValue toks v)
  | ⟨opening, items, close⟩, ⟨hopens, hcloses, hitems, hcommas⟩ => by
    obtain ⟨lead, rfl, hlead⟩ := id hopens
    obtain ⟨run, rfl, hrun⟩ := id hcloses
    have hloose := itemsFit_mono strict_stricter hitems
    rw [Arr.render, opens_whole hopens (by decide),
      items_whole hloose (separated_of_exact hcommas), uncomment_opens (by decide),
      uncomment_closes hrun (by decide), List.cons_append]
    cases items with
    | nil =>
      refine lexed_brackets .openArray .closeArray hlead hrun lexed_nil ?_
      rintro x rfl
      exact ⟨_, .emptyArray⟩
    | cons item items =>
      refine lexed_brackets .openArray .closeArray hlead hrun
        (items_lexed (List.cons_ne_nil _ _) hitems hcommas) ?_
      rintro x ⟨vs, hx⟩
      exact ⟨_, .array hx⟩

theorem members_lexed : ∀ {members : List Member}, members ≠ [] → MembersFit strict members →
    Exact (members.map Member.comma) →
    Lexed (uncomment (renderMembers members)) (fun toks => ∃ ms, IsMembers toks ms)
  | [], hne, _, _ => absurd rfl hne
  | ⟨key, colon, value, post, comma, tail⟩ :: members, _,
      ⟨⟨⟨items, name, hkey⟩, hcolon, hpost, htail⟩, hvalue, hmembers⟩, hcommas => by
    have hcomma := separated_mem (separated_of_exact hcommas) comma (by simp)
    rw [renderMembers, uncomment_member hkey hcolon hpost htail
      (valueFits_mono strict_stricter hvalue) hcomma]
    cases members with
    | nil =>
      obtain rfl : comma = [] := hcommas
      obtain ⟨ls, htext, x, hls, v, hv⟩ :=
        lexed_keyed items hcolon (lexed_behind (value_lexed hvalue) hpost htail)
      refine ⟨ls, htext, [(units items, v)], ?_⟩
      rw [hls]
      exact .last items hv
    | cons second members =>
      obtain ⟨rfl, hrest⟩ := hcommas
      have hothers := members_lexed (List.cons_ne_nil second members) hmembers hrest
      obtain ⟨ls, htext, _, hls, x, y, rfl, ⟨v, hv⟩, ⟨ms, hms⟩⟩ :=
        lexed_keyed items hcolon (lexed_between (value_lexed hvalue) hpost htail hothers)
      refine ⟨ls, htext, (units items, v) :: ms, ?_⟩
      rw [hls]
      exact .more items hv hms

theorem items_lexed : ∀ {items : List ArrItem}, items ≠ [] → ItemsFit strict items →
    Exact (items.map ArrItem.comma) →
    Lexed (uncomment (renderItems items)) (fun toks => ∃ vs, IsElements toks vs)
  | [], hne, _, _ => absurd rfl hne
  | ⟨value, post, comma, tail⟩ :: items, _, ⟨⟨hpost, htail⟩, hvalue, hitems⟩, hcommas => by
    have hcomma := separated_mem (separated_of_exact hcommas) comma (by simp)
    rw [renderItems, uncomment_item hpost htail (valueFits_mono strict_stricter hvalue) hcomma]
    cases items with
    | nil =>
      obtain rfl : comma = [] := hcommas
      obtain ⟨ls, htext, v, hv⟩ := lexed_behind (value_lexed hvalue) hpost htail
      exact ⟨ls, htext, _, .last hv⟩
    | cons second items =>
      obtain ⟨rfl, hrest⟩ := hcommas
      have hothers := items_lexed (List.cons_ne_nil second items) hitems hrest
      obtain ⟨ls, htext, x, y, hls, ⟨v, hv⟩, ⟨vs, hvs⟩⟩ :=
        lexed_between (value_lexed hvalue) hpost htail hothers
      refine ⟨ls, htext, v :: vs, ?_⟩
      rw [hls]
      exact .more hv hvs

end

theorem uncomment_root {root : JsoncRoot} (hlead : Trivial root.lead)
    (hroot : ObjFits loose root.root) : uncomment root.render =
      uncomment root.lead ++ (uncomment root.root.render ++ uncomment root.trail) := by
  rw [JsoncRoot.render, hlead.whole, obj_whole hroot]

/-- A document is JSON without its comments where its tree keeps JSON's rules. -/
theorem isText_iff_strict {root : JsoncRoot} (hlead : Trivial root.lead)
    (hroot : ObjFits loose root.root) (htrail : ∀ c ∈ uncomment root.trail, isSpace c = true) :
    IsText (uncomment root.render) ↔ ObjFits strict root.root := by
  rw [uncomment_root hlead hroot]
  constructor
  · intro h
    obtain ⟨r, hexec, -⟩ := h.read
    rw [exec_spaces (r := ⟨[], .value false⟩) trivial hlead.spaces] at hexec
    exact (obj_read hroot hexec).1
  · intro h
    obtain ⟨ls, htext, v, hv⟩ :=
      lexed_space_before hlead.spaces (lexed_space_after (obj_lexed h) htrail)
    exact ⟨ls, v, htext, hv⟩

end Detent.Guarantees.KeaJson
