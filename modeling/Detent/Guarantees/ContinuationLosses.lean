import Detent.Guarantees.Continuations

/-!
# The edits that reach a continued line

The converse of `editEntries_continued`. Removing every entry takes apart a
continued line that ends in one, or shortens one that an empty line closes; a new
entry after an open end of the file, or a new section after an open line at the
end of a section, is swallowed.
-/
namespace Detent.Guarantees.ContinuationLosses
open Lib Lib.Text Lib.LogicalLines Source.Doc
open Guarantees.Alignment DocShape PlanMerge
open EntryPlans CanonicalDocuments EntryEdits
open Continuations
open List (append_assoc append_nil cons_append map_append map_cons mem_filter mem_map mem_map_of_mem
  nil_append zipIdx_cons)

variable {T : Type} {format : Format T} {line : Line} {raw : Text}

/-- The carriage returns of a line do not change its entry. -/
theorem entryOf_body (hlawful : format.Lawful) (h : Sound format.classify line) :
    entryOf format.parseEntry line =
      if format.classify (lineBody line) = .directive then format.parseEntry (lineBody line)
      else none := by
  obtain ⟨hclassify, hparse⟩ := hlawful.body_eq h.noBreak
  rw [entryOf, h.kind, lineBody, hclassify, hparse]

theorem entryOf_of_body_eq (hlawful : format.Lawful) {other : Line} (h : Sound format.classify line)
    (hother : Sound format.classify other) (hbody : lineBody line = lineBody other) :
    entryOf format.parseEntry line = entryOf format.parseEntry other := by
  rw [entryOf_body hlawful h, entryOf_body hlawful hother, hbody]

section Emptied

variable {doc : Document} {plan : EntryPlan} {places : List (Placement T)}

/-- Without a wanted entry, the plan removes every entry line and nothing else. -/
theorem emptied_plan [DecidableEq T]
    (h : Planned doc [] format.parseEntry format.render format.opensSection plan places) :
    plan.replace = [] ∧ plan.insert = [] ∧ ∀ row, row ∈ plan.remove ↔ entryAt format doc.lines row := by
  obtain rfl : places = [] := by simpa using h.entries
  refine ⟨h.replace, h.insert, fun row => ?_⟩
  rw [entryAt_iff, ← h.all.mem_iff]
  simp

theorem rowTexts_emptied (hreplace : plan.replace = []) (hinsert : plan.insert = [])
    (line : Line) (row : Nat) :
    (rowTexts doc plan (line, row)).2 = if row ∈ plan.remove then [] else [line.raw] := by
  rw [rowTexts, atRow, settled, hreplace, hinsert]
  by_cases hrow : row ∈ plan.remove
  · rw [if_pos ((List.mem_insertionSort _).mpr hrow), if_pos hrow]
    rfl
  · rw [if_neg (fun hin => hrow ((List.mem_insertionSort _).mp hin)), if_neg hrow,
      List.insertionSort_nil, List.lookup_nil, map_append, List.map_singleton, terminated_raw]
    rfl

theorem tailTexts_emptied (hinsert : plan.insert = []) : tailTexts doc plan = [] := by
  rw [tailTexts, hinsert]
  rfl

theorem mem_emptied [DecidableEq T] (hone : AtMostOne plan)
    (h : Planned doc [] format.parseEntry format.render format.opensSection plan places)
    (hmem : line ∈ merged doc plan) :
    ∃ row old, doc.lines[row]? = some old ∧ old.raw = line.raw ∧ ¬ entryAt format doc.lines row := by
  obtain ⟨hreplace, hinsert, hremove⟩ := emptied_plan h
  have hraw : line.raw ∈ (merged doc plan).map (·.raw) := mem_map_of_mem hmem
  rw [merged_raws hone, tailTexts_emptied hinsert, append_nil, List.flatMap_map] at hraw
  obtain ⟨⟨old, row⟩, hold, hin⟩ := List.mem_flatMap.mp hraw
  rw [rowTexts_emptied hreplace hinsert] at hin
  have hget : doc.lines[row]? = some old := List.mk_mem_zipIdx_iff_getElem?.mp hold
  by_cases hrow : row ∈ plan.remove
  · simp [hrow] at hin
  · rw [if_neg hrow, List.mem_singleton] at hin
    exact ⟨row, old, hget, hin.symm, fun hentry => hrow ((hremove row).mpr hentry)⟩

end Emptied

section Applied

variable {doc : Document} {plan : EntryPlan}

/-- The lines that `apply_plan` hands to `normalize`. -/
def finished (doc : Document) (plan : EntryPlan) : List Line :=
  if endsUnterminated doc.lines then setLastEnding (merged doc plan) .none else merged doc plan

theorem applied_lines : (doc.applyPlan plan).1.lines = normalize (finished doc plan) := rfl

theorem finished_raws : (finished doc plan).map (·.raw) = (merged doc plan).map (·.raw) := by
  unfold finished
  by_cases hun : endsUnterminated doc.lines = true
  · rw [if_pos hun]
    cases hlast : (merged doc plan).getLast? with
    | none => rw [setLastEnding, hlast]
    | some last =>
      rw [setLastEnding_eq hlast]
      conv_rhs => rw [← dropLast_append_last hlast]
      simp
  · rw [if_neg hun]

theorem map_lineBody (lines : List Line) : lines.map lineBody = (lines.map (·.raw)).map body := by
  rw [List.map_map]
  rfl

theorem finished_bodies : (finished doc plan).map lineBody = (merged doc plan).map lineBody := by
  rw [map_lineBody, map_lineBody, finished_raws]

theorem mem_applied {text : Text} (h : text ∈ (doc.applyPlan plan).1.lines.map lineBody) :
    text ∈ (merged doc plan).map lineBody := by
  rw [applied_lines] at h
  rw [← finished_bodies]
  rcases bodies_normalize (finished doc plan) with hsame | ⟨init, last, hsplit, _, _, hdrop⟩
  · rwa [hsame] at h
  · rw [hdrop] at h
    rw [hsplit, map_append]
    exact List.mem_append_left _ h

/-- Two lines that follow each other stay, unless the second is dropped as empty. -/
theorem applied_pair {before after : List Text} {line next : Text} (hnext : next ≠ [])
    (h : (merged doc plan).map (·.raw) = before ++ line :: next :: after) :
    ∃ after', (doc.applyPlan plan).1.lines.map lineBody =
      before.map body ++ body line :: body next :: after' := by
  rw [← finished_raws] at h
  have hbodies : (finished doc plan).map lineBody =
      before.map body ++ body line :: body next :: after.map body := by
    rw [map_lineBody, h]
    simp
  rw [applied_lines]
  rcases bodies_normalize (finished doc plan) with hsame | ⟨init, last, hsplit, _, hraw, hdrop⟩
  · exact ⟨after.map body, hsame.trans hbodies⟩
  · rw [hsplit, map_append, List.map_singleton, hraw] at h
    rcases List.eq_nil_or_concat after with rfl | ⟨rest, final, rfl⟩
    · have hlast := congrArg List.getLast? h
      simp only [List.getLast?_append, List.getLast?_singleton, List.getLast?_cons_cons,
        Option.some_or, Option.some.injEq] at hlast
      exact absurd hlast.symm hnext
    · rw [List.concat_eq_append, show before ++ line :: next :: (rest ++ [final]) =
        (before ++ line :: next :: rest) ++ [final] by simp] at h
      refine ⟨rest.map body, ?_⟩
      rw [hdrop, map_lineBody, (List.append_inj' h rfl).1]
      simp

end Applied

section Losses

variable {doc : Document} {plan : EntryPlan} {places : List (Placement T)}

theorem split_at {lines : List Line} {row : Nat} {next : Line} (hline : lines[row]? = some line)
    (hnext : lines[row + 1]? = some next) :
    lines = lines.take row ++ line :: next :: lines.drop (row + 2) := by
  obtain ⟨hlt, hget⟩ := List.getElem?_eq_some_iff.mp hnext
  obtain ⟨_, hget'⟩ := List.getElem?_eq_some_iff.mp hline
  rw [← hget, ← hget', ← List.drop_eq_getElem_cons hlt, ← List.drop_eq_getElem_cons,
    List.take_append_drop]

theorem entry_taken [DecidableEq T] (hlawful : format.Lawful) (hsound : ∀ line ∈ doc.lines, Sound format.classify line)
    (hone : AtMostOne plan)
    (h : Planned doc [] format.parseEntry format.render format.opensSection plan places) {row : Nat}
    (hjoins : joinsAt doc.lines row) (hentry : entryAt format doc.lines (row + 1)) :
    continued ((doc.applyPlan plan).1.lines.map lineBody) ≠ continued (doc.lines.map lineBody) := by
  intro hsame
  obtain ⟨line, hline, hjoin⟩ := hjoins
  obtain ⟨next, entry, hnext, hparse⟩ := hentry
  have hsplit : doc.lines.map lineBody = (doc.lines.take row).map lineBody ++
      lineBody line :: lineBody next :: (doc.lines.drop (row + 2)).map lineBody := by
    conv_lhs => rw [split_at hline hnext]
    simp
  obtain ⟨group, hgroup, hmem⟩ : ∃ group ∈ continued (doc.lines.map lineBody),
      lineBody next ∈ group := by
    rw [hsplit]
    exact mem_continuedFrom_next hjoin
  rw [← hsame] at hgroup
  have hleft := mem_applied ((mem_of_mem_continuedFrom hgroup hmem).resolve_left (by simp))
  obtain ⟨kept, hkept, hbody⟩ := mem_map.mp hleft
  obtain ⟨row', old, hold, hraw, hnot⟩ := mem_emptied hone h hkept
  refine hnot ⟨old, entry, hold, ?_⟩
  rw [← hparse]
  apply entryOf_of_body_eq hlawful (hsound old (List.mem_of_getElem? hold))
    (hsound next (List.mem_of_getElem? hnext))
  rw [← hbody, lineBody, lineBody, hraw]

theorem flatMap_removed (hreplace : plan.replace = []) (hinsert : plan.insert = [])
    (lines : List Line) (row : Nat)
    (hall : ∀ later, row ≤ later → later < row + lines.length → later ∈ plan.remove) :
    ((lines.zipIdx row).map (rowTexts doc plan)).flatMap (·.2) = [] := by
  rw [List.flatMap_map, List.flatMap_eq_nil_iff]
  intro ⟨line, later⟩ hmem
  have hge := List.le_snd_of_mem_zipIdx hmem
  have hlt := List.snd_lt_add_of_mem_zipIdx hmem
  rw [rowTexts_emptied hreplace hinsert, if_pos (hall later hge hlt)]

/-- An empty line that closes a continued one goes with the unterminated entries
after it. -/
theorem close_dropped [DecidableEq T] (hlawful : format.Lawful)
    (hsound : ∀ line ∈ doc.lines, Sound format.classify line) (hone : AtMostOne plan)
    (h : Planned doc [] format.parseEntry format.render format.opensSection plan places)
    (hentries : ∀ row, joinsAt doc.lines row → ¬ entryAt format doc.lines (row + 1)) {row : Nat}
    (hclose : EmptyClose format doc.lines row) :
    continued ((doc.applyPlan plan).1.lines.map lineBody) ≠ continued (doc.lines.map lineBody) := by
  obtain ⟨hreplace, hinsert, hremove⟩ := emptied_plan h
  obtain ⟨⟨line, hline, hjoin⟩, hempty, hlen, hlater, hun⟩ := hclose
  obtain ⟨next, hnext, hraw⟩ := Option.map_eq_some_iff.mp hempty
  have hkeep : KeepsJoins doc.lines plan := by
    refine ⟨fun other hmem => ?_, by simp [hreplace], by simp [hinsert]⟩
    have hentry := (hremove other).mp hmem
    refine ⟨not_joinsAt_of_entryAt hlawful hsound hentry, ?_⟩
    rintro ⟨before, rfl, hjoins⟩
    exact hentries before hjoins hentry
  rw [← merged_continued hone hkeep (by simp [hinsert])]
  -- the two lines are the last ones left
  have hstay : row ∉ plan.remove := fun hmem =>
    (hkeep.removed row hmem).1 ⟨line, hline, hjoin⟩
  have hstay' : row + 1 ∉ plan.remove := fun hmem =>
    (hkeep.removed (row + 1) hmem).2 ⟨row, rfl, line, hline, hjoin⟩
  have hzip : doc.lines.zipIdx = (doc.lines.take row).zipIdx ++
      (line, row) :: (next, row + 1) :: (doc.lines.drop (row + 2)).zipIdx (row + 2) := by
    conv_lhs => rw [split_at hline hnext]
    rw [List.zipIdx_append, zipIdx_cons, zipIdx_cons, List.length_take,
      Nat.min_eq_left (by omega), Nat.zero_add]
  have hgone : (((doc.lines.drop (row + 2)).zipIdx (row + 2)).map (rowTexts doc plan)).flatMap (·.2) =
      [] := by
    apply flatMap_removed hreplace hinsert
    intro later hge hlt
    rw [List.length_drop] at hlt
    exact (hremove later).mpr (hlater later hge (by omega))
  have hraws : (merged doc plan).map (·.raw) =
      (((doc.lines.take row).zipIdx.map (rowTexts doc plan)).flatMap (·.2) ++ [line.raw]) ++ [[]] := by
    rw [merged_raws hone, tailTexts_emptied hinsert, hzip, map_append, List.flatMap_append,
      map_cons, map_cons, List.flatMap_cons, List.flatMap_cons,
      rowTexts_emptied hreplace hinsert, rowTexts_emptied hreplace hinsert, if_neg hstay,
      if_neg hstay', hraw, hgone]
    simp only [append_nil, append_assoc, cons_append, nil_append]
  obtain ⟨init, last, hmerged, hlast⟩ : ∃ init last, merged doc plan = init ++ [last] ∧
      last.raw = [] := by
    rcases List.eq_nil_or_concat (merged doc plan) with hnil | ⟨init, last, hconcat⟩
    · rw [hnil] at hraws
      simp at hraws
    · rw [List.concat_eq_append] at hconcat
      rw [hconcat, map_append] at hraws
      exact ⟨init, last, hconcat, by simpa using (List.append_inj' hraws rfl).2⟩
  rw [hmerged, map_append] at hraws
  have hinit := (List.append_inj' hraws rfl).1
  -- the ending of the empty line is taken away, and with it the line
  have hdropped : (doc.applyPlan plan).1.lines.map lineBody = init.map lineBody := by
    have hfinished : finished doc plan = init ++ [{ last with ending := .none }] := by
      have hget : (merged doc plan).getLast? = some last := by rw [hmerged]; simp
      rw [finished, if_pos hun, setLastEnding_eq hget, hmerged, List.dropLast_concat]
    rw [applied_lines, hfinished]
    exact bodies_normalize_concat init rfl hlast
  intro hsame
  have hopen : (init.map lineBody).getLast? = some (lineBody line) := by
    rw [map_lineBody, hinit]
    simp [lineBody]
  have hlonger : (continuedFrom [] (init.map lineBody)).flatten.length <
      (continuedFrom [] (init.map lineBody ++ [[]])).flatten.length :=
    continuedFrom_concat_ne rfl ⟨lineBody line, hopen, hjoin⟩
  have hbody : [last].map lineBody = [[]] := by
    rw [List.map_singleton, lineBody, hlast]
    rfl
  rw [hdropped, hmerged, map_append, hbody, continued, continued] at hsame
  rw [hsame] at hlonger
  omega

theorem insert_at {place row : Nat} (hinsert : plan.insert = [(place, raw)]) :
    (fresh doc.classify (dominantEnding doc.lines)
      ((plan.insert.insertionSort (fun a b => a.1 ≤ b.1)).filter
        (fun x => decide (x.1 = row)))).map (·.raw) = if place = row then [raw] else [] := by
  rw [fresh_raws, hinsert, List.insertionSort_cons, List.insertionSort_nil, List.orderedInsert_nil]
  by_cases hrow : place = row
  all_goals simp [hrow]

/-- One new line right after an open one follows it in the edited document. -/
theorem insert_follows (hone : AtMostOne plan) {row : Nat}
    (hinsert : plan.insert = [(row + 1, raw)]) (hline : doc.lines[row]? = some line)
    (hremove : row ∉ plan.remove) (hreplace : row ∉ plan.replace.map (·.1)) :
    ∃ before after, (merged doc plan).map (·.raw) = before ++ line.raw :: raw :: after := by
  obtain ⟨hlt, hget⟩ := List.getElem?_eq_some_iff.mp hline
  have hzip : doc.lines.zipIdx = (doc.lines.take row).zipIdx ++
      (line, row) :: (doc.lines.drop (row + 1)).zipIdx (row + 1) := by
    conv_lhs => rw [← List.take_append_drop row doc.lines, List.drop_eq_getElem_cons hlt, hget]
    rw [List.zipIdx_append, zipIdx_cons, List.length_take, Nat.min_eq_left (by omega),
      Nat.zero_add]
  have hrow : (rowTexts doc plan (line, row)).2 = [line.raw] := by
    have hnone : (plan.replace.insertionSort (fun a b => a.1 ≤ b.1)).lookup row = none := by
      rw [List.lookup_eq_none_iff]
      intro x hx
      rw [bne_iff_ne]
      rintro rfl
      exact hreplace (mem_map_of_mem ((List.mem_insertionSort _).mp hx))
    rw [rowTexts, atRow, map_append, insert_at hinsert, if_neg (by omega), settled,
      if_neg (fun hin => hremove ((List.mem_insertionSort _).mp hin)), hnone, rewritten,
      List.map_singleton, terminated_raw]
    rfl
  rw [merged_raws hone, hzip, map_append, List.flatMap_append, map_cons,
    List.flatMap_cons, hrow]
  cases hrest : doc.lines.drop (row + 1) with
  | nil =>
    have hlen : doc.lines.length = row + 1 := by
      have := List.drop_eq_nil_iff.mp hrest
      omega
    have htail : tailTexts doc plan = [raw] := by
      rw [tailTexts, hinsert, List.insertionSort_cons, List.insertionSort_nil,
        List.orderedInsert_nil]
      simp [hlen]
    simp only [htail, List.zipIdx_nil, List.map_nil, List.flatMap_nil, append_assoc,
      cons_append, nil_append]
    exact ⟨_, [], rfl⟩
  | cons next rest =>
    have hnext : ∃ own, (rowTexts doc plan (next, row + 1)).2 = raw :: own := by
      rw [rowTexts, atRow, map_append, insert_at hinsert, if_pos rfl]
      exact ⟨_, rfl⟩
    obtain ⟨own, hown⟩ := hnext
    simp only [zipIdx_cons, map_cons, List.flatMap_cons, hown, append_assoc,
      cons_append, nil_append]
    exact ⟨_, _, rfl⟩

/-- A new entry right after an open line becomes part of a continued line. -/
theorem insert_swallowed (hlawful : format.Lawful)
    (hsound : ∀ line ∈ doc.lines, Sound format.classify line) (hone : AtMostOne plan) {row : Nat}
    {entry : T} (hinsert : plan.insert = [(row + 1, raw)])
    (htouched : ∀ other ∈ plan.replace.map (·.1) ++ plan.remove, entryAt format doc.lines other)
    (hjoins : joinsAt doc.lines row) (hbreak : '\n' ∉ raw) (hrender : format.render entry = .ok raw)
    (hfresh : entry ∉ (entryRows doc.lines format.parseEntry).map (·.2)) :
    continued ((doc.applyPlan plan).1.lines.map lineBody) ≠ continued (doc.lines.map lineBody) := by
  intro hsame
  have huntouched : row ∉ plan.replace.map (·.1) ++ plan.remove :=
    fun hmem => not_joinsAt_of_entryAt hlawful hsound (htouched row hmem) hjoins
  rw [List.mem_append, not_or] at huntouched
  obtain ⟨line, hline, hjoin⟩ := hjoins
  obtain ⟨hkind, hparse⟩ := hlawful.rendered entry raw hrender
  have hne : raw ≠ [] := by
    rintro rfl
    exact hlawful.empty hkind
  obtain ⟨before, after, hraws⟩ := insert_follows hone hinsert hline huntouched.2 huntouched.1
  obtain ⟨after', happlied⟩ := applied_pair hne hraws
  obtain ⟨group, hgroup, hmem⟩ : ∃ group ∈ continued ((doc.applyPlan plan).1.lines.map lineBody),
      body raw ∈ group := by
    rw [happlied]
    exact mem_continuedFrom_next hjoin
  rw [hsame] at hgroup
  have hold := (mem_of_mem_continuedFrom hgroup hmem).resolve_left (by simp)
  obtain ⟨old, hmem', hbody⟩ := mem_map.mp hold
  have hentry : entryOf format.parseEntry old = some entry := by
    obtain ⟨hclassify, hparse'⟩ := hlawful.body_eq hbreak
    rw [entryOf_body hlawful (hsound old hmem'), hbody, hclassify, hparse', if_pos hkind, hparse]
  obtain ⟨row', hrow'⟩ := List.mem_iff_getElem?.mp hmem'
  exact hfresh (mem_map.mpr ⟨(row', entry), mem_entryRows.mpr ⟨old, hrow', hentry⟩, rfl⟩)

end Losses

section OneInsert

variable {render : T → Except EditError Text} {wanted : List T} {rows : List Nat}

/-- A run of kept entries leaves the plan alone. -/
theorem settleSteps_equals (n i j : Nat) (plan : EntryPlan) (slots : List Slot) (rest : List Step)
    (hlen : i + n ≤ rows.length) :
    settleSteps rows wanted render (equals i j n ++ rest) [] [] plan slots =
      settleSteps rows wanted render rest [] [] plan
        (slots ++ ((rows.drop i).take n).map Slot.line) := by
  induction n generalizing i j slots with
  | zero => simp [equals]
  | succ n ih =>
    have hlt : i < rows.length := by omega
    have hrow : rows[i]? = some rows[i] := List.getElem?_eq_getElem hlt
    have hsame : ({ plan with remove := plan.remove ++ [] } : EntryPlan) = plan := by simp
    rw [equals, cons_append, settleSteps, settleRun, hsame]
    simp only [bind, Except.bind, pure, Except.pure, hrow, Option.map_some, Option.toList_some]
    rw [ih (i + 1) (j + 1) _ (by omega), List.drop_eq_getElem_cons hlt, List.take_succ_cons,
      map_cons, append_assoc]
    rfl

/-- One new entry before a run of kept ones gets a slot of its own. -/
theorem settleSteps_insert (n i j : Nat) (plan : EntryPlan) (slots : List Slot) {item : T}
    (hlen : i + n ≤ rows.length) (hitem : wanted[j]? = some item) (hrender : render item = .ok raw)
    (hcheck : checkRaw raw = .ok ()) :
    settleSteps rows wanted render (.insert j :: equals i (j + 1) n) [] [] plan slots =
      .ok (plan, slots ++ .new raw :: ((rows.drop i).take n).map Slot.line) := by
  have hsame : ({ plan with remove := plan.remove ++ [] } : EntryPlan) = plan := by simp
  have hrun : settleRun render [] [item] plan slots = .ok (plan, slots ++ [.new raw]) := by
    rw [settleRun, hrender]
    simp only [bind, Except.bind, hcheck]
    rw [settleRun, hsame]
    rfl
  rw [settleSteps, hitem, Option.toList_some, nil_append]
  cases n with
  | zero =>
    rw [equals, settleSteps, hrun]
    simp
  | succ n =>
    have hlt : i < rows.length := by omega
    have hrow : rows[i]? = some rows[i] := List.getElem?_eq_getElem hlt
    have hrest : settleSteps rows wanted render (equals (i + 1) (j + 1 + 1) n) [] [] plan
        (slots ++ [.new raw] ++ [.line rows[i]]) = .ok (plan, slots ++ [.new raw] ++ [.line rows[i]] ++
          ((rows.drop (i + 1)).take n).map Slot.line) := by
      rw [← append_nil (equals (i + 1) (j + 1 + 1) n), settleSteps_equals _ _ _ _ _ _ (by omega),
        settleSteps, settleRun, hsame]
      rfl
    rw [equals, settleSteps, hrun]
    simp only [bind, Except.bind, hrow, Option.map_some, Option.toList_some]
    rw [hrest, List.drop_eq_getElem_cons hlt, List.take_succ_cons, map_cons]
    simp only [append_assoc, cons_append, nil_append]

theorem nextRow_lines (rows : List Nat) : nextRow (rows.map Slot.line) = rows.head? := by
  cases rows with
  | nil | cons => rfl

theorem placeSlots_lines (lines : List Line) (opensSection : Text → Bool) (rows : List Nat)
    (rest : List Slot) (place : Option Nat) (insert : List (Nat × Text)) :
    placeSlots lines opensSection (rows.map Slot.line ++ rest) place insert =
      placeSlots lines opensSection rest
        (rows.getLast?.elim place (fun row => some (row + 1))) insert := by
  induction rows generalizing place with
  | nil => rfl
  | cons row rows ih =>
    rw [map_cons, cons_append, placeSlots, ih]
    cases rows with
    | nil => rfl
    | cons next rows => rw [List.getLast?_cons_cons, List.getLast?_eq_some_getLast (by simp)]; rfl

variable [DecidableEq T] {doc : Document}

/-- The plan of one new entry: a line at one place. -/
theorem planEntries_insert {before after : List (Nat × T)} {item : T} {last : Nat}
    (hfound : entryRows doc.lines format.parseEntry = before ++ after)
    (hlast : (before.map (·.1)).getLast? = some last)
    (hfresh : item ∉ (entryRows doc.lines format.parseEntry).map (·.2))
    (hrender : format.render item = .ok raw) (hcheck : checkRaw raw = .ok ()) :
    doc.planEntries (before.map (·.2) ++ item :: after.map (·.2)) format.parseEntry format.render
        format.opensSection =
      .ok { insert := [(if format.opensSection raw then
        sectionEnd doc.lines (last + 1) ((after.map (·.1)).head?.getD doc.lines.length)
          format.opensSection
        else last + 1, raw)] } := by
  rw [hfound, map_append] at hfresh
  have halign := alignOrReplace_insert (before.map (·.2)) (after.map (·.2)) hfresh
  have hbefore : (before.map (·.2)).length = before.length := List.length_map _
  have hafter : (after.map (·.2)).length = after.length := List.length_map _
  rw [hbefore, hafter] at halign
  have hitem : (before.map (·.2) ++ item :: after.map (·.2))[before.length]? = some item := by
    rw [List.getElem?_append_right (by simp), List.length_map, Nat.sub_self]
    rfl
  have hsettle : settleSteps ((before ++ after).map (·.1))
      (before.map (·.2) ++ item :: after.map (·.2)) format.render
      (equals 0 0 before.length ++ .insert before.length ::
        equals before.length (before.length + 1) after.length) [] [] {} [] =
      .ok ({}, (before.map (·.1)).map Slot.line ++ .new raw :: (after.map (·.1)).map Slot.line) := by
    have hfirst : (((before ++ after).map (·.1)).drop 0).take before.length = before.map (·.1) := by
      simp
    have hrest : (((before ++ after).map (·.1)).drop before.length).take after.length =
        after.map (·.1) := by
      rw [map_append, List.drop_left' (by simp), List.take_of_length_le (by simp)]
    rw [settleSteps_equals _ _ _ _ _ _ (by simp), settleSteps_insert _ _ _ _ _ (by simp) hitem hrender
      hcheck, hfirst, hrest]
    simp only [nil_append]
  have hplace : placeSlots doc.lines format.opensSection
      ((before.map (·.1)).map Slot.line ++ .new raw :: (after.map (·.1)).map Slot.line) none [] =
      [(if format.opensSection raw then
        sectionEnd doc.lines (last + 1) ((after.map (·.1)).head?.getD doc.lines.length)
          format.opensSection
        else last + 1, raw)] := by
    have hrest := placeSlots_lines doc.lines format.opensSection (after.map (·.1)) []
    rw [append_nil] at hrest
    rw [placeSlots_lines, hlast, Option.elim_some, placeSlots, nextRow_lines, hrest]
    rfl
  have hsteps : Source.Align.alignOrReplace ((before ++ after).map (·.2))
      (before.map (·.2) ++ item :: after.map (·.2)) = equals 0 0 before.length ++
        .insert before.length :: equals before.length (before.length + 1) after.length := by
    rw [map_append]
    exact halign
  simp only [Document.planEntries, hfound, hsteps, hsettle, bind, Except.bind, pure, Except.pure,
    hplace]

end OneInsert

section Headers

theorem le_getLast_of_pairwise {l : List Nat} (h : l.Pairwise (· < ·)) {last n : Nat}
    (hlast : l.getLast? = some last) (hmem : n ∈ l) : n ≤ last := by
  obtain ⟨init, rfl⟩ := List.getLast?_eq_some_iff.mp hlast
  rcases List.mem_append.mp hmem with hmem | hmem
  · exact Nat.le_of_lt ((List.pairwise_append.mp h).2.2 n hmem last (by simp))
  · rw [List.mem_singleton.mp hmem]

theorem head_le_of_pairwise {l : List Nat} (h : l.Pairwise (· < ·)) {n limit : Nat} (hmem : n ∈ l) :
    l.head?.getD limit ≤ n := by
  cases l with
  | nil => cases hmem
  | cons head l =>
    rcases List.mem_cons.mp hmem with rfl | hmem
    · exact Nat.le_refl _
    · exact Nat.le_of_lt ((List.pairwise_cons.mp h).1 n hmem)

variable {lines : List Line} {first row stop : Nat}

theorem not_entryAt_of_space {other : Nat} (hspace : spaceAt lines other) :
    ¬ entryAt format lines other := by
  rintro ⟨line, entry, hline, hentry⟩
  obtain ⟨same, hsame, hkind⟩ := hspace
  obtain rfl : line = same := Option.some.inj (hline.symm.trans hsame)
  have hnot : line.kind ≠ .directive := by
    rcases hkind with hkind | hkind
    all_goals simp [hkind]
  rw [entryOf, if_neg hnot] at hentry
  cases hentry

/-- Where a new section after the last entry before `row` would go. -/
theorem header_place (hlawful : format.Lawful)
    (hsound : ∀ line ∈ lines, Sound format.classify line)
    (h : HeaderAfter format lines first row stop) :
    ∃ before after last, entryRows lines format.parseEntry = before ++ after ∧
      (before.map (·.1)).getLast? = some last ∧
      sectionEnd lines (last + 1) ((after.map (·.1)).head?.getD lines.length) format.opensSection =
        row + 1 := by
  have hincreasing := entryRows_increasing lines format.parseEntry
  have hsplit := split_below ((List.pairwise_map.mp hincreasing).imp Nat.le_of_lt) row
  generalize hbefore : (entryRows lines format.parseEntry).filter (fun x => decide (x.1 < row)) =
    before at hsplit
  generalize hafter : (entryRows lines format.parseEntry).filter (fun x => decide (row ≤ x.1)) =
    after at hsplit
  rw [hsplit, map_append, List.pairwise_append] at hincreasing
  have hin : ∀ other, entryAt format lines other → other < row → other ∈ before.map (·.1) := by
    intro other hentry hlt
    obtain ⟨x, hx, rfl⟩ := mem_map.mp (entryAt_iff.mp hentry)
    rw [← hbefore]
    exact mem_map_of_mem (mem_filter.mpr ⟨hx, decide_eq_true hlt⟩)
  have hin' : ∀ other, entryAt format lines other → row ≤ other → other ∈ after.map (·.1) := by
    intro other hentry hle
    obtain ⟨x, hx, rfl⟩ := mem_map.mp (entryAt_iff.mp hentry)
    rw [← hafter]
    exact mem_map_of_mem (mem_filter.mpr ⟨hx, decide_eq_true hle⟩)
  have hfirst := hin first h.entry h.before
  obtain ⟨last, hlast⟩ : ∃ last, (before.map (·.1)).getLast? = some last :=
    ⟨_, List.getLast?_eq_some_getLast (List.ne_nil_of_mem hfirst)⟩
  have hlow := le_getLast_of_pairwise hincreasing.1 hlast hfirst
  have hlt : last < row := by
    obtain ⟨x, hx, rfl⟩ := mem_map.mp (List.mem_of_getLast? hlast)
    rw [← hbefore] at hx
    exact of_decide_eq_true (mem_filter.mp hx).2
  refine ⟨before, after, last, hsplit, hlast, ?_⟩
  -- no entry stands between the last one and `stop`
  have hnone : ∀ other, last < other → other < stop → ¬ entryAt format lines other := by
    intro other hgt hlt' hentry
    rcases Nat.lt_trichotomy other row with hbelow | rfl | habove
    · have := le_getLast_of_pairwise hincreasing.1 hlast (hin other hentry hbelow)
      omega
    · exact not_joinsAt_of_entryAt hlawful hsound hentry h.open_
    · exact not_entryAt_of_space (h.space other habove hlt') hentry
  obtain ⟨limit, hlimit⟩ : ∃ limit, (after.map (·.1)).head?.getD lines.length = limit := ⟨_, rfl⟩
  have hends : limit = lines.length ∨ (entryAt format lines limit ∧ row ≤ limit) := by
    rw [← hlimit]
    cases hhead : (after.map (·.1)).head? with
    | none => exact .inl rfl
    | some next =>
      obtain ⟨x, hx, rfl⟩ := mem_map.mp (List.mem_of_head? hhead)
      rw [← hafter, mem_filter] at hx
      exact .inr ⟨entryAt_iff.mpr (mem_map_of_mem hx.1), of_decide_eq_true hx.2⟩
  have hstop : stop ≤ limit := by
    have hinside := h.inside
    rcases hends with rfl | ⟨hentry, hge⟩
    · exact hinside
    · by_contra hgt
      exact hnone limit (by omega) (by omega) hentry
  have hfirstLimit : ∀ other, entryAt format lines other → row ≤ other → limit ≤ other := by
    intro other hentry hle
    rw [← hlimit]
    exact head_le_of_pairwise hincreasing.2.1 (hin' other hentry hle)
  rw [hlimit]
  have hafter' := h.after
  obtain ⟨stop', hle, hbound, hopens, hclosed, hspace, hend⟩ :=
    sectionEnd_spec format lines (show last + 1 ≤ limit by omega)
  have hsame : stop' = stop := by
    rcases Nat.lt_trichotomy stop' stop with hless | heq | hmore
    · rcases hopens with rfl | hopens
      · omega
      · by_cases hgt : last < stop'
        · exact absurd hopens (h.section_ stop' (by omega) hless)
        · rcases hend with hend | ⟨other, hother, hge, _⟩
          all_goals omega
    · exact heq
    · rcases h.ends with hfile | hopens' | hentry
      · rcases hends with rfl | ⟨hentry, _⟩
        · omega
        · have := entryAt_lt hentry
          omega
      · exact absurd hopens' (hclosed stop (by omega) hmore)
      · have := hfirstLimit stop hentry (by omega)
        omega
  rw [hsame] at hbound hspace
  -- the retreat stops at the open line
  have hge : row + 1 ≤ sectionEnd lines (last + 1) limit format.opensSection := by
    by_contra hless
    exact h.text (hspace row (by omega) h.after)
  rcases hend with hend | ⟨other, hother, _, htext⟩
  · omega
  · by_contra hne
    exact htext (h.space other (by omega) (by omega))

end Headers

section Exact

variable [DecidableEq T] {src : Text}

/-- The edits of a text keep its continued lines. -/
def EditsKeep (format : Format T) (src : Text) : Prop :=
  ∀ wanted doc report, (parse src format.classify).editEntries wanted format.parseEntry format.render
    format.opensSection = .ok (doc, report) →
      continued (physicalLines doc.render) = continued (physicalLines src)

/-- There is always an entry that a file does not have. -/
def FreshEntries (format : Format T) : Prop :=
  ∀ avoid : List T, ∃ entry raw, entry ∉ avoid ∧ format.render entry = .ok raw ∧
    checkRaw raw = .ok ()

def FreshHeaders (format : Format T) : Prop :=
  ∀ avoid : List T, ∃ entry raw, entry ∉ avoid ∧ format.render entry = .ok raw ∧
    checkRaw raw = .ok () ∧ format.opensSection raw = true

theorem not_editsKeep (hlawful : format.Lawful) {wanted : List T} {plan : EntryPlan}
    (hplan : (parse src format.classify).planEntries wanted format.parseEntry format.render
      format.opensSection = .ok plan)
    (hlost : continued (((parse src format.classify).applyPlan plan).1.lines.map lineBody) ≠
      continued ((parse src format.classify).lines.map lineBody)) : ¬ EditsKeep format src := by
  intro hkeep
  have hedit : (parse src format.classify).editEntries wanted format.parseEntry format.render
      format.opensSection = .ok ((parse src format.classify).applyPlan plan) := by
    rw [Document.editEntries, hplan]
    rfl
  have hsame : continued (physicalLines ((parse src format.classify).applyPlan plan).1.render) =
      continued (physicalLines src) := hkeep wanted _ _ hedit
  rw [physicalLines_of_canonical (hlawful.edited_canonical hplan),
    physicalLines_eq src format.classify] at hsame
  exact hlost hsame

omit [DecidableEq T] in
theorem sound_of_parse (src : Text) (format : Format T) :
    ∀ line ∈ (parse src format.classify).lines, Sound format.classify line :=
  ((canonical_iff _).mp (parse_canonical src format.classify)).1.sound

theorem planEntries_nil (doc : Document) : ∃ plan places,
    doc.planEntries [] format.parseEntry format.render format.opensSection = .ok plan ∧
      Planned doc [] format.parseEntry format.render format.opensSection plan places := by
  have hplain : RendersPlain format.render [] := by
    nofun
  obtain ⟨plan, hplan⟩ := planEntries_ok doc format.parseEntry format.opensSection hplain
  obtain ⟨places, hplanned⟩ := planEntries_spec hplan
  exact ⟨plan, places, hplan, hplanned⟩

theorem apart_of_editsKeep (hlawful : format.Lawful) (hfresh : FreshEntries format)
    (h : EditsKeep format src) : Apart format (parse src format.classify).lines := by
  have hsound := sound_of_parse src format
  obtain ⟨plan, places, hplan, hplanned⟩ := @planEntries_nil T format _ (parse src format.classify)
  have hone := planEntries_atMostOne hplan
  have hentries : ∀ row, joinsAt (parse src format.classify).lines row →
      ¬ entryAt format (parse src format.classify).lines (row + 1) := by
    intro row hjoins hentry
    exact not_editsKeep hlawful hplan (entry_taken hlawful hsound hone hplanned hjoins hentry) h
  refine ⟨hentries, fun hnone row hrow hjoins => ?_, fun row hclose => ?_⟩
  · -- a first entry goes to the end of the file
    obtain ⟨entry, raw, _, hrender, hcheck⟩ := hfresh []
    have hfound : entryRows (parse src format.classify).lines format.parseEntry = [] := by
      by_contra hne
      obtain ⟨x, hx⟩ := List.exists_mem_of_ne_nil _ hne
      exact hnone x.1 (entryAt_iff.mpr (mem_map_of_mem hx))
    have hfirst : (parse src format.classify).planEntries [entry] format.parseEntry format.render
        format.opensSection = .ok { insert := [(row + 1, raw)] } := by
      have hsettle : settleSteps [] [entry] format.render [.insert 0] [] [] {} [] =
          .ok ({}, [.new raw]) :=
        settleSteps_insert 0 0 0 {} [] (Nat.zero_le 0) rfl hrender hcheck
      have halign : Source.Align.alignOrReplace [] [entry] = [.insert 0] :=
        alignOrReplace_insert [] [] (by simp)
      simp only [Document.planEntries, hfound, List.map_nil, halign, hsettle, bind, Except.bind, pure,
        Except.pure, placeSlots, nextRow, Option.getD_none, nil_append, ← hrow]
    refine not_editsKeep hlawful hfirst ?_ h
    refine insert_swallowed hlawful hsound (planEntries_atMostOne hfirst) rfl (by simp) hjoins
      (clean_of_checkRaw hcheck).1 hrender ?_
    rw [hfound]
    simp
  · exact not_editsKeep hlawful hplan
      (close_dropped hlawful hsound hone hplanned hentries hclose) h

theorem headersClear_of_editsKeep (hlawful : format.Lawful) (hfresh : FreshHeaders format)
    (h : EditsKeep format src) : HeadersClear format (parse src format.classify).lines := by
  intro first row stop hheader
  have hsound := sound_of_parse src format
  obtain ⟨before, after, last, hfound, hlast, hplace⟩ := header_place hlawful hsound hheader
  obtain ⟨entry, raw, hentry, hrender, hcheck, hopens⟩ :=
    hfresh ((entryRows (parse src format.classify).lines format.parseEntry).map (·.2))
  have hplan := planEntries_insert hfound hlast hentry hrender hcheck
  rw [if_pos hopens, hplace] at hplan
  exact not_editsKeep hlawful hplan (insert_swallowed hlawful hsound (planEntries_atMostOne hplan) rfl
    (by simp) hheader.open_ (clean_of_checkRaw hcheck).1 hrender hentry) h

end Exact

end Detent.Guarantees.ContinuationLosses
