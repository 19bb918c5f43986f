import Detent.Lib.Text

/-!
# Logical lines

A physical line that ends in a backslash is joined with the next one. A logical
line is the list of the physical lines it joins; `continued` are those of more
than one. Line terminators and the carriage returns before them are no part of a
physical line.
-/
namespace Detent.Lib.LogicalLines
open Lib Lib.Text

/-- A line without its terminator. -/
def body (line : Text) : Text := line.rdropWhile (fun c => c == '\n' || c == '\r')

def physicalLines (text : Text) : List Text := (linesInclusive text).map body

/-- The line is joined with the next one. -/
def joins (line : Text) : Bool := line.getLast? == some '\\'

/-- The logical lines of the lines left, after the `opened` ones that end in a
backslash. -/
def logicalFrom : List Text → List Text → List (List Text)
  | opened, [] => if opened = [] then [] else [opened]
  | opened, line :: lines =>
    if joins line then logicalFrom (opened ++ [line]) lines
    else (opened ++ [line]) :: logicalFrom [] lines

/-- The logical lines that span more than one physical line. -/
def continuedFrom (opened lines : List Text) : List (List Text) :=
  (logicalFrom opened lines).filter (fun group => decide (2 ≤ group.length))

def continued (lines : List Text) : List (List Text) := continuedFrom [] lines

theorem body_append_break (line : Text) {c : Char} (hc : c = '\n' ∨ c = '\r') :
    body (line ++ [c]) = body line := by
  apply List.rdropWhile_concat_pos
  rcases hc with rfl | rfl
  · decide
  · decide

variable {line : Text}

theorem body_eq_self (hlast : line.getLast? ≠ some '\n' ∧ line.getLast? ≠ some '\r') :
    body line = line := by
  rw [body, List.rdropWhile_eq_self_iff]
  intro hne
  rw [List.getLast?_eq_some_getLast hne] at hlast
  simp only [ne_eq, Option.some.injEq] at hlast
  simp [hlast]

section Continued

variable {opened lines : List Text}

theorem continuedFrom_joins (h : joins line = true) :
    continuedFrom opened (line :: lines) = continuedFrom (opened ++ [line]) lines := by
  rw [continuedFrom, logicalFrom, if_pos h]
  rfl

theorem continuedFrom_ends (h : joins line = false) :
    continuedFrom opened (line :: lines) =
      (if opened = [] then [] else [opened ++ [line]]) ++ continuedFrom [] lines := by
  rw [continuedFrom, logicalFrom, if_neg (by simp [h]), List.filter_cons]
  cases opened with
  | nil => rfl
  | cons first opened => simp [continuedFrom]

/-- Lines that join nothing are no part of a continued one. -/
theorem continuedFrom_plain {fresh : List Text} (h : ∀ line ∈ fresh, joins line = false) :
    continuedFrom [] (fresh ++ lines) = continuedFrom [] lines := by
  induction fresh with
  | nil => rfl
  | cons line fresh ih =>
    rw [List.cons_append, continuedFrom_ends (h line (by simp)),
      ih (fun other hmem => h other (by simp [hmem]))]
    rfl

section Rows

variable {α : Type} (text : α → Text)

/-- What an edit leaves of one line: the line itself, and unless the line before
joins it, new lines before it or in its place. -/
def RowKept (opened : Bool) (line : α) (out : List α) : Prop :=
  out = [line] ∨ (opened = false ∧ ∃ fresh, (∀ new ∈ fresh, joins (text new) = false) ∧
    (out = fresh ++ [line] ∨ (joins (text line) = false ∧ out = fresh)))

/-- Every row is left in such a way, and nothing new follows an open end. -/
def RowsKept : Bool → List (α × List α) → List α → Prop
  | opened, [], tail => (∀ new ∈ tail, joins (text new) = false) ∧ (opened = true → tail = [])
  | opened, (line, out) :: rows, tail =>
    RowKept text opened line out ∧ RowsKept (joins (text line)) rows tail

variable {text}

/-- An edit that keeps every row keeps the continued lines. -/
theorem continuedFrom_rows (opened : List Text) (rows : List (α × List α)) (tail : List α)
    (h : RowsKept text (!opened.isEmpty) rows tail) :
    continuedFrom opened ((rows.flatMap (·.2) ++ tail).map text) =
      continuedFrom opened ((rows.map (·.1)).map text) := by
  induction rows generalizing opened with
  | nil =>
    cases opened with
    | nil =>
      have hplain : ∀ line ∈ tail.map text, joins line = false := by
        intro line hmem
        obtain ⟨new, hnew, rfl⟩ := List.mem_map.mp hmem
        exact h.1 new hnew
      have hall : continuedFrom [] (tail.map text ++ []) = continuedFrom [] [] :=
        continuedFrom_plain hplain
      simpa using hall
    | cons first opened =>
      have htail : tail = [] := h.2 rfl
      simp [htail]
  | cons row rows ih =>
    obtain ⟨line, out⟩ := row
    obtain ⟨hrow, hrows⟩ := h
    -- the line itself, with the rest kept
    have hline : ∀ opened : List Text,
        continuedFrom opened (text line :: (rows.flatMap (·.2) ++ tail).map text) =
          continuedFrom opened (text line :: (rows.map (·.1)).map text) := by
      intro opened
      by_cases hjoins : joins (text line) = true
      · rw [continuedFrom_joins hjoins, continuedFrom_joins hjoins]
        refine ih (opened ++ [text line]) ?_
        have hne : (opened ++ [text line]).isEmpty = false := by simp
        rw [hjoins] at hrows
        rw [hne]
        exact hrows
      · rw [Bool.not_eq_true] at hjoins
        rw [hjoins] at hrows
        rw [continuedFrom_ends hjoins, continuedFrom_ends hjoins, ih [] hrows]
    have hnew : ∀ fresh : List α, (∀ new ∈ fresh, joins (text new) = false) →
        ∀ lines, continuedFrom [] ((fresh ++ lines).map text) = continuedFrom [] (lines.map text) := by
      intro fresh hfresh lines
      rw [List.map_append]
      apply continuedFrom_plain
      intro new hmem
      obtain ⟨old, hold, rfl⟩ := List.mem_map.mp hmem
      exact hfresh old hold
    rw [List.flatMap_cons, List.map_cons, List.append_assoc]
    rcases hrow with rfl | ⟨hclosed, fresh, hfresh, rfl | ⟨hjoins, rfl⟩⟩
    · exact hline opened
    · obtain rfl : opened = [] := by simpa using hclosed
      rw [List.append_assoc, hnew fresh hfresh]
      exact hline []
    · obtain rfl : opened = [] := by simpa using hclosed
      rw [hjoins] at hrows
      rw [hnew out hfresh, List.map_cons, continuedFrom_ends hjoins, if_pos rfl, List.nil_append]
      exact ih [] hrows

/-- Where the last line that is left follows one that joins it, the two stood so
before, and every row after them is gone. -/
theorem rowsKept_open_end {opened : Bool} {rows : List (α × List α)} {tail init : List α}
    {line last : α} (h : RowsKept text opened rows tail)
    (hout : rows.flatMap (·.2) ++ tail = init ++ [line, last]) (hline : joins (text line) = true) :
    ∃ before after out, rows = before ++ (line, out) :: (last, [last]) :: after ∧
      ∀ row ∈ after, row.2 = [] := by
  induction rows generalizing opened init with
  | nil =>
    rw [List.flatMap_nil, List.nil_append] at hout
    rw [h.1 line (by rw [hout]; simp)] at hline
    cases hline
  | cons row rows ih =>
    obtain ⟨old, out⟩ := row
    obtain ⟨hrow, hrows⟩ := h
    rw [List.flatMap_cons, List.append_assoc] at hout
    -- a line that joins can only be the old one, at the end of what the row leaves
    have hold : ∀ lines, out = lines ++ [line] → old = line := by
      intro lines hlines
      rcases hrow with rfl | ⟨_, fresh, hfresh, rfl | ⟨_, rfl⟩⟩
      · simpa using congrArg List.getLast? hlines
      · simpa using congrArg List.getLast? hlines
      · rw [hfresh line (by rw [hlines]; simp)] at hline
        cases hline
    have hnot : ∀ lines new, out ≠ lines ++ [line, new] := by
      intro lines new hlines
      have hmem : ∀ fresh : List α, fresh ++ [old] = lines ++ [line, new] → line ∈ fresh := by
        intro fresh heq
        rw [show lines ++ [line, new] = (lines ++ [line]) ++ [new] by simp] at heq
        rw [(List.append_inj' heq rfl).1]
        simp
      rcases hrow with rfl | ⟨_, fresh, hfresh, rfl | ⟨_, rfl⟩⟩
      · have := hmem [] hlines
        cases this
      · rw [hfresh line (hmem fresh hlines)] at hline
        cases hline
      · rw [hfresh line (by rw [hlines]; simp)] at hline
        cases hline
    rcases List.append_eq_append_iff.mp hout with ⟨more, hinit, hrest⟩ | ⟨more, hmore, hrest⟩
    · obtain ⟨before, after, out', hsplit, hafter⟩ := ih hrows hrest
      exact ⟨(old, out) :: before, after, out', by rw [hsplit]; rfl, hafter⟩
    · match more, hrest with
      | [], hrest =>
        obtain ⟨before, after, out', hsplit, hafter⟩ :=
          ih hrows (show _ = [] ++ [line, last] from hrest.symm)
        exact ⟨(old, out) :: before, after, out', by rw [hsplit]; rfl, hafter⟩
      | [first], hrest =>
        obtain ⟨rfl, hlast⟩ : line = first ∧ [last] = rows.flatMap (·.2) ++ tail := by
          simpa using hrest
        obtain rfl := hold init hmore
        rw [hline] at hrows
        match rows, hrows, hlast with
        | [], hrows, hlast =>
          rw [hrows.2 rfl] at hlast
          cases hlast
        | (next, nextOut) :: rows, hrows, hlast =>
          rcases hrows.1 with rfl | ⟨hopened, _⟩
          · rw [List.flatMap_cons, List.append_assoc, List.singleton_append,
              List.cons.injEq] at hlast
            obtain ⟨rfl, hnil⟩ := hlast
            refine ⟨[], rows, out, rfl, fun row hmem => ?_⟩
            have hgone := List.flatMap_eq_nil_iff.mp (List.append_eq_nil_iff.mp hnil.symm).1
            exact hgone row hmem
          · cases hopened
      | first :: second :: more, hrest =>
        obtain ⟨rfl, rfl, hnil⟩ : line = first ∧ last = second ∧
            [] = more ++ (rows.flatMap (·.2) ++ tail) := by simpa using hrest
        obtain ⟨rfl, _⟩ := List.append_eq_nil_iff.mp hnil.symm
        exact absurd hmore (hnot init last)

end Rows

/-- Every line of a continued one is a line of the text or was open before. -/
theorem mem_of_mem_continuedFrom {group : List Text} (hgroup : group ∈ continuedFrom opened lines)
    (hline : line ∈ group) : line ∈ opened ∨ line ∈ lines := by
  induction lines generalizing opened with
  | nil =>
    by_cases hopened : opened = []
    · simp [continuedFrom, logicalFrom, hopened] at hgroup
    · simp only [continuedFrom, logicalFrom, hopened, if_false, List.mem_filter,
        List.mem_singleton] at hgroup
      exact .inl (hgroup.1 ▸ hline)
  | cons head lines ih =>
    by_cases hjoins : joins head = true
    · rw [continuedFrom_joins hjoins] at hgroup
      have := ih hgroup
      simp only [List.mem_append, List.mem_cons] at this ⊢
      tauto
    · rw [Bool.not_eq_true] at hjoins
      rw [continuedFrom_ends hjoins, List.mem_append] at hgroup
      rcases hgroup with hgroup | hgroup
      · by_cases hopened : opened = []
        · simp [hopened] at hgroup
        · rw [if_neg hopened, List.mem_singleton] at hgroup
          rw [hgroup] at hline
          simp only [List.mem_append, List.mem_cons] at hline ⊢
          tauto
      · have := ih hgroup
        simp only [List.not_mem_nil, false_or] at this
        exact .inr (List.mem_cons_of_mem _ this)

/-- The line after one that ends in a backslash is part of a continued line. -/
theorem mem_continuedFrom_next {before after : List Text} {next : Text}
    (hjoins : joins line = true) :
    ∃ group ∈ continuedFrom opened (before ++ line :: next :: after), next ∈ group := by
  induction before generalizing opened with
  | nil =>
    rw [List.nil_append, continuedFrom_joins hjoins]
    by_cases hnext : joins next = true
    · rw [continuedFrom_joins hnext]
      -- the open lines grow until one ends without a backslash
      have hgrow : ∀ (after opened : List Text), next ∈ opened → 2 ≤ opened.length →
          ∃ group ∈ continuedFrom opened after, next ∈ group := by
        intro after
        induction after with
        | nil =>
          intro opened hmem hlen
          have hne : opened ≠ [] := List.ne_nil_of_mem hmem
          exact ⟨opened, by simp [continuedFrom, logicalFrom, hne, hlen], hmem⟩
        | cons head after ih =>
          intro opened hmem hlen
          by_cases hhead : joins head = true
          · rw [continuedFrom_joins hhead]
            exact ih (opened ++ [head]) (by simp [hmem]) (by simp; omega)
          · rw [Bool.not_eq_true] at hhead
            rw [continuedFrom_ends hhead, if_neg (List.ne_nil_of_mem hmem)]
            exact ⟨opened ++ [head], by simp, by simp [hmem]⟩
      exact hgrow after _ (by simp) (by simp)
    · rw [Bool.not_eq_true] at hnext
      rw [continuedFrom_ends hnext, if_neg (by simp)]
      exact ⟨opened ++ [line] ++ [next], by simp, by simp⟩
  | cons head before ih =>
    rw [List.cons_append]
    by_cases hhead : joins head = true
    · rw [continuedFrom_joins hhead]
      exact ih
    · rw [Bool.not_eq_true] at hhead
      have hlater : ∃ group ∈ continuedFrom [] (before ++ line :: next :: after), next ∈ group := ih
      obtain ⟨group, hgroup, hmem⟩ := hlater
      rw [continuedFrom_ends hhead]
      exact ⟨group, List.mem_append_right _ hgroup, hmem⟩

/-- A last line that nothing joins is no part of a continued one. -/
theorem continuedFrom_concat_plain {last : Text} (hlast : joins last = false)
    (hopened : lines = [] → opened = []) (hbefore : ∀ line, lines.getLast? = some line →
      joins line = false) :
    continuedFrom opened (lines ++ [last]) = continuedFrom opened lines := by
  induction lines generalizing opened with
  | nil =>
    rw [hopened rfl, List.nil_append, continuedFrom_ends hlast]
    rfl
  | cons head lines ih =>
    have hrest : ∀ line, lines.getLast? = some line → joins line = false := by
      intro line hline
      exact hbefore line (by rw [List.getLast?_cons, hline]; rfl)
    rw [List.cons_append]
    by_cases hhead : joins head = true
    · rw [continuedFrom_joins hhead, continuedFrom_joins hhead]
      apply ih _ hrest
      rintro rfl
      rw [hbefore head rfl] at hhead
      cases hhead
    · rw [Bool.not_eq_true] at hhead
      rw [continuedFrom_ends hhead, continuedFrom_ends hhead, ih (fun _ => rfl) hrest]

/-- Closing the last open line makes the continued lines longer. -/
theorem continuedFrom_concat_ne {last : Text} (hlast : joins last = false)
    (hbefore : ∃ line, lines.getLast? = some line ∧ joins line = true) :
    (continuedFrom opened lines).flatten.length <
      (continuedFrom opened (lines ++ [last])).flatten.length := by
  induction lines generalizing opened with
  | nil =>
    obtain ⟨line, hline, _⟩ := hbefore
    cases hline
  | cons head lines ih =>
    obtain ⟨line, hline, hjoins⟩ := hbefore
    rw [List.cons_append]
    cases lines with
    | nil =>
      obtain rfl : head = line := by simpa using hline
      rw [continuedFrom_joins hjoins, continuedFrom_joins hjoins, List.nil_append,
        continuedFrom_ends hlast, if_neg (by simp)]
      have hle : (continuedFrom (opened ++ [head]) []).flatten.length ≤ opened.length + 1 := by
        have hone : logicalFrom (opened ++ [head]) [] = [opened ++ [head]] := by simp [logicalFrom]
        rw [continuedFrom, hone, List.filter_singleton]
        cases decide (2 ≤ (opened ++ [head]).length) with
        | true | false => simp
      simp only [List.flatten_append, List.flatten_cons, List.length_append, List.length_cons,
        List.length_nil]
      omega
    | cons next lines =>
      have hline' : (next :: lines).getLast? = some line := by simpa using hline
      by_cases hhead : joins head = true
      · rw [continuedFrom_joins hhead, continuedFrom_joins hhead]
        exact ih ⟨line, hline', hjoins⟩
      · rw [Bool.not_eq_true] at hhead
        rw [continuedFrom_ends hhead, continuedFrom_ends hhead]
        have hlonger : (continuedFrom [] (next :: lines)).flatten.length <
            (continuedFrom [] (next :: lines ++ [last])).flatten.length := ih ⟨line, hline', hjoins⟩
        simp only [List.flatten_append, List.length_append]
        omega

end Continued

end Detent.Lib.LogicalLines
