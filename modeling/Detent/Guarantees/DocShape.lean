import Detent.Source.Doc

/-!
# Canonical documents

A document is canonical when its rendered text parses back into the same lines.
`canonical_iff` says what that means line by line, and
`normalize_canonical_iff` says when `normalize` establishes it.
-/
namespace Detent.Guarantees.DocShape
open Lib Lib.Text Source.Doc

/-- Parsing the rendered text gives the same lines back. -/
def Canonical (doc : Document) : Prop := (parse doc.render doc.classify).lines = doc.lines

instance (doc : Document) : Decidable (Canonical doc) := inferInstanceAs (Decidable (_ = _))

/-- The text of a line with its kind, as `parse` makes them. -/
structure Sound (classify : Text → LineKind) (line : Line) : Prop where
  noBreak : '\n' ∉ line.raw
  kind : line.kind = classify line.raw

/-- An `Lf` after a carriage return, which parses as `CrLf`. -/
def Ambiguous (line : Line) : Prop := line.ending = .lf ∧ line.raw.getLast? = some '\r'

/-- Only the last line lacks a terminator, and then it has text. -/
structure Ends (lines : List Line) : Prop where
  before : ∀ line ∈ lines.dropLast, line.ending ≠ .none
  last : ∀ line ∈ lines.getLast?, line.ending = .none → line.raw ≠ []

/-- What `parse` makes of any text. -/
structure Shape (classify : Text → LineKind) (lines : List Line) : Prop where
  sound : ∀ line ∈ lines, Sound classify line
  clear : ∀ line ∈ lines, ¬ Ambiguous line
  ends : Ends lines

theorem len_append (a b : Text) : len (a ++ b) = len a + len b := by
  simp [len, utf8]

variable {line : Line} {lines : List Line}

section Parse

variable (classify : Text → LineKind)

theorem splitEnding_lf {raw : Text} (h : raw.getLast? ≠ some '\r') :
    splitEnding (raw ++ ['\n']) = (raw, .lf) := by
  rw [splitEnding, stripLast_append]
  simp only [stripLast_eq_none h]

theorem splitEnding_crLf (raw : Text) : splitEnding (raw ++ ['\r'] ++ ['\n']) = (raw, .crLf) := by
  rw [splitEnding, stripLast_append]
  simp only [stripLast_append]

theorem splitEnding_none {raw : Text} (h : '\n' ∉ raw) : splitEnding raw = (raw, .none) := by
  have hlast : raw.getLast? ≠ some '\n' := fun hlast => h (List.mem_of_getLast? hlast)
  rw [splitEnding, stripLast_eq_none hlast]

theorem parseFrom_newline (offset : Nat) (body rest : Text) (h : '\n' ∉ body) :
    ∃ raw ending, raw ++ ending.asStr = body ++ ['\n'] ∧ '\n' ∉ raw ∧ ending ≠ .none ∧
      (ending = .lf → raw.getLast? ≠ some '\r') ∧
      parseFrom classify offset (linesInclusive (body ++ '\n' :: rest)) =
        ⟨classify raw, raw, ending, ⟨offset, offset + len raw⟩⟩ ::
          parseFrom classify (offset + len raw + len ending.asStr) (linesInclusive rest) := by
  rw [linesInclusive_newline body rest h]
  by_cases hcr : body.getLast? = some '\r'
  · obtain ⟨raw, rfl⟩ := List.getLast?_eq_some_iff.mp hcr
    refine ⟨raw, .crLf, by simp [LineEnding.asStr], fun hmem => h (by simp [hmem]), by simp,
      by simp, ?_⟩
    rw [parseFrom, splitEnding_crLf, List.append_assoc, len_append, ← Nat.add_assoc]
    rfl
  · refine ⟨body, .lf, rfl, h, by simp, fun _ => hcr, ?_⟩
    rw [parseFrom, splitEnding_lf hcr, len_append, ← Nat.add_assoc]
    rfl

theorem Ends.cons {line : Line} {lines : List Line} (hline : line.ending ≠ .none)
    (h : Ends lines) : Ends (line :: lines) := by
  cases lines with
  | nil => exact ⟨by simp, by simp [hline]⟩
  | cons next lines =>
    constructor
    · intro other hmem
      rw [List.dropLast_cons_cons] at hmem
      rcases List.mem_cons.mp hmem with rfl | hmem
      · exact hline
      · exact h.before other hmem
    · intro other hmem
      rw [List.getLast?_cons_cons] at hmem
      exact h.last other hmem

theorem Shape.nil : Shape classify [] := ⟨by simp, by simp, ⟨by simp, by simp⟩⟩

theorem Shape.cons {line : Line} {lines : List Line} (hsound : Sound classify line)
    (hclear : ¬ Ambiguous line) (hend : line.ending ≠ .none) (h : Shape classify lines) :
    Shape classify (line :: lines) := by
  refine ⟨?_, ?_, h.ends.cons hend⟩
  · intro other hmem
    rcases List.mem_cons.mp hmem with rfl | hmem
    · exact hsound
    · exact h.sound other hmem
  · intro other hmem
    rcases List.mem_cons.mp hmem with rfl | hmem
    · exact hclear
    · exact h.clear other hmem

theorem Ends.tail (h : Ends (line :: lines)) : Ends lines := by
  cases lines with
  | nil => exact ⟨by simp, by simp⟩
  | cons next lines =>
    constructor
    · intro other hmem
      apply h.before other
      rw [List.dropLast_cons_cons]
      exact List.mem_cons_of_mem _ hmem
    · intro other hmem
      apply h.last other
      rw [List.getLast?_cons_cons]
      exact hmem

/-- The lines of any text have the shape, are spanned, and render as the text. The
induction is on the length of the text, one line at a time. -/
theorem parseFrom_spec (text : Text) (offset : Nat) :
    Shape classify (parseFrom classify offset (linesInclusive text)) ∧
      respan offset (parseFrom classify offset (linesInclusive text)) =
        parseFrom classify offset (linesInclusive text) ∧
      (parseFrom classify offset (linesInclusive text)).flatMap renderLine = text := by
  generalize hn : text.length = n
  induction n using Nat.strongRecOn generalizing text offset with
  | ind n ih =>
    rcases lines_cases text with hlast | ⟨body, rest, hbody, rfl⟩
    · by_cases hempty : text = []
      · subst hempty
        exact ⟨Shape.nil classify, rfl, rfl⟩
      · rw [linesInclusive_last text hlast hempty, parseFrom, splitEnding_none hlast]
        refine ⟨⟨?_, ?_, ⟨by simp [parseFrom], ?_⟩⟩, rfl, ?_⟩
        · intro line hmem
          obtain rfl := List.mem_singleton.mp hmem
          exact ⟨hlast, rfl⟩
        · intro line hmem
          obtain rfl := List.mem_singleton.mp hmem
          simp [Ambiguous]
        · simpa [parseFrom] using hempty
        · simp [renderLine, LineEnding.asStr, parseFrom]
    · obtain ⟨raw, ending, hrender, hraw, hending, hclear, hparse⟩ :=
        parseFrom_newline classify offset body rest hbody
      obtain ⟨hshape, hspan, htext⟩ := ih rest.length (by simp at hn; omega) rest
        (offset + len raw + len ending.asStr) rfl
      rw [hparse]
      refine ⟨?_, ?_, ?_⟩
      · refine Shape.cons classify ⟨hraw, rfl⟩ ?_ hending hshape
        intro hambiguous
        exact hclear hambiguous.1 hambiguous.2
      · rw [respan, hspan]
      · rw [List.flatMap_cons, htext, renderLine, hrender]
        simp

/-- Lines of the shape parse back from their rendered text, spans apart. -/
theorem parseFrom_render (lines : List Line) (h : Shape classify lines) (offset : Nat) :
    parseFrom classify offset (linesInclusive (lines.flatMap renderLine)) =
      respan offset lines := by
  induction lines generalizing offset with
  | nil => rfl
  | cons line lines ih =>
    have hsound := h.sound line (by simp)
    have hclear := h.clear line (by simp)
    have hrest : Shape classify lines :=
      ⟨fun other hmem => h.sound other (by simp [hmem]),
        fun other hmem => h.clear other (by simp [hmem]), h.ends.tail⟩
    obtain ⟨kind, raw, ending, span⟩ := line
    obtain ⟨hraw, hkind⟩ := hsound
    simp only at hraw hkind
    cases ending with
    | lf =>
      have hcr : raw.getLast? ≠ some '\r' := fun hlast => hclear ⟨rfl, hlast⟩
      have htext : raw ++ ['\n'] ++ lines.flatMap renderLine =
        raw ++ '\n' :: lines.flatMap renderLine := by simp
      rw [List.flatMap_cons, renderLine, LineEnding.asStr, htext,
        linesInclusive_newline raw _ hraw, parseFrom, splitEnding_lf hcr, ih hrest, respan,
        len_append, ← Nat.add_assoc, hkind]
      rfl
    | crLf =>
      have hbody : '\n' ∉ raw ++ ['\r'] := by simp [hraw]
      have htext : raw ++ ['\r', '\n'] ++ lines.flatMap renderLine =
        raw ++ ['\r'] ++ '\n' :: lines.flatMap renderLine := by simp
      rw [List.flatMap_cons, renderLine, LineEnding.asStr, htext,
        linesInclusive_newline _ _ hbody, parseFrom, splitEnding_crLf, ih hrest, respan,
        List.append_assoc, len_append, ← Nat.add_assoc, hkind]
      rfl
    | none =>
      -- only the last line lacks a terminator
      cases lines with
      | nil =>
        have hne : raw ≠ [] := h.ends.last ⟨kind, raw, .none, span⟩ (by simp) rfl
        have htext : [(⟨kind, raw, .none, span⟩ : Line)].flatMap renderLine = raw := by
          simp [renderLine, LineEnding.asStr]
        rw [htext, linesInclusive_last raw hraw hne, parseFrom, splitEnding_none hraw, respan, hkind]
        rfl
      | cons next lines =>
        have hend := h.ends.before ⟨kind, raw, .none, span⟩ (by simp [List.dropLast_cons_cons])
        exact absurd rfl hend

theorem render_parse (src : Text) : (parse src classify).render = src :=
  (parseFrom_spec classify src 0).2.2

end Parse

theorem canonical_iff (doc : Document) :
    Canonical doc ↔ Shape doc.classify doc.lines ∧ respan 0 doc.lines = doc.lines := by
  constructor
  · intro h
    have hspec := parseFrom_spec doc.classify doc.render 0
    change parseFrom doc.classify 0 (linesInclusive doc.render) = doc.lines at h
    rw [h] at hspec
    exact ⟨hspec.1, hspec.2.1⟩
  · intro ⟨hshape, hspan⟩
    unfold Canonical parse Document.render
    rw [parseFrom_render doc.classify doc.lines hshape 0, hspan]

theorem parse_canonical (src : Text) (classify : Text → LineKind) :
    Canonical (parse src classify) := by
  have hspec := parseFrom_spec classify src 0
  exact (canonical_iff _).mpr ⟨hspec.1, hspec.2.1⟩

section Normalize

variable {classify : Text → LineKind}

theorem respan_respan (lines : List Line) (offset : Nat) :
    respan offset (respan offset lines) = respan offset lines := by
  induction lines generalizing offset with
  | nil => rfl
  | cons line lines ih =>
    rw [respan, respan]
    exact congrArg _ (ih _)

/-- The lines an edit hands to `normalize`: each as `parse` makes it, terminators
apart, and all but the last with one. -/
structure Edited (classify : Text → LineKind) (lines : List Line) : Prop where
  sound : ∀ line ∈ lines, Sound classify line
  before : ∀ line ∈ lines.dropLast, line.ending ≠ .none

theorem mem_respan (h : line ∈ lines) (offset : Nat) :
    ∃ line' ∈ respan offset lines,
      line'.kind = line.kind ∧ line'.raw = line.raw ∧ line'.ending = line.ending := by
  induction lines generalizing offset with
  | nil => simp at h
  | cons head lines ih =>
    rcases List.mem_cons.mp h with rfl | h
    · exact ⟨_, List.mem_cons_self, rfl, rfl, rfl⟩
    · obtain ⟨line', hmem, hsame⟩ := ih h (offset + len head.raw + len head.ending.asStr)
      exact ⟨line', List.mem_cons_of_mem _ hmem, hsame⟩

theorem shape_respan (h : Shape classify lines) (offset : Nat) :
    Shape classify (respan offset lines) := by
  induction lines generalizing offset with
  | nil => exact Shape.nil classify
  | cons line lines ih =>
    have hsound := h.sound line (by simp)
    have hclear := h.clear line (by simp)
    cases lines with
    | nil =>
      refine ⟨?_, ?_, ⟨by simp [respan], ?_⟩⟩
      · intro other hmem
        obtain rfl := List.mem_singleton.mp hmem
        exact ⟨hsound.noBreak, hsound.kind⟩
      · intro other hmem
        obtain rfl := List.mem_singleton.mp hmem
        exact hclear
      · intro other hmem
        obtain rfl : other = _ := by simpa [respan, eq_comm] using hmem
        exact h.ends.last line (by simp)
    | cons next lines =>
      refine Shape.cons classify ⟨hsound.noBreak, hsound.kind⟩ hclear
        (h.ends.before line (by simp [List.dropLast_cons_cons])) ?_
      exact ih ⟨fun other hmem => h.sound other (by simp [hmem]),
        fun other hmem => h.clear other (by simp [hmem]), h.ends.tail⟩ _

theorem moveCr_clear (line : Line) : ¬ Ambiguous (moveCr line) := by
  unfold moveCr
  by_cases h : line.ending = .lf ∧ line.raw.getLast? = some '\r'
  · simp [h, Ambiguous]
  · rw [if_neg h]
    exact h

theorem moveCr_ending_none (line : Line) :
    (moveCr line).ending = .none ↔ line.ending = .none := by
  unfold moveCr
  by_cases h : line.ending = .lf ∧ line.raw.getLast? = some '\r'
  · simp [h]
  · rw [if_neg h]

theorem moveCr_noBreak (h : '\n' ∉ line.raw) : '\n' ∉ (moveCr line).raw := by
  unfold moveCr
  by_cases hcr : line.ending = .lf ∧ line.raw.getLast? = some '\r'
  · rw [if_pos hcr]
    exact fun hmem => h ((List.dropLast_sublist _).mem hmem)
  · rw [if_neg hcr]
    exact h

/-- Dropping the empty last line loses no terminated line. -/
theorem mem_dropEmptyLast (h : line ∈ lines) (hend : line.ending ≠ .none) :
    line ∈ dropEmptyLast lines := by
  rcases List.eq_nil_or_concat lines with rfl | ⟨init, last, rfl⟩
  · simp at h
  · rw [List.concat_eq_append] at h ⊢
    by_cases hlast : last.ending = .none ∧ last.raw = []
    · rcases List.mem_append.mp h with h | h
      · simpa [dropEmptyLast, hlast] using h
      · rw [List.mem_singleton.mp h] at hend
        exact absurd hlast.1 hend
    · simpa [dropEmptyLast, hlast] using h

theorem mem_of_mem_dropEmptyLast (h : line ∈ dropEmptyLast lines) : line ∈ lines := by
  unfold dropEmptyLast at h
  cases hlast : lines.getLast? with
  | none => simpa [hlast] using h
  | some last =>
    simp only [hlast] at h
    by_cases hempty : last.ending = .none ∧ last.raw = []
    · rw [if_pos hempty] at h
      exact (List.dropLast_sublist _).mem h
    · rw [if_neg hempty] at h
      exact h

theorem dropEmptyLast_eq (h : ∀ last ∈ lines.getLast?, ¬ (last.ending = .none ∧ last.raw = [])) :
    dropEmptyLast lines = lines := by
  unfold dropEmptyLast
  cases hlast : lines.getLast? with
  | none => rfl
  | some last =>
    have hne := h last (by simp [hlast])
    simp only [hne, if_false]

theorem ends_dropEmptyLast (h : ∀ line ∈ lines.dropLast, line.ending ≠ .none) :
    Ends (dropEmptyLast lines) := by
  rcases List.eq_nil_or_concat lines with rfl | ⟨init, last, rfl⟩
  · exact ⟨by simp [dropEmptyLast], by simp [dropEmptyLast]⟩
  · rw [List.concat_eq_append] at h ⊢
    rw [List.dropLast_concat] at h
    by_cases hlast : last.ending = .none ∧ last.raw = []
    · have hdrop : dropEmptyLast (init ++ [last]) = init := by simp [dropEmptyLast, hlast]
      rw [hdrop]
      refine ⟨fun line hmem => h line ((List.dropLast_sublist _).mem hmem), fun line hmem hnone => ?_⟩
      exact absurd hnone (h line (List.mem_of_getLast? hmem))
    · have hkeep : dropEmptyLast (init ++ [last]) = init ++ [last] := by
        simp [dropEmptyLast, hlast]
      rw [hkeep]
      refine ⟨by simpa using h, fun line hmem hnone hraw => ?_⟩
      obtain rfl : last = line := by simpa using hmem
      exact hlast ⟨hnone, hraw⟩

/-- `normalize` makes the lines of an edit canonical exactly when no line that
loses a carriage return to its terminator changes its kind. -/
theorem normalize_canonical_iff (h : Edited classify lines) :
    Canonical ⟨normalize lines, classify⟩ ↔
      ∀ line ∈ lines, Ambiguous line → classify line.raw.dropLast = classify line.raw := by
  rw [canonical_iff]
  constructor
  · intro ⟨hshape, _⟩ line hmem hambiguous
    have hmoved : moveCr line = { line with raw := line.raw.dropLast, ending := .crLf } := by
      exact if_pos hambiguous
    have hkept : moveCr line ∈ dropEmptyLast (lines.map moveCr) :=
      mem_dropEmptyLast (List.mem_map_of_mem hmem) (by simp [hmoved])
    obtain ⟨line', hmem', hkind, hraw, _⟩ := mem_respan hkept 0
    have hsound := (hshape.sound line' hmem').kind
    rw [hkind, hraw, hmoved] at hsound
    exact hsound.symm.trans (h.sound line hmem).kind
  · intro hsame
    refine ⟨shape_respan ⟨?_, ?_, ?_⟩ 0, respan_respan _ 0⟩
    · intro line hmem
      obtain ⟨old, hold, rfl⟩ := List.mem_map.mp (mem_of_mem_dropEmptyLast hmem)
      refine ⟨moveCr_noBreak (h.sound old hold).noBreak, ?_⟩
      by_cases hambiguous : Ambiguous old
      · have hmoved : moveCr old = { old with raw := old.raw.dropLast, ending := .crLf } :=
          if_pos hambiguous
        rw [hmoved]
        exact (h.sound old hold).kind.trans (hsame old hold hambiguous).symm
      · have hstay : moveCr old = old := if_neg hambiguous
        rw [hstay]
        exact (h.sound old hold).kind
    · intro line hmem
      obtain ⟨old, _, rfl⟩ := List.mem_map.mp (mem_of_mem_dropEmptyLast hmem)
      exact moveCr_clear old
    · apply ends_dropEmptyLast
      intro line hmem
      rw [← List.map_dropLast] at hmem
      obtain ⟨old, hold, rfl⟩ := List.mem_map.mp hmem
      exact fun hnone => h.before old hold ((moveCr_ending_none old).mp hnone)

/-- What an edit leaves of any lines, kinds apart. -/
structure Held (lines : List Line) : Prop where
  clear : ∀ line ∈ lines, ¬ Ambiguous line
  ends : Ends lines
  spanned : respan 0 lines = lines

theorem Canonical.held {doc : Document} (h : Canonical doc) : Held doc.lines := by
  obtain ⟨hshape, hspan⟩ := (canonical_iff doc).mp h
  exact ⟨hshape.clear, hshape.ends, hspan⟩

/-- Lines that differ in their spans only. -/
def Respanned (line line' : Line) : Prop :=
  line'.kind = line.kind ∧ line'.raw = line.raw ∧ line'.ending = line.ending

theorem respan_respanned (lines : List Line) (offset : Nat) :
    List.Forall₂ Respanned lines (respan offset lines) := by
  induction lines generalizing offset with
  | nil => exact .nil
  | cons line lines ih => exact .cons ⟨rfl, rfl, rfl⟩ (ih _)

theorem exists_respanned {lines' : List Line} (h : List.Forall₂ Respanned lines lines')
    {line' : Line} (hmem : line' ∈ lines') : ∃ line ∈ lines, Respanned line line' := by
  induction h with
  | nil => simp at hmem
  | cons hline _ ih =>
    rcases List.mem_cons.mp hmem with rfl | hmem
    · exact ⟨_, List.mem_cons_self, hline⟩
    · obtain ⟨line, hin, hsame⟩ := ih hmem
      exact ⟨line, List.mem_cons_of_mem _ hin, hsame⟩

theorem Ends.respanned {lines' : List Line} (h : Ends lines)
    (hsame : List.Forall₂ Respanned lines lines') : Ends lines' := by
  induction hsame with
  | nil => exact h
  | @cons line line' lines lines' hline hlines ih =>
    have hrest := ih h.tail
    cases hlines with
    | nil =>
      refine ⟨by simp, fun other hmem hnone => ?_⟩
      obtain rfl : line' = other := by simpa using hmem
      rw [hline.2.1]
      exact h.last line (by simp) (hline.2.2 ▸ hnone)
    | cons _ _ =>
      refine hrest.cons ?_
      rw [hline.2.2]
      exact h.before line (by simp [List.dropLast_cons_cons])

/-- `normalize` holds lines of which only the last can lack a terminator. -/
theorem normalize_held (h : ∀ line ∈ lines.dropLast, line.ending ≠ .none) :
    Held (normalize lines) := by
  have hbefore : ∀ line ∈ (lines.map moveCr).dropLast, line.ending ≠ .none := by
    intro line hmem
    rw [← List.map_dropLast] at hmem
    obtain ⟨old, hold, rfl⟩ := List.mem_map.mp hmem
    exact fun hnone => h old hold ((moveCr_ending_none old).mp hnone)
  refine ⟨fun line hmem => ?_, ?_, respan_respan _ 0⟩
  · obtain ⟨old, hold, hsame⟩ := exists_respanned (respan_respanned _ 0) hmem
    obtain ⟨older, _, rfl⟩ := List.mem_map.mp (mem_of_mem_dropEmptyLast hold)
    rw [Ambiguous, hsame.2.1, hsame.2.2]
    exact moveCr_clear older
  · exact (ends_dropEmptyLast hbefore).respanned (respan_respanned _ 0)

theorem Held.normalize_eq (h : Held lines) : normalize lines = lines := by
  have hmove : lines.map moveCr = lines := by
    conv_rhs => rw [← List.map_id lines]
    apply List.map_congr_left
    intro line hmem
    exact if_neg (h.clear line hmem)
  have hdrop : dropEmptyLast lines = lines :=
    dropEmptyLast_eq (fun last hlast hempty => h.ends.last last hlast hempty.1 hempty.2)
  rw [Source.Doc.normalize, hmove, hdrop, h.spanned]

end Normalize

end Detent.Guarantees.DocShape
