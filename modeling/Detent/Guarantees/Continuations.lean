import Detent.Lib.LogicalLines
import Detent.Guarantees.EntryEdits

/-!
# Entry edits and continued lines

A module's classifier sees one physical line. The continued lines of a text stay
the same under every edit of its entries exactly when no edit can take apart,
shorten or extend one of them: `Apart` says where entries may not stand, and
`HeadersClear` where a new section may not be placed.
-/
namespace Detent.Guarantees.Continuations
open Lib Lib.Text Lib.LogicalLines Source.Doc
open DocShape PlanMerge EntryPlans
open CanonicalDocuments EntryEdits
open List (map_append map_cons map_map mem_insertionSort mem_map)
open Placement (slot)

/-- How a module reads and writes the lines of its file. -/
structure Format (T : Type) where
  classify : Text → LineKind
  parseEntry : Text → Option T
  render : T → Except EditError Text
  opensSection : Text → Bool

variable {T : Type}

/-- What the modules have in common: a line that ends in a backslash is no entry,
a rendered line reads back, and a carriage return means nothing. -/
structure Format.Lawful (format : Format T) : Prop where
  joined : ∀ raw, raw.getLast? = some '\\' → format.parseEntry raw = none
  rendered : ∀ entry raw, format.render entry = .ok raw →
    format.classify raw = .directive ∧ format.parseEntry raw = some entry
  carriage : ∀ raw, format.classify (raw ++ ['\r']) = format.classify raw ∧
    format.parseEntry (raw ++ ['\r']) = format.parseEntry raw
  empty : format.classify [] ≠ .directive

/-- The physical line of a line. -/
def lineBody (line : Line) : Text := body line.raw

section Rows

variable (format : Format T) (lines : List Line)

def joinsAt (row : Nat) : Prop := ∃ line, lines[row]? = some line ∧ joins (lineBody line) = true

def entryAt (row : Nat) : Prop :=
  ∃ line entry, lines[row]? = some line ∧ entryOf format.parseEntry line = some entry

def opensAt (row : Nat) : Prop := ∃ line, lines[row]? = some line ∧ format.opensSection line.raw = true

def spaceAt (row : Nat) : Prop :=
  ∃ line, lines[row]? = some line ∧ (line.kind = .blank ∨ line.kind = .comment)

/-- An empty line that closes a continued one, with nothing after it but entries,
the last of them unterminated. -/
def EmptyClose (row : Nat) : Prop :=
  joinsAt lines row ∧ (lines[row + 1]?).map (·.raw) = some [] ∧ row + 2 < lines.length ∧
    (∀ later, row + 2 ≤ later → later < lines.length → entryAt format lines later) ∧
    endsUnterminated lines = true

/-- No entry edit of these lines reaches a continued line. -/
structure Apart : Prop where
  entries : ∀ row, joinsAt lines row → ¬ entryAt format lines (row + 1)
  fileEnd : (∀ row, ¬ entryAt format lines row) → ∀ row, row + 1 = lines.length → ¬ joinsAt lines row
  emptyClose : ∀ row, ¬ EmptyClose format lines row

/-- A new section after the entry at `first` would be placed right after `row`:
the section ends before `stop`, with only blank lines and comments in between. -/
structure HeaderAfter (first row stop : Nat) : Prop where
  before : first < row
  after : row < stop
  inside : stop ≤ lines.length
  entry : entryAt format lines first
  open_ : joinsAt lines row
  text : ¬ spaceAt lines row
  section_ : ∀ other, first < other → other < stop → ¬ opensAt format lines other
  space : ∀ other, row < other → other < stop → spaceAt lines other
  ends : stop = lines.length ∨ opensAt format lines stop ∨ entryAt format lines stop

def HeadersClear : Prop := ∀ first row stop, ¬ HeaderAfter format lines first row stop

end Rows

variable {row : Nat}

section Plans

variable {doc : Document} {plan : EntryPlan}

/-- The row is joined with the one before it. -/
def joinedAt (lines : List Line) (row : Nat) : Prop := ∃ before, before + 1 = row ∧ joinsAt lines before

/-- A plan that touches no continued line and opens none. -/
structure KeepsJoins (lines : List Line) (plan : EntryPlan) : Prop where
  removed : ∀ row ∈ plan.remove, ¬ joinsAt lines row ∧ ¬ joinedAt lines row
  replaced : ∀ x ∈ plan.replace, ¬ joinsAt lines x.1 ∧ ¬ joinedAt lines x.1 ∧ joins (body x.2) = false
  inserted : ∀ x ∈ plan.insert, ¬ joinedAt lines x.1 ∧ joins (body x.2) = false

/-- The raw texts that a row leaves. -/
def rowTexts (doc : Document) (plan : EntryPlan) (entry : Line × Nat) : Text × List Text :=
  (entry.1.raw, (atRow doc.classify (dominantEnding doc.lines)
    (plan.replace.insertionSort (fun a b => a.1 ≤ b.1)) (plan.remove.insertionSort (· ≤ ·))
    (plan.insert.insertionSort (fun a b => a.1 ≤ b.1)) entry).map (·.raw))

theorem terminated_raw (dominant : LineEnding) (line : Line) :
    (terminated dominant line).raw = line.raw := by
  unfold terminated
  by_cases h : line.ending = .none
  · rw [if_pos h]
  · rw [if_neg h]

theorem joins_iff_joinsAt {lines : List Line} {line : Line} (hline : lines[row]? = some line) :
    joins (lineBody line) = true ↔ joinsAt lines row := by
  constructor
  · intro h
    exact ⟨line, hline, h⟩
  · rintro ⟨other, hother, h⟩
    rw [hline] at hother
    exact Option.some.inj hother ▸ h

theorem fresh_raws (classify : Text → LineKind) (dominant : LineEnding)
    (inserts : List (Nat × Text)) :
    (fresh classify dominant inserts).map (·.raw) = inserts.map (·.2) := by
  rw [fresh, map_map]
  rfl

theorem rowTexts_kept (h : KeepsJoins doc.lines plan) {line : Line}
    (hline : doc.lines[row]? = some line) {opened : Bool}
    (hopened : opened = true → joinedAt doc.lines row) :
    RowKept body opened line.raw (rowTexts doc plan (line, row)).2 := by
  have hfresh : ∀ new ∈ (fresh doc.classify (dominantEnding doc.lines)
      ((plan.insert.insertionSort (fun a b => a.1 ≤ b.1)).filter
        (fun x => decide (x.1 = row)))).map (·.raw), joins (body new) = false := by
    intro new hmem
    rw [fresh_raws] at hmem
    obtain ⟨x, hx, rfl⟩ := mem_map.mp hmem
    exact (h.inserted x ((mem_insertionSort _).mp (List.mem_filter.mp hx).1)).2
  have hnone : opened = true → (plan.insert.insertionSort (fun a b => a.1 ≤ b.1)).filter
      (fun x => decide (x.1 = row)) = [] := by
    intro hopen
    apply List.filter_eq_nil_iff.mpr
    intro x hx hrow
    obtain rfl : x.1 = row := of_decide_eq_true hrow
    exact (h.inserted x ((mem_insertionSort _).mp hx)).1 (hopened hopen)
  rw [rowTexts, atRow, map_append, settled]
  by_cases hremove : row ∈ plan.remove.insertionSort (· ≤ ·)
  · rw [if_pos hremove, List.map_nil, List.append_nil]
    rw [mem_insertionSort] at hremove
    obtain ⟨hline', hprev⟩ := h.removed row hremove
    rw [← joins_iff_joinsAt hline, Bool.not_eq_true] at hline'
    refine .inr ⟨?_, _, hfresh, .inr ⟨hline', rfl⟩⟩
    cases opened with
    | false => rfl
    | true => exact absurd (hopened rfl) hprev
  · rw [if_neg hremove]
    cases hlookup : (plan.replace.insertionSort (fun a b => a.1 ≤ b.1)).lookup row with
    | none =>
      rw [rewritten, List.map_singleton, terminated_raw]
      cases opened with
      | true =>
        rw [hnone rfl]
        exact .inl rfl
      | false => exact .inr ⟨rfl, _, hfresh, .inl rfl⟩
    | some raw =>
      have hmem : (row, raw) ∈ plan.replace := by
        obtain ⟨l₁, l₂, hsplit, _⟩ := List.lookup_eq_some_iff.mp hlookup
        rw [← mem_insertionSort (fun a b : Nat × Text => a.1 ≤ b.1), hsplit]
        simp
      obtain ⟨hline', hprev, hraw⟩ := h.replaced (row, raw) hmem
      rw [← joins_iff_joinsAt hline, Bool.not_eq_true] at hline'
      rw [rewritten, List.map_singleton, terminated_raw]
      refine .inr ⟨?_, _, ?_, .inr ⟨hline', rfl⟩⟩
      · cases opened with
        | false => rfl
        | true => exact absurd (hopened rfl) hprev
      · intro new hmem
        rcases List.mem_append.mp hmem with hmem | hmem
        · exact hfresh new hmem
        · rw [List.mem_singleton.mp hmem]
          exact hraw

/-- The new lines after the last old one. -/
def tailTexts (doc : Document) (plan : EntryPlan) : List Text :=
  ((plan.insert.insertionSort (fun a b => a.1 ≤ b.1)).filter
    (fun x => decide (doc.lines.length ≤ x.1))).map (·.2)

/-- The rows from `row` on; the line before them joins them when `opened`. -/
theorem rowsKept_from (h : KeepsJoins doc.lines plan)
    (hinside : ∀ x ∈ plan.insert, x.1 ≤ doc.lines.length) (rest : List Line) (row : Nat)
    (hrest : doc.lines.drop row = rest) {opened : Bool}
    (hopened : opened = true → joinedAt doc.lines row) :
    RowsKept body opened ((rest.zipIdx row).map (rowTexts doc plan)) (tailTexts doc plan) := by
  induction rest generalizing row opened with
  | nil =>
    have hlen : doc.lines.length ≤ row := List.drop_eq_nil_iff.mp hrest
    constructor
    · intro new hmem
      obtain ⟨x, hx, rfl⟩ := mem_map.mp hmem
      exact (h.inserted x ((mem_insertionSort _).mp (List.mem_filter.mp hx).1)).2
    · intro hopen
      have hjoined := hopened hopen
      rw [tailTexts, List.map_eq_nil_iff]
      apply List.filter_eq_nil_iff.mpr
      intro x hx hend
      rw [mem_insertionSort] at hx
      obtain ⟨before, hbefore, line, hline, hjoins⟩ := hjoined
      have hlt := (List.getElem?_eq_some_iff.mp hline).1
      have hle := hinside x hx
      have hge : doc.lines.length ≤ x.1 := of_decide_eq_true hend
      exact (h.inserted x hx).1 ⟨before, by omega, line, hline, hjoins⟩
  | cons line rest ih =>
    have hline : doc.lines[row]? = some line := by
      rw [← List.head?_drop, hrest]
      rfl
    have hnext : doc.lines.drop (row + 1) = rest := by
      rw [← List.tail_drop, hrest]
      rfl
    rw [List.zipIdx_cons, map_cons]
    refine ⟨rowTexts_kept h hline hopened, ih (row + 1) hnext ?_⟩
    intro hjoins
    exact ⟨row, rfl, (joins_iff_joinsAt hline).mp hjoins⟩

theorem merged_raws (hone : AtMostOne plan) : (merged doc plan).map (·.raw) =
    (doc.lines.zipIdx.map (rowTexts doc plan)).flatMap (·.2) ++ tailTexts doc plan := by
  rw [merged, merge_eq _ _ _ (sorted_of_atMostOne hone), map_append, List.map_flatMap,
    List.flatMap_map, fresh_raws, Nat.zero_add]
  rfl

theorem rows_raws : (doc.lines.zipIdx.map (rowTexts doc plan)).map (·.1) = doc.lines.map (·.raw) := by
  rw [map_map]
  conv_rhs => rw [← List.zipIdx_map_fst 0 doc.lines, map_map]
  rfl

/-- Such a plan keeps the continued lines, before the last ending is set. -/
theorem merged_continued (hone : AtMostOne plan) (h : KeepsJoins doc.lines plan)
    (hinside : ∀ x ∈ plan.insert, x.1 ≤ doc.lines.length) :
    continued ((merged doc plan).map lineBody) = continued (doc.lines.map lineBody) := by
  have hrows : RowsKept body false (doc.lines.zipIdx.map (rowTexts doc plan)) (tailTexts doc plan) :=
    rowsKept_from h hinside doc.lines 0 rfl nofun
  have hkept := continuedFrom_rows [] _ _ hrows
  rw [← merged_raws hone, rows_raws, map_map, map_map] at hkept
  exact hkept

/-- Where the last line left follows one that joins it, only removed rows came
after the two. -/
theorem merged_open_end (hone : AtMostOne plan) (h : KeepsJoins doc.lines plan)
    (hinside : ∀ x ∈ plan.insert, x.1 ≤ doc.lines.length) {init : List Line} {line last : Line}
    (hmerged : merged doc plan = init ++ [line, last]) (hline : joins (lineBody line) = true) :
    ∃ row, joinsAt doc.lines row ∧ (doc.lines[row + 1]?).map (·.raw) = some last.raw ∧
      ∀ later, row + 2 ≤ later → later < doc.lines.length → later ∈ plan.remove := by
  have hrows : RowsKept body false (doc.lines.zipIdx.map (rowTexts doc plan)) (tailTexts doc plan) :=
    rowsKept_from h hinside doc.lines 0 rfl nofun
  have hout : (doc.lines.zipIdx.map (rowTexts doc plan)).flatMap (·.2) ++ tailTexts doc plan =
      init.map (·.raw) ++ [line.raw, last.raw] := by
    rw [← merged_raws hone, hmerged, map_append]
    rfl
  obtain ⟨before, after, out, hsplit, hafter⟩ := rowsKept_open_end hrows hout hline
  have hget : ∀ row : Nat, ((doc.lines.zipIdx.map (rowTexts doc plan))[row]?).map (·.1) =
      (doc.lines[row]?).map (·.raw) := by
    intro row
    rw [← List.getElem?_map, rows_raws, List.getElem?_map]
  have hfirst := hget before.length
  have hsecond := hget (before.length + 1)
  rw [hsplit] at hfirst hsecond
  rw [List.getElem?_append_right (Nat.le_refl _), Nat.sub_self] at hfirst
  rw [List.getElem?_append_right (by omega), Nat.add_sub_cancel_left] at hsecond
  obtain ⟨old, hold, hraw⟩ := Option.map_eq_some_iff.mp hfirst.symm
  refine ⟨before.length, ⟨old, hold, ?_⟩, hsecond.symm, fun later hge hlt => ?_⟩
  · rw [lineBody, hraw]
    exact hline
  · have hlater : doc.lines[later]? = some doc.lines[later] := List.getElem?_eq_getElem hlt
    have hrow : (doc.lines.zipIdx.map (rowTexts doc plan))[later]? =
        some (rowTexts doc plan (doc.lines[later], later)) := by
      rw [List.getElem?_map, List.getElem?_zipIdx, hlater]
      simp
    rw [hsplit, List.getElem?_append_right (by omega)] at hrow
    obtain ⟨n, hn⟩ : ∃ n, later - before.length = n + 2 := ⟨later - before.length - 2, by omega⟩
    rw [hn, List.getElem?_cons_succ, List.getElem?_cons_succ] at hrow
    have hnil := hafter _ (List.mem_of_getElem? hrow)
    rw [rowTexts, List.map_eq_nil_iff, atRow, settled] at hnil
    by_contra hnot
    rw [if_neg (by rwa [mem_insertionSort])] at hnil
    have := (List.append_eq_nil_iff.mp hnil).2
    cases this

end Plans

section Normalized

variable {format : Format T} {doc : Document} {plan : EntryPlan}

theorem lineBody_moveCr (line : Line) : lineBody (moveCr line) = lineBody line := by
  unfold moveCr
  by_cases h : line.ending = .lf ∧ line.raw.getLast? = some '\r'
  · rw [if_pos h]
    obtain ⟨init, hraw⟩ := List.getLast?_eq_some_iff.mp h.2
    simp only [lineBody, hraw, List.dropLast_concat]
    exact (body_append_break init (.inr rfl)).symm
  · rw [if_neg h]

theorem bodies_respan (lines : List Line) (offset : Nat) :
    (respan offset lines).map lineBody = lines.map lineBody := by
  induction lines generalizing offset with
  | nil => rfl
  | cons line lines ih =>
    rw [respan, map_cons, map_cons, ih]
    rfl

theorem bodies_setLastEnding (lines : List Line) (ending : LineEnding) :
    (setLastEnding lines ending).map lineBody = lines.map lineBody := by
  cases hlast : lines.getLast? with
  | none => rw [setLastEnding, hlast]
  | some last =>
    rw [setLastEnding_eq hlast]
    conv_rhs => rw [← dropLast_append_last hlast]
    simp only [map_append]
    rfl

theorem bodies_moveCr (lines : List Line) : (lines.map moveCr).map lineBody = lines.map lineBody := by
  rw [map_map]
  apply List.map_congr_left
  intro line _
  exact lineBody_moveCr line

/-- A last line without text and terminator goes. -/
theorem bodies_normalize_concat (init : List Line) {last : Line} (hend : last.ending = .none)
    (hraw : last.raw = []) : (normalize (init ++ [last])).map lineBody = init.map lineBody := by
  have hstay : moveCr last = last := by
    simp [moveCr, hend]
  have hlast : (init.map moveCr ++ [last]).getLast? = some last := List.getLast?_concat
  rw [Source.Doc.normalize, bodies_respan, map_append, List.map_singleton, hstay,
    dropEmptyLast, hlast]
  simp only [hend, hraw, and_self, if_true, List.dropLast_concat]
  exact bodies_moveCr init

/-- `normalize` keeps the lines, or drops a last one without text and terminator. -/
theorem bodies_normalize (lines : List Line) :
    (normalize lines).map lineBody = lines.map lineBody ∨
      ∃ init last, lines = init ++ [last] ∧ last.ending = .none ∧ last.raw = [] ∧
        (normalize lines).map lineBody = init.map lineBody := by
  rcases List.eq_nil_or_concat lines with rfl | ⟨init, last, rfl⟩
  · exact .inl rfl
  · rw [List.concat_eq_append]
    by_cases hempty : last.ending = .none ∧ last.raw = []
    · exact .inr ⟨init, last, rfl, hempty.1, hempty.2,
        bodies_normalize_concat init hempty.1 hempty.2⟩
    · have hlast : ((init ++ [last]).map moveCr).getLast? = some (moveCr last) := by simp
      have hstay : ¬ ((moveCr last).ending = .none ∧ (moveCr last).raw = []) := by
        intro hmoved
        have hnone := (moveCr_ending_none last).mp hmoved.1
        have hsame : moveCr last = last := by simp [moveCr, hnone]
        exact hempty ⟨hnone, by rw [← hsame]; exact hmoved.2⟩
      rw [Source.Doc.normalize, bodies_respan, dropEmptyLast, hlast]
      simp only [hstay, if_false]
      exact .inl (bodies_moveCr _)

theorem continued_normalize {lines : List Line}
    (h : ∀ init line last, lines = init ++ [line, last] → last.ending = .none → last.raw = [] →
      joins (lineBody line) = false) :
    continued ((normalize lines).map lineBody) = continued (lines.map lineBody) := by
  rcases bodies_normalize lines with hsame | ⟨init, last, rfl, hend, hraw, hdrop⟩
  · rw [hsame]
  · rw [hdrop, map_append, List.map_singleton]
    refine (continuedFrom_concat_plain ?_ (fun _ => rfl) (fun text htext => ?_)).symm
    · rw [lineBody, hraw]
      rfl
    · rw [List.getLast?_map] at htext
      obtain ⟨line, hline, rfl⟩ := Option.map_eq_some_iff.mp htext
      obtain ⟨before, rfl⟩ := List.getLast?_eq_some_iff.mp hline
      exact h before line last (by simp) hend hraw

/-- What a plan of entry edits has to be for the continued lines to stay. -/
theorem applyPlan_continued (hshape : Shape doc.classify doc.lines) (hone : AtMostOne plan)
    (hclean : CleanPlan plan) (h : KeepsJoins doc.lines plan)
    (hinside : ∀ x ∈ plan.insert, x.1 ≤ doc.lines.length)
    (hentries : ∀ row ∈ plan.remove, entryAt format doc.lines row)
    (hclose : ∀ row, ¬ EmptyClose format doc.lines row) :
    continued ((doc.applyPlan plan).1.lines.map lineBody) = continued (doc.lines.map lineBody) := by
  rw [applyPlan_lines, ← merged_continued hone h hinside]
  show continued ((normalize _).map lineBody) = _
  have hending : ∀ line ∈ merged doc plan, line.ending ≠ .none :=
    fun line hmem => (mem_merged hclean hmem).1
  by_cases hun : endsUnterminated doc.lines = true
  · rw [if_pos hun, continued_normalize, bodies_setLastEnding]
    intro init line last hlines hend hraw
    by_contra hjoins
    rw [Bool.not_eq_false] at hjoins
    -- the merged lines end in the same two
    obtain ⟨old, hmerged, hold⟩ : ∃ old, merged doc plan = init ++ [line, old] ∧ old.raw = [] := by
      rcases List.eq_nil_or_concat (merged doc plan) with hnil | ⟨before, old, hmerged⟩
      · rw [hnil, setLastEnding] at hlines
        simp at hlines
      · rw [List.concat_eq_append] at hmerged
        have hlast : (merged doc plan).getLast? = some old := by rw [hmerged]; simp
        rw [setLastEnding_eq hlast, hmerged, List.dropLast_concat,
          show init ++ [line, last] = (init ++ [line]) ++ [last] by simp] at hlines
        obtain ⟨hbefore, hsame⟩ := List.append_inj' hlines rfl
        obtain rfl : _ = last := List.singleton_inj.mp hsame
        exact ⟨old, by rw [hmerged, hbefore]; simp, hraw⟩
    obtain ⟨row, hrow, hnext, hgone⟩ := merged_open_end hone h hinside hmerged hjoins
    rw [hold] at hnext
    refine hclose row ⟨hrow, hnext, ?_, fun later hge hlt => hentries _ (hgone later hge hlt), hun⟩
    -- the empty line is terminated, so it is not the last
    obtain ⟨next, hget, hempty⟩ := Option.map_eq_some_iff.mp hnext
    have hlt := (List.getElem?_eq_some_iff.mp hget).1
    obtain ⟨final, hfinal, hnone⟩ := (endsUnterminated_iff _).mp hun
    by_contra hle
    have hlast : doc.lines.getLast? = some next := by
      rw [List.getLast?_eq_getElem?, show doc.lines.length - 1 = row + 1 by omega]
      exact hget
    obtain rfl : next = final := Option.some.inj (hlast.symm.trans hfinal)
    exact hshape.ends.last next hlast hnone hempty
  · rw [if_neg hun, continued_normalize]
    intro init line last hlines hend _
    exact absurd hend (hending last (by rw [hlines]; simp))

end Normalized

section Lawful

variable {format : Format T}

/-- The carriage returns at the end of a line change nothing. -/
theorem Format.Lawful.body_eq (h : format.Lawful) {raw : Text} (hbreak : '\n' ∉ raw) :
    format.classify (body raw) = format.classify raw ∧
      format.parseEntry (body raw) = format.parseEntry raw := by
  induction raw using List.reverseRecOn with
  | nil => exact ⟨rfl, rfl⟩
  | append_singleton raw c ih =>
    simp only [List.mem_append, List.mem_singleton, not_or] at hbreak
    by_cases hc : c = '\r'
    · subst hc
      obtain ⟨hclassify, hparse⟩ := ih hbreak.1
      rw [body_append_break raw (.inr rfl), (h.carriage raw).1, (h.carriage raw).2]
      exact ⟨hclassify, hparse⟩
    · rw [body_eq_self (by simpa using ⟨Ne.symm hbreak.2, hc⟩)]
      exact ⟨rfl, rfl⟩

theorem Format.Lawful.not_joins (h : format.Lawful) {raw : Text} (hbreak : '\n' ∉ raw) {entry : T}
    (hentry : format.parseEntry raw = some entry) : joins (body raw) = false := by
  by_contra hjoins
  rw [Bool.not_eq_false] at hjoins
  have hnone := h.joined (body raw) (by simpa [joins] using hjoins)
  rw [(h.body_eq hbreak).2, hentry] at hnone
  cases hnone

variable {lines : List Line}

theorem not_joinsAt_of_entryAt (h : format.Lawful)
    (hsound : ∀ line ∈ lines, Sound format.classify line) (hentry : entryAt format lines row) :
    ¬ joinsAt lines row := by
  obtain ⟨line, entry, hline, hparse⟩ := hentry
  have hbreak := (hsound line (List.mem_of_getElem? hline)).noBreak
  rw [← joins_iff_joinsAt hline, Bool.not_eq_true]
  unfold entryOf at hparse
  by_cases hkind : line.kind = .directive
  · rw [if_pos hkind] at hparse
    exact h.not_joins hbreak hparse
  · rw [if_neg hkind] at hparse
    cases hparse

theorem entryAt_lt (h : entryAt format lines row) : row < lines.length := by
  obtain ⟨line, entry, hline, _⟩ := h
  exact (List.getElem?_eq_some_iff.mp hline).1

theorem entryAt_iff :
    entryAt format lines row ↔ row ∈ (entryRows lines format.parseEntry).map (·.1) := by
  constructor
  · rintro ⟨line, entry, hline, hentry⟩
    exact mem_map.mpr ⟨(row, entry), mem_entryRows.mpr ⟨line, hline, hentry⟩, rfl⟩
  · intro hmem
    obtain ⟨⟨row', entry⟩, hfound, rfl⟩ := mem_map.mp hmem
    obtain ⟨line, hline, hentry⟩ := mem_entryRows.mp hfound
    exact ⟨line, entry, hline, hentry⟩

end Lawful

section Places

variable (format : Format T) (lines : List Line)

theorem any_space_iff : (lines[row]?).any
    (fun line => line.kind == .blank || line.kind == .comment) = true ↔ spaceAt lines row := by
  cases hline : lines[row]? with
  | none | some => simp [spaceAt, hline]

/-- `retreat` goes back over blank lines and comments only, as far as it can. -/
theorem retreat_spec {start stop : Nat} (hle : start ≤ stop) :
    (∀ row, retreat lines start stop ≤ row → row < stop → spaceAt lines row) ∧
      (retreat lines start stop = start ∨
        ∃ row, row + 1 = retreat lines start stop ∧ start ≤ row ∧ ¬ spaceAt lines row) := by
  induction stop with
  | zero => exact ⟨fun row _ hlt => by omega, .inl (by simp [retreat]; omega)⟩
  | succ stop ih =>
    rw [retreat]
    by_cases h : stop + 1 > start ∧
        (lines[stop]?).any (fun line => line.kind == .blank || line.kind == .comment) = true
    · rw [if_pos h]
      obtain ⟨hspace, hend⟩ := ih (by omega)
      refine ⟨fun row hge hlt => ?_, hend⟩
      by_cases hlast : row = stop
      · rw [hlast]
        exact (any_space_iff lines).mp h.2
      · exact hspace row hge (by omega)
    · rw [if_neg h]
      refine ⟨fun row hge hlt => by omega, ?_⟩
      by_cases hstart : stop + 1 = start
      · exact .inl hstart
      · refine .inr ⟨stop, rfl, by omega, fun hspace => h ⟨by omega, ?_⟩⟩
        exact (any_space_iff lines).mpr hspace

/-- The end of a section: before `stop`, where the next one opens or the limit is,
without the blank lines and comments there. -/
theorem sectionEnd_spec {start limit : Nat} (hle : start ≤ limit) :
    ∃ stop, stop ≤ limit ∧ sectionEnd lines start limit format.opensSection ≤ stop ∧
      (stop = limit ∨ opensAt format lines stop) ∧
      (∀ row, start ≤ row → row < stop → ¬ opensAt format lines row) ∧
      (∀ row, sectionEnd lines start limit format.opensSection ≤ row → row < stop →
        spaceAt lines row) ∧
      (sectionEnd lines start limit format.opensSection = start ∨
        ∃ row, row + 1 = sectionEnd lines start limit format.opensSection ∧ start ≤ row ∧
          ¬ spaceAt lines row) := by
  have hget : ∀ n, start + n < limit →
      (((lines.zipIdx).take limit).drop start)[n]? = (lines[start + n]?).map (·, start + n) := by
    intro n hn
    rw [List.getElem?_drop, List.getElem?_take_of_lt hn, List.getElem?_zipIdx]
    simp
  rw [sectionEnd_eq]
  cases hfind : ((lines.zipIdx.take limit).drop start).find?
      (fun entry => format.opensSection entry.1.raw) with
  | none =>
    obtain ⟨hspace, hend⟩ := retreat_spec lines hle
    refine ⟨limit, Nat.le_refl _, retreat_le lines start limit, .inl rfl, ?_, hspace, hend⟩
    rintro row hge hlt ⟨line, hline, hopens⟩
    have hrow := hget (row - start) (by omega)
    rw [show start + (row - start) = row by omega, hline] at hrow
    have hnone := List.find?_eq_none.mp hfind (line, row) (List.mem_of_getElem? hrow)
    exact hnone hopens
  | some found =>
    obtain ⟨hopens, n, hn, hfound, hbefore⟩ := List.find?_eq_some_iff_getElem.mp hfind
    have hlt : start + n < limit := by
      simp only [List.length_drop, List.length_take] at hn
      omega
    have hrow := hget n hlt
    rw [List.getElem?_eq_getElem hn, hfound] at hrow
    obtain ⟨line, hline, rfl⟩ := Option.map_eq_some_iff.mp hrow.symm
    obtain ⟨hspace, hend⟩ := retreat_spec lines (show start ≤ start + n by omega)
    refine ⟨start + n, by omega, retreat_le lines start _, .inr ⟨line, hline, hopens⟩, ?_, hspace,
      hend⟩
    rintro row hge hlt' ⟨other, hother, hopens'⟩
    have hprev := hbefore (row - start) (by omega)
    have hrow' := hget (row - start) (by omega)
    rw [show start + (row - start) = row by omega, hother,
      List.getElem?_eq_getElem (by omega)] at hrow'
    rw [Option.some.inj hrow'] at hprev
    simp only [hopens', Bool.not_true] at hprev
    cases hprev

/-- A place that new lines can take: nothing joins it, and unless it is the limit
already, no section opens between it and an entry before it. -/
def PlaceClear (limit place : Nat) : Prop :=
  ¬ joinedAt lines place ∧ (place = limit ∨ ∃ first, first < place ∧ entryAt format lines first ∧
    ∀ other, first < other → other < place → ¬ opensAt format lines other)

variable {format lines}

/-- A new section goes to a place of the same kind. -/
theorem sectionEnd_clear (hheaders : HeadersClear format lines) {limit place : Nat}
    (hle : place ≤ limit) (hlimit : limit ≤ lines.length)
    (hends : limit = lines.length ∨ entryAt format lines limit)
    (h : PlaceClear format lines limit place) :
    PlaceClear format lines limit (sectionEnd lines place limit format.opensSection) := by
  obtain ⟨hjoined, rfl | ⟨first, hfirst, hentry, hsection⟩⟩ := h
  · have hbounds := sectionEnd_bounds lines format.opensSection (Nat.le_refl place)
    rw [show sectionEnd lines place place format.opensSection = place by omega]
    exact ⟨hjoined, .inl rfl⟩
  · have hbounds := sectionEnd_bounds lines format.opensSection hle
    obtain ⟨stop, hstop, hbefore, hopens, hinside, hspace, hend⟩ :=
      sectionEnd_spec format lines hle
    have hsame : ∀ other, first < other → other < stop → ¬ opensAt format lines other := by
      intro other hgt hlt
      by_cases hplace : other < place
      · exact hsection other hgt hplace
      · exact hinside other (by omega) hlt
    refine ⟨?_, .inr ⟨first, by omega, hentry, fun other hgt hlt => hsame other hgt (by omega)⟩⟩
    rcases hend with hend | ⟨row, hrow, hge, htext⟩
    · rw [hend]
      exact hjoined
    · rintro ⟨before, hbefore', hjoins⟩
      obtain rfl : before = row := by omega
      refine hheaders first before stop ⟨by omega, by omega, by omega, hentry, hjoins, htext, hsame,
        fun other hgt hlt => hspace other (by omega) hlt, ?_⟩
      rcases hopens with rfl | hopens
      · exact hends.imp id .inr
      · exact .inr (.inl hopens)

/-- The limit of the next new line, for the entries placed from here on. -/
def limitOf (lines : List Line) (places : List (Placement T)) : Nat :=
  (nextRow (places.map slot)).getD lines.length

/-- No new line goes where the line before would join it. The induction is on the
placements; `place` is where the last one ended. -/
theorem inserts_clear (hapart : Apart format lines) (hlawful : format.Lawful)
    (hsound : ∀ line ∈ lines, Sound format.classify line) (places : List (Placement T))
    (place : Option Nat)
    (hheaders : ∀ raw entry, .added raw entry ∈ places → format.opensSection raw = true →
      HeadersClear format lines)
    (hrows : (places.filterMap Placement.row).Pairwise (· < ·))
    (hentries : ∀ row ∈ places.filterMap Placement.row, entryAt format lines row)
    (hfrom : ∀ row ∈ places.filterMap Placement.row, place.getD 0 ≤ row)
    (hnone : place = none → places.filterMap Placement.row = [] → places ≠ [] →
      ¬ joinedAt lines lines.length)
    (hplace : ∀ start, place = some start → start ≤ limitOf lines places ∧
      PlaceClear format lines (limitOf lines places) start) :
    ∀ x ∈ (keyed lines format.opensSection places place).filterMap insertOf,
      ¬ joinedAt lines x.1 := by
  induction places generalizing place with
  | nil => simp [keyed]
  | cons head places ih =>
    have hrest : ∀ raw entry, .added raw entry ∈ places → format.opensSection raw = true →
        HeadersClear format lines := fun raw entry hmem => hheaders raw entry (by simp [hmem])
    -- after an entry on a row, new lines go right behind it
    have hbehind : ∀ row, head.row = some row →
        ∀ x ∈ (keyed lines format.opensSection places (some (row + 1))).filterMap insertOf,
          ¬ joinedAt lines x.1 := by
      intro row hrow
      rw [List.filterMap_cons_some hrow] at hrows hentries
      have hpair := List.pairwise_cons.mp hrows
      have hentry := hentries row (by simp)
      have hentries' : ∀ other ∈ places.filterMap Placement.row, entryAt format lines other :=
        fun other hmem => hentries other (by simp [hmem])
      refine ih (some (row + 1)) hrest hpair.2 hentries' hpair.1 (fun hc => by cases hc) ?_
      rintro start hstart
      obtain rfl : row + 1 = start := Option.some.inj hstart
      constructor
      · unfold limitOf
        cases hnext : nextRow (places.map slot) with
        | none => exact entryAt_lt hentry
        | some next => exact hpair.1 next (nextRow_mem hnext)
      · refine ⟨?_, .inr ⟨row, by omega, hentry, fun other hgt hlt => by omega⟩⟩
        rintro ⟨before, hbefore, hjoins⟩
        obtain rfl : before = row := by omega
        exact not_joinsAt_of_entryAt hlawful hsound hentry hjoins
    cases head with
    | kept row entry | rewritten row raw entry =>
      rw [keyed, List.filterMap_cons_none rfl]
      exact hbehind row rfl
    | added raw entry =>
      rw [List.filterMap_cons_none rfl] at hrows hentries hfrom hnone
      have hlimit : limitOf lines places ≤ lines.length ∧
          ∀ row ∈ places.filterMap Placement.row, limitOf lines places ≤ row :=
        nextRow_le hrows (fun row hmem => entryAt_lt (hentries row hmem))
      have hends : limitOf lines places = lines.length ∨
          entryAt format lines (limitOf lines places) := by
        unfold limitOf
        cases hnext : nextRow (places.map slot) with
        | none => exact .inl rfl
        | some next => exact .inr (hentries next (nextRow_mem hnext))
      -- the place of this line is clear, and so are those after it
      have hhere : here lines format.opensSection (places.map slot) place raw ≤
            limitOf lines places ∧ PlaceClear format lines (limitOf lines places)
              (here lines format.opensSection (places.map slot) place raw) := by
        cases place with
        | none =>
          refine ⟨Nat.le_refl _, ?_, .inl rfl⟩
          show ¬ joinedAt lines (limitOf lines places)
          unfold limitOf
          cases hnext : nextRow (places.map slot) with
          | none =>
            refine hnone rfl ?_ (by simp)
            by_contra hsome
            obtain ⟨row, hmem⟩ := List.exists_mem_of_ne_nil _ hsome
            have := hlimit.2 row hmem
            have := entryAt_lt (hentries row hmem)
            simp only [limitOf, hnext, Option.getD_none] at *
            omega
          | some next =>
            rintro ⟨before, rfl, hjoins⟩
            exact hapart.entries before hjoins (hentries _ (nextRow_mem hnext))
        | some start =>
          obtain ⟨hle, hclear⟩ := hplace start rfl
          change start ≤ limitOf lines places at hle
          change PlaceClear format lines (limitOf lines places) start at hclear
          unfold here
          by_cases hopens : format.opensSection raw = true
          · simp only [hopens, if_true]
            exact ⟨(sectionEnd_bounds lines format.opensSection hle).2,
              sectionEnd_clear (hheaders raw entry (by simp) hopens) hle hlimit.1 hends hclear⟩
          · simp only [hopens]
            exact ⟨hle, hclear⟩
      have hkey : insertOf (2 * here lines format.opensSection (places.map slot) place raw,
          Placement.added raw entry) =
            some (here lines format.opensSection (places.map slot) place raw, raw) := by
        simp [insertOf]
      rw [keyed, List.filterMap_cons_some hkey]
      intro x hmem
      rcases List.mem_cons.mp hmem with rfl | hmem
      · exact hhere.2.1
      · refine ih _ hrest hrows hentries (fun row hin => Nat.le_trans hhere.1 (hlimit.2 row hin))
          (fun hc => by cases hc) ?_ x hmem
        rintro start hstart
        obtain rfl := Option.some.inj hstart
        exact hhere

end Places

section Texts

variable {format : Format T}

theorem body_splitEnding (segment : Text) : body (splitEnding segment).1 = body segment := by
  cases hlf : stripLast '\n' segment with
  | none => simp only [splitEnding, hlf]
  | some before =>
    rw [stripLast_eq_some hlf, body_append_break _ (.inl rfl)]
    cases hcr : stripLast '\r' before with
    | none => simp only [splitEnding, stripLast_append, hcr]
    | some rest =>
      simp only [splitEnding, stripLast_append, hcr]
      rw [stripLast_eq_some hcr, body_append_break _ (.inr rfl)]

theorem physicalLines_eq (src : Text) (classify : Text → LineKind) :
    physicalLines src = (parse src classify).lines.map lineBody := by
  have hfrom : ∀ (segments : List Text) (offset : Nat),
      segments.map body = (parseFrom classify offset segments).map lineBody := by
    intro segments
    induction segments with
    | nil => exact fun _ => rfl
    | cons segment segments ih =>
      intro offset
      rw [parseFrom, map_cons, map_cons, ← ih, ← body_splitEnding segment]
      rfl
  exact hfrom _ 0

theorem physicalLines_of_canonical {doc : Document} (h : Canonical doc) :
    physicalLines doc.render = doc.lines.map lineBody := by
  rw [physicalLines_eq doc.render doc.classify]
  exact congrArg _ h

theorem Format.Lawful.edited_canonical [DecidableEq T] (hlawful : format.Lawful) {src : Text} {wanted : List T}
    {plan : EntryPlan} (hplan : (parse src format.classify).planEntries wanted format.parseEntry
      format.render format.opensSection = .ok plan) :
    Canonical ((parse src format.classify).applyPlan plan).1 := by
  refine applyPlan_canonical (parse_canonical _ _) (planEntries_clean hplan) (fun _ _ => ?_)
  intro last hhanging _
  obtain ⟨init, hraw⟩ := List.getLast?_eq_some_iff.mp hhanging.2.2
  show format.classify last.raw.dropLast = format.classify last.raw
  rw [hraw, List.dropLast_concat, (hlawful.carriage init).1]

/-- The plan of an entry edit touches no continued line. -/
theorem planEntries_keepsJoins [DecidableEq T] (hlawful : format.Lawful) {doc : Document} {wanted : List T}
    {plan : EntryPlan} {places : List (Placement T)} (hsound : ∀ line ∈ doc.lines,
      Sound format.classify line) (hapart : Apart format doc.lines)
    (hheaders : (∃ entry raw, format.render entry = .ok raw ∧ format.opensSection raw = true) →
      HeadersClear format doc.lines)
    (h : Planned doc wanted format.parseEntry format.render format.opensSection plan places) :
    KeepsJoins doc.lines plan := by
  have hentry : ∀ row ∈ places.filterMap Placement.row ++ plan.remove,
      ¬ joinsAt doc.lines row ∧ ¬ joinedAt doc.lines row := by
    intro row hmem
    have hrow : entryAt format doc.lines row := entryAt_iff.mpr (h.all.mem_iff.mp hmem)
    refine ⟨not_joinsAt_of_entryAt hlawful hsound hrow, ?_⟩
    rintro ⟨before, rfl, hjoins⟩
    exact hapart.entries before hjoins hrow
  have hrendered : ∀ entry raw, format.render entry = .ok raw → checkRaw raw = .ok () →
      joins (body raw) = false := by
    intro entry raw hraw hcheck
    exact hlawful.not_joins (clean_of_checkRaw hcheck).1 (hlawful.rendered entry raw hraw).2
  constructor
  · exact fun row hmem => hentry row (List.mem_append_right _ hmem)
  · intro x hmem
    rw [h.replace] at hmem
    have hrow := (rewrite_rows places).mem (List.mem_map_of_mem hmem)
    obtain ⟨place, hplace, hrewrite⟩ := List.mem_filterMap.mp hmem
    obtain ⟨hjoins, hjoined⟩ := hentry x.1 (List.mem_append_left _ hrow)
    refine ⟨hjoins, hjoined, ?_⟩
    cases place with
    | kept | added => cases hrewrite
    | rewritten row raw entry =>
      obtain rfl := Option.some.inj hrewrite
      have hgood := h.good _ hplace
      exact hrendered entry raw hgood.1 hgood.2
  · intro x hmem
    rw [h.insert] at hmem
    constructor
    · refine inserts_clear hapart hlawful hsound places none ?_ h.increasing ?_
        (fun _ _ => Nat.zero_le _) ?_ nofun x hmem
      · intro raw entry hadded hopens
        exact hheaders ⟨entry, raw, (h.good _ hadded).1, hopens⟩
      · intro row hrow
        exact entryAt_iff.mpr (h.all.mem_iff.mp (List.mem_append_left _ hrow))
      · rintro - hnil hne ⟨before, hbefore, hjoins⟩
        refine hapart.fileEnd (fun row hrow => ?_) before hbefore hjoins
        have hfound : entryRows doc.lines format.parseEntry ≠ [] := by
          intro hempty
          have hin := entryAt_iff.mp hrow
          rw [hempty] at hin
          cases hin
        refine h.placed hfound (fun hwanted => hne ?_) hnil
        have hentries := h.entries
        rw [hwanted, List.map_eq_nil_iff] at hentries
        exact hentries
    · obtain ⟨⟨key, place⟩, hkeyed, hinsert⟩ := List.mem_filterMap.mp hmem
      have hplace : place ∈ places := by
        rw [← keyed_places doc.lines format.opensSection places none]
        exact List.mem_map_of_mem hkeyed
      cases place with
      | kept | rewritten => cases hinsert
      | added raw entry =>
        obtain rfl := Option.some.inj hinsert
        have hgood := h.good _ hplace
        exact hrendered entry raw hgood.1 hgood.2

/-- Where no edit reaches a continued line, every edit keeps them. -/
theorem editEntries_continued [DecidableEq T] (hlawful : format.Lawful) {src : Text} {wanted : List T}
    {doc : Document} {report : EditReport}
    (hapart : Apart format (parse src format.classify).lines)
    (hheaders : (∃ entry raw, format.render entry = .ok raw ∧ format.opensSection raw = true) →
      HeadersClear format (parse src format.classify).lines)
    (h : (parse src format.classify).editEntries wanted format.parseEntry format.render
      format.opensSection = .ok (doc, report)) :
    continued (physicalLines doc.render) = continued (physicalLines src) := by
  obtain ⟨plan, hplan, happly⟩ := ok_of_bind h
  have hdoc : ((parse src format.classify).applyPlan plan).1 = doc :=
    congrArg Prod.fst (Except.ok.inj happly)
  obtain ⟨places, hplanned⟩ := planEntries_spec hplan
  obtain ⟨hshape, _⟩ := (canonical_iff _).mp (parse_canonical src format.classify)
  rw [← hdoc, physicalLines_of_canonical (hlawful.edited_canonical hplan),
    physicalLines_eq src format.classify]
  have hentries : ∀ row ∈ plan.remove, entryAt format (parse src format.classify).lines row :=
    fun row hmem => entryAt_iff.mpr (hplanned.all.mem_iff.mp (List.mem_append_right _ hmem))
  exact applyPlan_continued hshape (planEntries_atMostOne hplan) (planEntries_clean hplan)
    (planEntries_keepsJoins hlawful hshape.sound hapart hheaders hplanned) (planned_inside hplanned)
    hentries hapart.emptyClose

end Texts

end Detent.Guarantees.Continuations
