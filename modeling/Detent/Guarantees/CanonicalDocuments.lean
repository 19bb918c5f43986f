import Detent.Lib.Machine
import Detent.Guarantees.EntryPlans

/-!
# Edits keep documents canonical

The edits of `crates/detent-core/src/doc.rs` as a machine on documents. An edit
can give a terminator to a last line that had none; when that line ends in a
carriage return and the terminator is `Lf`, `normalize` moves the carriage return
into the terminator and leaves the line's kind as it was.
-/
namespace Detent.Guarantees.CanonicalDocuments
open Lib Lib.Text Source.Doc DocShape
open PlanMerge EntryPlans
open Except (ok.inj)
open List (append_nil dropLast_sublist mem_append mem_insertionSort mem_map mem_singleton)

/-- Text that `checkRaw` accepts cannot break out of its line. -/
def Clean (raw : Text) : Prop := '\n' ∉ raw ∧ '\r' ∉ raw

variable {raw : Text} {opensSection : Text → Bool}

theorem clean_of_checkRaw {u : Unit} (h : checkRaw raw = .ok u) : Clean raw := by
  unfold checkRaw at h
  by_cases hany : raw.any (fun c => c == '\n' || c == '\r' || c == '\x00') = true
  · rw [if_pos hany] at h
    cases h
  · simp only [List.any_eq_true, not_exists, not_and] at hany
    exact ⟨fun hmem => hany _ hmem (by decide), fun hmem => hany _ hmem (by decide)⟩

variable {plan : EntryPlan} {lines : List Line} {last line : Line} {idx : Nat}

section Built

variable {T : Type}

/-- Every text of the plan passed `checkRaw`. -/
structure CleanPlan (plan : EntryPlan) : Prop where
  replace : ∀ x ∈ plan.replace, Clean x.2
  insert : ∀ x ∈ plan.insert, Clean x.2

theorem CleanPlan.empty : CleanPlan {} := ⟨by simp, by simp⟩

theorem CleanPlan.extend {other : EntryPlan} (h : CleanPlan plan) (h' : CleanPlan other) :
    CleanPlan (plan.extend other) := by
  constructor
  · intro x hmem
    rcases mem_append.mp hmem with hmem | hmem
    · exact h.replace x hmem
    · exact h'.replace x hmem
  · intro x hmem
    rcases mem_append.mp hmem with hmem | hmem
    · exact h.insert x hmem
    · exact h'.insert x hmem

theorem planEntries_clean [DecidableEq T] {doc : Document} {wanted : List T}
    {parse : Text → Option T} {render : T → Except EditError Text}
    (h : doc.planEntries wanted parse render opensSection = .ok plan) : CleanPlan plan := by
  obtain ⟨places, hplanned⟩ := planEntries_spec h
  constructor
  · intro x hmem
    rw [hplanned.replace] at hmem
    obtain ⟨place, hplace, hrewrite⟩ := List.mem_filterMap.mp hmem
    cases place with
    | kept row entry => cases hrewrite
    | rewritten row raw entry =>
      obtain rfl := Option.some.inj hrewrite
      exact clean_of_checkRaw (hplanned.good _ hplace).2
    | added raw entry => cases hrewrite
  · intro x hmem
    rw [hplanned.insert] at hmem
    obtain ⟨⟨key, place⟩, hkeyed, hinsert⟩ := List.mem_filterMap.mp hmem
    have hplace : place ∈ places := by
      rw [← keyed_places doc.lines opensSection places none]
      exact mem_map.mpr ⟨(key, place), hkeyed, rfl⟩
    cases place with
    | kept | rewritten => cases hinsert
    | added raw entry =>
      obtain rfl := Option.some.inj hinsert
      exact clean_of_checkRaw (hplanned.good _ hplace).2

end Built

section Endings

variable {classify : Text → LineKind}

theorem dominantEnding_ne_none (lines : List Line) : dominantEnding lines ≠ .none := by
  unfold dominantEnding
  by_cases h : lines.countP (·.ending == .crLf) > lines.countP (·.ending == .lf)
  · simp [h]
  · simp [h]

theorem endsUnterminated_iff (lines : List Line) :
    endsUnterminated lines = true ↔ ∃ last, lines.getLast? = some last ∧ last.ending = .none := by
  cases hlast : lines.getLast? with
  | none | some => simp [endsUnterminated, hlast]

theorem setLastEnding_eq (h : lines.getLast? = some last) (ending : LineEnding) :
    setLastEnding lines ending = lines.dropLast ++ [{ last with ending := ending }] := by
  simp [setLastEnding, h]

theorem dropLast_append_last (h : lines.getLast? = some last) :
    lines.dropLast ++ [last] = lines := by
  obtain ⟨init, rfl⟩ := List.getLast?_eq_some_iff.mp h
  simp

theorem terminated_of_ends (h : Ends lines) (hterminated : ¬ endsUnterminated lines = true) :
    ∀ line ∈ lines, line.ending ≠ .none := by
  intro line hmem
  cases hlast : lines.getLast? with
  | none => simp [List.getLast?_eq_none_iff.mp hlast] at hmem
  | some last =>
    rw [← dropLast_append_last hlast] at hmem
    rcases mem_append.mp hmem with hmem | hmem
    · exact h.before line hmem
    · rw [mem_singleton.mp hmem]
      exact fun hnone => hterminated ((endsUnterminated_iff _).mpr ⟨last, hlast, hnone⟩)

/-- A line of clean text, as an edit makes it. -/
structure Made (classify : Text → LineKind) (line : Line) : Prop where
  kind : line.kind = classify line.raw
  clean : Clean line.raw

theorem Made.sound (h : Made classify line) : Sound classify line :=
  ⟨h.clean.1, h.kind⟩

theorem Made.clear (h : Made classify line) : ¬ Ambiguous line := by
  intro hambiguous
  exact h.clean.2 (List.mem_of_getLast? hambiguous.2)

theorem newLine_made (h : Clean raw) (ending : LineEnding) :
    Made classify (newLine classify raw ending) := ⟨rfl, h⟩

/-- The unterminated last line of a document that ends in a carriage return. -/
def Hanging (doc : Document) (last : Line) : Prop :=
  doc.lines.getLast? = some last ∧ last.ending = .none ∧ last.raw.getLast? = some '\r'

/-- Moving the carriage return of the hanging line into an `Lf` keeps its kind. -/
def KeepsKind (doc : Document) : Prop :=
  ∀ last, Hanging doc last → dominantEnding doc.lines = .lf →
    doc.classify last.raw.dropLast = doc.classify last.raw

/-- Where a line of a canonical document, once terminated, is ambiguous. -/
theorem hanging_of_ambiguous {doc : Document} (hclear : ∀ line ∈ doc.lines, ¬ Ambiguous line)
    (hends : Ends doc.lines) (hmem : line ∈ doc.lines)
    (hambiguous : Ambiguous (terminated (dominantEnding doc.lines) line)) :
    Hanging doc line ∧ dominantEnding doc.lines = .lf := by
  by_cases hend : line.ending = .none
  · rw [terminated, if_pos hend] at hambiguous
    refine ⟨⟨?_, hend, hambiguous.2⟩, hambiguous.1⟩
    cases hlast : doc.lines.getLast? with
    | none => simp [List.getLast?_eq_none_iff.mp hlast] at hmem
    | some last =>
      rw [← dropLast_append_last hlast] at hmem
      rcases mem_append.mp hmem with hmem | hmem
      · exact absurd hend (hends.before line hmem)
      · rw [mem_singleton.mp hmem]
  · rw [terminated, if_neg hend] at hambiguous
    exact absurd hambiguous (hclear line hmem)

end Endings

section Before

variable {doc : Document}

/-- After an insert, only the last line can lack a terminator. -/
theorem inserted_before (h : Ends doc.lines) (hidx : idx ≤ doc.lines.length) (raw : Text) :
    ∀ line ∈ (if idx = doc.lines.length ∧ endsUnterminated doc.lines then
        setLastEnding doc.lines (dominantEnding doc.lines) ++ [newLine doc.classify raw .none]
      else doc.lines.take idx ++ newLine doc.classify raw (dominantEnding doc.lines) ::
        doc.lines.drop idx).dropLast, line.ending ≠ .none := by
  have hdominant := dominantEnding_ne_none doc.lines
  by_cases happend : idx = doc.lines.length ∧ endsUnterminated doc.lines
  · rw [if_pos happend, List.dropLast_concat]
    obtain ⟨last, hlast, _⟩ := (endsUnterminated_iff _).mp happend.2
    rw [setLastEnding_eq hlast]
    intro line hline
    rcases mem_append.mp hline with hline | hline
    · exact h.before line hline
    · rw [mem_singleton.mp hline]
      exact hdominant
  · -- every old line keeps its terminator
    rw [if_neg happend]
    by_cases hlast : idx = doc.lines.length
    · intro line hline
      rw [hlast, List.take_length, List.drop_length, List.dropLast_concat] at hline
      exact terminated_of_ends h (fun hun => happend ⟨hlast, hun⟩) line hline
    · have hdrop : doc.lines.drop idx ≠ [] := by
        rw [Ne, List.drop_eq_nil_iff]
        omega
      have hbefore := h.before
      rw [← List.take_append_drop idx doc.lines, List.dropLast_append_of_ne_nil hdrop] at hbefore
      intro line hline
      rw [List.dropLast_append_of_ne_nil (by simp), List.dropLast_cons_of_ne_nil hdrop] at hline
      rcases mem_append.mp hline with hline | hline
      · exact hbefore line (List.mem_append_left _ hline)
      · rcases List.mem_cons.mp hline with rfl | hline
        · exact hdominant
        · exact hbefore line (List.mem_append_right _ hline)

/-- A rewritten line keeps its terminator. -/
theorem replaced_before (h : Ends doc.lines) (hline : doc.lines[idx]? = some line) (kind : LineKind)
    (raw : Text) :
    ∀ other ∈ (doc.lines.set idx { line with kind := kind, raw := raw }).dropLast,
      other.ending ≠ .none := by
  obtain ⟨hidx, hget⟩ := List.getElem?_eq_some_iff.mp hline
  rw [List.dropLast_eq_take, List.length_set, List.take_set, ← List.dropLast_eq_take]
  intro other hmem
  by_cases hbefore : idx < doc.lines.dropLast.length
  · rcases List.mem_or_eq_of_mem_set hmem with hmem | rfl
    · exact h.before other hmem
    · refine h.before line (List.mem_iff_getElem.mpr ⟨idx, hbefore, ?_⟩)
      rw [List.getElem_dropLast]
      exact hget
  · rw [List.set_eq_of_length_le (by omega)] at hmem
    exact h.before other hmem

/-- All lines left but the last have a terminator. -/
theorem removed_before (h : Ends doc.lines) (hidx : idx < doc.lines.length) :
    ∀ line ∈ (doc.lines.eraseIdx idx).dropLast, line.ending ≠ .none := by
  rw [List.eraseIdx_eq_take_drop_succ]
  intro line hmem
  by_cases hlast : idx + 1 = doc.lines.length
  · rw [hlast, List.drop_length, append_nil] at hmem
    have htake := (dropLast_sublist _).mem hmem
    rw [show idx = doc.lines.length - 1 by omega, ← List.dropLast_eq_take] at htake
    exact h.before line htake
  · have hdrop : doc.lines.drop (idx + 1) ≠ [] := by
      rw [Ne, List.drop_eq_nil_iff]
      omega
    have hends := h.before
    rw [← List.take_append_drop (idx + 1) doc.lines,
      List.dropLast_append_of_ne_nil hdrop] at hends
    rw [List.dropLast_append_of_ne_nil hdrop] at hmem
    rcases mem_append.mp hmem with hmem | hmem
    · exact hends line (List.mem_append_left _ (List.take_subset_take_left _ (by omega) hmem))
    · exact hends line (List.mem_append_right _ hmem)

theorem before_setLastEnding (h : ∀ line ∈ lines.dropLast, line.ending ≠ .none)
    (ending : LineEnding) :
    ∀ line ∈ (setLastEnding lines ending).dropLast, line.ending ≠ .none := by
  cases hlast : lines.getLast? with
  | none => rwa [setLastEnding, hlast]
  | some last =>
    rw [setLastEnding_eq hlast, List.dropLast_concat]
    exact h

end Before

section Steps

variable {doc doc' : Document}

theorem insertLine_canonical_iff (h : Canonical doc) (hstep : doc.insertLine idx raw = .ok doc') :
    Canonical doc' ↔ (idx = doc.lines.length → KeepsKind doc) := by
  obtain ⟨hshape, _⟩ := (canonical_iff doc).mp h
  obtain ⟨u, hcheck, hstep⟩ := ok_of_bind hstep
  have hclean := clean_of_checkRaw hcheck
  by_cases hrange : idx > doc.lines.length
  · rw [if_pos hrange] at hstep
    cases hstep
  rw [if_neg hrange] at hstep
  obtain rfl := ok.inj hstep
  have hbefore := inserted_before hshape.ends (Nat.le_of_not_lt hrange) raw
  by_cases happend : idx = doc.lines.length ∧ endsUnterminated doc.lines
  · rw [if_pos happend] at hbefore ⊢
    obtain ⟨last, hlast, hend⟩ := (endsUnterminated_iff _).mp happend.2
    have hmem : last ∈ doc.lines := List.mem_of_getLast? hlast
    rw [setLastEnding_eq hlast] at hbefore ⊢
    have hedited : Edited doc.classify (doc.lines.dropLast ++
        [{ last with ending := dominantEnding doc.lines }] ++ [newLine doc.classify raw .none]) := by
      refine ⟨fun line hline => ?_, hbefore⟩
      simp only [mem_append, mem_singleton] at hline
      rcases hline with (hline | rfl) | rfl
      · exact hshape.sound line ((dropLast_sublist _).mem hline)
      · exact ⟨(hshape.sound last hmem).noBreak, (hshape.sound last hmem).kind⟩
      · exact (newLine_made hclean .none).sound
    rw [normalize_canonical_iff hedited]
    constructor
    · intro hsame _ hanging hhanging hlf
      obtain rfl : last = hanging := Option.some.inj (hlast.symm.trans hhanging.1)
      exact hsame { last with ending := dominantEnding doc.lines } (by simp) ⟨hlf, hhanging.2.2⟩
    · intro hkeeps line hline hambiguous
      simp only [mem_append, mem_singleton] at hline
      rcases hline with (hline | rfl) | rfl
      · exact absurd hambiguous (hshape.clear line ((dropLast_sublist _).mem hline))
      · exact hkeeps happend.1 last ⟨hlast, hend, hambiguous.2⟩ hambiguous.1
      · exact absurd hambiguous (newLine_made hclean .none).clear
  · rw [if_neg happend] at hbefore ⊢
    have hclear : ∀ line ∈ doc.lines.take idx ++
        newLine doc.classify raw (dominantEnding doc.lines) :: doc.lines.drop idx,
        Sound doc.classify line ∧ ¬ Ambiguous line := by
      intro line hline
      rcases mem_append.mp hline with hline | hline
      · have hold := List.mem_of_mem_take hline
        exact ⟨hshape.sound line hold, hshape.clear line hold⟩
      · rcases List.mem_cons.mp hline with rfl | hline
        · exact ⟨(newLine_made hclean _).sound, (newLine_made hclean _).clear⟩
        · have hold := List.mem_of_mem_drop hline
          exact ⟨hshape.sound line hold, hshape.clear line hold⟩
    rw [normalize_canonical_iff ⟨fun line hline => (hclear line hline).1, hbefore⟩]
    constructor
    · intro _ hidx last hhanging
      exact absurd ⟨hidx, (endsUnterminated_iff _).mpr ⟨last, hhanging.1, hhanging.2.1⟩⟩ happend
    · intro _ line hline hambiguous
      exact absurd hambiguous (hclear line hline).2

theorem replaceRaw_canonical (h : Canonical doc) (hstep : doc.replaceRaw idx raw = .ok doc') :
    Canonical doc' := by
  obtain ⟨hshape, _⟩ := (canonical_iff doc).mp h
  obtain ⟨u, hcheck, hstep⟩ := ok_of_bind hstep
  have hclean := clean_of_checkRaw hcheck
  cases hline : doc.lines[idx]? with
  | none =>
    rw [hline] at hstep
    cases hstep
  | some line =>
    rw [hline] at hstep
    obtain rfl := ok.inj hstep
    have hmade : Made doc.classify { line with kind := doc.classify raw, raw := raw } :=
      ⟨rfl, hclean⟩
    have hclear : ∀ other ∈ doc.lines.set idx { line with kind := doc.classify raw, raw := raw },
        Sound doc.classify other ∧ ¬ Ambiguous other := by
      intro other hmem
      rcases List.mem_or_eq_of_mem_set hmem with hmem | rfl
      · exact ⟨hshape.sound other hmem, hshape.clear other hmem⟩
      · exact ⟨hmade.sound, hmade.clear⟩
    have hedited : Edited doc.classify
        (doc.lines.set idx { line with kind := doc.classify raw, raw := raw }) :=
      ⟨fun other hmem => (hclear other hmem).1, replaced_before hshape.ends hline _ raw⟩
    exact (normalize_canonical_iff hedited).mpr
      (fun other hmem hambiguous => absurd hambiguous (hclear other hmem).2)

theorem edited_setLastEnding (hsound : ∀ line ∈ lines, Sound doc.classify line)
    (hbefore : ∀ line ∈ lines.dropLast, line.ending ≠ .none) :
    Edited doc.classify (setLastEnding lines .none) := by
  cases hlast : lines.getLast? with
  | none =>
    rw [setLastEnding, hlast]
    exact ⟨hsound, hbefore⟩
  | some last =>
    rw [setLastEnding_eq hlast]
    refine ⟨?_, by simpa using hbefore⟩
    intro line hmem
    rcases mem_append.mp hmem with hmem | hmem
    · exact hsound line ((dropLast_sublist _).mem hmem)
    · have := hsound last (List.mem_of_getLast? hlast)
      rw [mem_singleton.mp hmem]
      exact ⟨this.noBreak, this.kind⟩

theorem ambiguous_setLastEnding (hmem : line ∈ setLastEnding lines .none)
    (hambiguous : Ambiguous line) : line ∈ lines.dropLast := by
  cases hlast : lines.getLast? with
  | none =>
    rw [setLastEnding, hlast, List.getLast?_eq_none_iff.mp hlast] at hmem
    simp at hmem
  | some last =>
    rw [setLastEnding_eq hlast] at hmem
    rcases mem_append.mp hmem with hmem | hmem
    · exact hmem
    · rw [mem_singleton.mp hmem] at hambiguous
      simp [Ambiguous] at hambiguous

theorem mem_setLastEnding (hmem : line ∈ lines.dropLast) (ending : LineEnding) :
    line ∈ setLastEnding lines ending := by
  cases hlast : lines.getLast? with
  | none =>
    rw [List.getLast?_eq_none_iff.mp hlast] at hmem
    simp at hmem
  | some last =>
    rw [setLastEnding_eq hlast]
    exact List.mem_append_left _ hmem

theorem removeLine_canonical (h : Canonical doc) (hstep : doc.removeLine idx = .ok doc') :
    Canonical doc' := by
  obtain ⟨hshape, _⟩ := (canonical_iff doc).mp h
  unfold Document.removeLine at hstep
  cases hline : doc.lines[idx]? with
  | none =>
    rw [hline] at hstep
    cases hstep
  | some removed =>
    rw [hline] at hstep
    obtain rfl := ok.inj hstep
    have hclear : ∀ line ∈ doc.lines.eraseIdx idx,
        Sound doc.classify line ∧ ¬ Ambiguous line := by
      intro line hmem
      have hold := List.mem_of_mem_eraseIdx hmem
      exact ⟨hshape.sound line hold, hshape.clear line hold⟩
    have hbefore := removed_before hshape.ends (List.getElem?_eq_some_iff.mp hline).1
    by_cases hend : removed.ending = .none
    · rw [if_pos hend]
      have hedited := edited_setLastEnding (fun line hmem => (hclear line hmem).1) hbefore
      refine (normalize_canonical_iff hedited).mpr (fun line hmem hambiguous => ?_)
      have hdrop := ambiguous_setLastEnding hmem hambiguous
      exact absurd hambiguous (hclear line ((dropLast_sublist _).mem hdrop)).2
    · rw [if_neg hend]
      exact (normalize_canonical_iff ⟨fun line hmem => (hclear line hmem).1, hbefore⟩).mpr
        (fun line hmem hambiguous => absurd hambiguous (hclear line hmem).2)

end Steps

section Plans

variable {doc : Document} {classify : Text → LineKind} {dominant : LineEnding}

theorem nextReplace_mem {row : Nat} {replace rest : List (Nat × Text)} {raw : Option Text}
    (h : nextReplace row replace = (raw, rest)) :
    (∀ text, raw = some text → (row, text) ∈ replace) ∧ ∀ x ∈ rest, x ∈ replace := by
  cases replace with
  | nil =>
    obtain ⟨rfl, rfl⟩ := Prod.mk.inj h
    exact ⟨by simp, by simp⟩
  | cons head tail =>
    obtain ⟨key, text⟩ := head
    by_cases hkey : key = row
    · rw [nextReplace, if_pos hkey] at h
      obtain ⟨rfl, rfl⟩ := Prod.mk.inj h
      exact ⟨by simp [hkey], fun x hmem => by simp [hmem]⟩
    · rw [nextReplace, if_neg hkey] at h
      obtain ⟨rfl, rfl⟩ := Prod.mk.inj h
      exact ⟨by simp, fun x hmem => hmem⟩

/-- What the pass does with one old line: nothing, a rewrite, or its terminator. -/
theorem merge_step (classify : Text → LineKind) (dominant : LineEnding) (row : Nat) (line : Line)
    (lines : List Line) (replace : List (Nat × Text)) (remove : List Nat) (insert : List (Nat × Text)) :
    ∃ (own : List Line) (replace' : List (Nat × Text)) (remove' : List Nat),
      merge classify dominant row (line :: lines) replace remove insert =
        fresh classify dominant (insert.takeWhile (fun (place, _) => decide (place ≤ row))) ++ own ++
          merge classify dominant (row + 1) lines replace' remove'
            (insert.dropWhile (fun (place, _) => decide (place ≤ row))) ∧
      (∀ x ∈ replace', x ∈ replace) ∧
      (own = [] ∨ own = [terminated dominant line] ∨
        ∃ raw, (row, raw) ∈ replace ∧
          own = [terminated dominant { line with kind := classify raw, raw := raw }]) := by
  rw [merge]
  by_cases hremove : remove.head? = some row
  · rw [if_pos hremove]
    exact ⟨[], replace, remove.tail, by rw [append_nil]; rfl, fun x hmem => hmem, .inl rfl⟩
  · rw [if_neg hremove]
    cases hnext : nextReplace row replace with
    | mk raw rest =>
      obtain ⟨hraw, hrest⟩ := nextReplace_mem hnext
      cases raw with
      | none =>
        exact ⟨[terminated dominant line], rest, remove, by rw [List.append_assoc]; rfl, hrest,
          .inr (.inl rfl)⟩
      | some raw =>
        exact ⟨[terminated dominant { line with kind := classify raw, raw := raw }], rest, remove,
          by rw [List.append_assoc]; rfl, hrest, .inr (.inr ⟨raw, hraw raw rfl, rfl⟩)⟩

theorem fresh_made {insert : List (Nat × Text)} (h : ∀ x ∈ insert, Clean x.2)
    (hmem : line ∈ fresh classify dominant insert) :
    Made classify line ∧ line.ending = dominant := by
  obtain ⟨x, hx, rfl⟩ := mem_map.mp hmem
  exact ⟨newLine_made (h x hx) dominant, rfl⟩

theorem terminated_ending (hdominant : dominant ≠ .none) (line : Line) :
    (terminated dominant line).ending ≠ .none := by
  unfold terminated
  by_cases h : line.ending = .none
  · rw [if_pos h]
    exact hdominant
  · rw [if_neg h]
    exact h

theorem terminated_made (h : Made classify line) : Made classify (terminated dominant line) := by
  unfold terminated
  by_cases hend : line.ending = .none
  · rw [if_pos hend]
    exact ⟨h.kind, h.clean⟩
  · rw [if_neg hend]
    exact h

/-- Every line of the pass is new, rewritten, or an old line with a terminator. -/
theorem mem_merge (hdominant : dominant ≠ .none) (row : Nat) (lines : List Line)
    (replace : List (Nat × Text)) (remove : List Nat) (insert : List (Nat × Text))
    (hreplace : ∀ x ∈ replace, Clean x.2) (hinsert : ∀ x ∈ insert, Clean x.2)
    (hmem : line ∈ merge classify dominant row lines replace remove insert) :
    line.ending ≠ .none ∧ (Made classify line ∨ ∃ old ∈ lines, line = terminated dominant old) := by
  induction lines generalizing row replace remove insert with
  | nil =>
    obtain ⟨hmade, hend⟩ := fresh_made hinsert hmem
    exact ⟨hend ▸ hdominant, .inl hmade⟩
  | cons old lines ih =>
    obtain ⟨own, replace', remove', hmerge, hsub, hown⟩ :=
      merge_step classify dominant row old lines replace remove insert
    rw [hmerge] at hmem
    simp only [mem_append] at hmem
    rcases hmem with (hmem | hmem) | hmem
    · obtain ⟨hmade, hend⟩ :=
        fresh_made (fun x hx => hinsert x (List.takeWhile_subset _ hx)) hmem
      exact ⟨hend ▸ hdominant, .inl hmade⟩
    · rcases hown with rfl | rfl | ⟨raw, hraw, rfl⟩
      · simp at hmem
      · rw [mem_singleton.mp hmem]
        exact ⟨terminated_ending hdominant old, .inr ⟨old, by simp, rfl⟩⟩
      · rw [mem_singleton.mp hmem]
        exact ⟨terminated_ending hdominant _, .inl (terminated_made ⟨rfl, hreplace _ hraw⟩)⟩
    · obtain ⟨hend, hline⟩ := ih (row + 1) replace' remove' _ (fun x hx => hreplace x (hsub x hx))
        (fun x hx => hinsert x (List.dropWhile_subset _ hx)) hmem
      rcases hline with hmade | ⟨other, hother, hsame⟩
      · exact ⟨hend, .inl hmade⟩
      · exact ⟨hend, .inr ⟨other, by simp [hother], hsame⟩⟩

/-- Without an insert at the end, what is left of the last old line comes last. -/
theorem merge_last (row : Nat) (lines : List Line) (replace : List (Nat × Text))
    (remove : List Nat) (insert : List (Nat × Text)) (hlines : lines ≠ [])
    (hreplace : ∀ x ∈ replace, Clean x.2) (hinsert : ∀ x ∈ insert, Clean x.2)
    (hinside : ∀ x ∈ insert, x.1 < row + lines.length)
    (hclear : ∀ line ∈ lines.dropLast, ¬ Ambiguous line ∧ line.ending ≠ .none) :
    ∃ out tail, merge classify dominant row lines replace remove insert = out ++ tail ∧
      tail.length ≤ 1 ∧ ∀ line ∈ out, ¬ Ambiguous line := by
  induction lines generalizing row replace remove insert with
  | nil => exact absurd rfl hlines
  | cons old lines ih =>
    obtain ⟨own, replace', remove', hmerge, hsub, hown⟩ :=
      merge_step classify dominant row old lines replace remove insert
    have hfresh : ∀ line ∈ fresh classify dominant
        (insert.takeWhile (fun (place, _) => decide (place ≤ row))), ¬ Ambiguous line :=
      fun line hmem => (fresh_made (fun x hx => hinsert x (List.takeWhile_subset _ hx)) hmem).1.clear
    rw [hmerge]
    cases lines with
    | nil =>
      have hnone : insert.dropWhile (fun (place, _) => decide (place ≤ row)) = [] := by
        apply List.dropWhile_eq_nil_iff.mpr
        intro x hx
        have := hinside x hx
        simp only [List.length_singleton] at this
        simp only [decide_eq_true_eq]
        omega
      rw [hnone]
      refine ⟨_, own, append_nil _, ?_, hfresh⟩
      rcases hown with rfl | rfl | ⟨raw, _, rfl⟩
      · exact Nat.zero_le _
      all_goals exact Nat.le_refl _
    | cons next lines =>
      obtain ⟨out, tail, hrest, htail, hout⟩ := ih (row + 1) replace' remove'
        (insert.dropWhile (fun (place, _) => decide (place ≤ row))) (by simp)
        (fun x hx => hreplace x (hsub x hx)) (fun x hx => hinsert x (List.dropWhile_subset _ hx))
        (fun x hx => by
          have := hinside x (List.dropWhile_subset _ hx)
          simp only [List.length_cons] at this ⊢
          omega)
        (fun line hmem => hclear line (by
          rw [List.dropLast_cons_cons]
          exact List.mem_cons_of_mem _ hmem))
      have hold := hclear old (by simp [List.dropLast_cons_cons])
      rw [hrest, ← List.append_assoc]
      refine ⟨_, tail, rfl, htail, ?_⟩
      intro line hmem
      simp only [mem_append] at hmem
      rcases hmem with (hmem | hmem) | hmem
      · exact hfresh line hmem
      · rcases hown with rfl | rfl | ⟨raw, hraw, rfl⟩
        · simp at hmem
        · rw [mem_singleton.mp hmem, terminated, if_neg hold.2]
          exact hold.1
        · rw [mem_singleton.mp hmem]
          exact (terminated_made ⟨rfl, hreplace _ hraw⟩).clear
      · exact hout line hmem

/-- The plan inserts a line after the last one. -/
def Appends (plan : EntryPlan) (len : Nat) : Prop := ∃ x ∈ plan.insert, len ≤ x.1

/-- The plan removes or rewrites the line, and no line twice. -/
def Settles (plan : EntryPlan) (row : Nat) : Prop :=
  AtMostOne plan ∧ (row ∈ plan.remove ∨ row ∈ plan.replace.map (·.1))

/-- A line added after the hanging one, which the plan leaves there, does not
change its kind. -/
def SafePlan (doc : Document) (plan : EntryPlan) : Prop :=
  Appends plan doc.lines.length → ¬ Settles plan (doc.lines.length - 1) → KeepsKind doc

/-- The lines of the pass before `normalize`. -/
def merged (doc : Document) (plan : EntryPlan) : List Line :=
  merge doc.classify (dominantEnding doc.lines) 0 doc.lines
    (plan.replace.insertionSort (fun a b => a.1 ≤ b.1)) (plan.remove.insertionSort (· ≤ ·))
    (plan.insert.insertionSort (fun a b => a.1 ≤ b.1))

theorem mem_merged (hclean : CleanPlan plan) (hmem : line ∈ merged doc plan) :
    line.ending ≠ .none ∧ (Made doc.classify line ∨
      ∃ old ∈ doc.lines, line = terminated (dominantEnding doc.lines) old) :=
  mem_merge (dominantEnding_ne_none _) 0 doc.lines _ _ _
    (fun x hx => hclean.replace x ((mem_insertionSort _).mp hx))
    (fun x hx => hclean.insert x ((mem_insertionSort _).mp hx)) hmem

variable (hshape : Shape doc.classify doc.lines)
include hshape

theorem merged_sound (hclean : CleanPlan plan) (hmem : line ∈ merged doc plan) :
    Sound doc.classify line := by
  rcases (mem_merged hclean hmem).2 with hmade | ⟨old, hold, rfl⟩
  · exact hmade.sound
  · have hsound := hshape.sound old hold
    unfold terminated
    by_cases hend : old.ending = .none
    · rw [if_pos hend]
      exact ⟨hsound.noBreak, hsound.kind⟩
    · rw [if_neg hend]
      exact hsound

theorem merged_ambiguous (hclean : CleanPlan plan) (hmem : line ∈ merged doc plan)
    (hambiguous : Ambiguous line) :
    ∃ last, Hanging doc last ∧ dominantEnding doc.lines = .lf ∧ line = { last with ending := .lf } := by
  rcases (mem_merged hclean hmem).2 with hmade | ⟨old, hold, rfl⟩
  · exact absurd hambiguous hmade.clear
  · obtain ⟨hhanging, hlf⟩ := hanging_of_ambiguous hshape.clear hshape.ends hold hambiguous
    refine ⟨old, hhanging, hlf, ?_⟩
    rw [terminated, if_pos hhanging.2.1, hlf]

omit hshape in
theorem Hanging.row (hhanging : Hanging doc last) :
    doc.lines[doc.lines.length - 1]? = some last := by
  rw [← List.getLast?_eq_getElem?]
  exact hhanging.1

/-- An unterminated line of a canonical document is its last. -/
theorem row_of_unterminated {row : Nat} (hline : doc.lines[row]? = some line)
    (hend : line.ending = .none) : row = doc.lines.length - 1 := by
  obtain ⟨hrow, hget⟩ := List.getElem?_eq_some_iff.mp hline
  by_contra hne
  have hlt : row < doc.lines.dropLast.length := by
    rw [List.length_dropLast]
    omega
  refine hshape.ends.before line (List.mem_iff_getElem.mpr ⟨row, hlt, ?_⟩) hend
  rw [List.getElem_dropLast]
  exact hget

/-- A plan that removes or rewrites the hanging line leaves none ambiguous. -/
theorem merged_clear_of_settles (hclean : CleanPlan plan)
    (hsettles : Settles plan (doc.lines.length - 1)) :
    ∀ line ∈ merged doc plan, ¬ Ambiguous line := by
  intro line hmem hambiguous
  have hfresh : ∀ insert : List (Nat × Text), (∀ x ∈ insert, x ∈ plan.insert) →
      line ∉ fresh doc.classify (dominantEnding doc.lines) insert := by
    intro insert hsub hin
    exact absurd hambiguous (fresh_made (fun x hx => hclean.insert x (hsub x hx)) hin).1.clear
  rw [merged, merge_eq _ _ _ (sorted_of_atMostOne hsettles.1)] at hmem
  rcases mem_append.mp hmem with hmem | hmem
  · obtain ⟨⟨old, row⟩, hentry, hmem⟩ := List.mem_flatMap.mp hmem
    have hold : doc.lines[row]? = some old := by
      simpa using List.mk_mem_zipIdx_iff_getElem?.mp hentry
    rcases mem_append.mp hmem with hmem | hmem
    · exact hfresh _ (fun x hx =>
        (mem_insertionSort _).mp (List.mem_filter.mp hx).1) hmem
    · unfold settled at hmem
      by_cases hremove : row ∈ plan.remove.insertionSort (· ≤ ·)
      · rw [if_pos hremove] at hmem
        simp at hmem
      · rw [if_neg hremove] at hmem
        obtain rfl := mem_singleton.mp hmem
        cases hlookup : (plan.replace.insertionSort (fun a b => a.1 ≤ b.1)).lookup row with
        | some raw =>
          rw [hlookup] at hambiguous
          have hraw : (row, raw) ∈ plan.replace := by
            obtain ⟨l₁, l₂, hsplit, _⟩ := List.lookup_eq_some_iff.mp hlookup
            rw [← mem_insertionSort (fun a b : Nat × Text => a.1 ≤ b.1), hsplit]
            simp
          exact absurd hambiguous (terminated_made ⟨rfl, hclean.replace _ hraw⟩).clear
        | none =>
          rw [hlookup] at hambiguous
          obtain ⟨hhanging, _⟩ :=
            hanging_of_ambiguous hshape.clear hshape.ends (List.mem_of_getElem? hold) hambiguous
          have hrow := row_of_unterminated hshape hold hhanging.2.1
          rw [mem_insertionSort] at hremove
          rcases hsettles.2 with hin | hin
          · exact hremove (hrow ▸ hin)
          · obtain ⟨x, hx, hkey⟩ := mem_map.mp hin
            have hnone := List.lookup_eq_none_iff.mp hlookup x ((mem_insertionSort _).mpr hx)
            simp [hkey, ← hrow] at hnone
  · exact hfresh _ (fun x hx => (mem_insertionSort _).mp (List.mem_filter.mp hx).1) hmem

/-- Without an insert at the end, no line before the last is ambiguous. -/
theorem merged_dropLast_clear (hclean : CleanPlan plan) (hhanging : Hanging doc last)
    (hnone : ¬ Appends plan doc.lines.length) :
    ∀ line ∈ (merged doc plan).dropLast, ¬ Ambiguous line := by
  have hlines : doc.lines ≠ [] := by
    intro hnil
    have := hhanging.1
    simp [hnil] at this
  obtain ⟨out, tail, hmerge, htail, hout⟩ := merge_last 0 doc.lines
    (plan.replace.insertionSort (fun a b => a.1 ≤ b.1)) (plan.remove.insertionSort (· ≤ ·))
    (plan.insert.insertionSort (fun a b => a.1 ≤ b.1)) hlines
    (fun x hx => hclean.replace x ((mem_insertionSort _).mp hx))
    (fun x hx => hclean.insert x ((mem_insertionSort _).mp hx))
    (fun x hx => by
      by_contra hge
      exact hnone ⟨x, (mem_insertionSort _).mp hx, by omega⟩)
    (fun line hmem => ⟨hshape.clear line ((dropLast_sublist _).mem hmem),
      hshape.ends.before line hmem⟩)
  intro line hmem
  rw [merged, hmerge] at hmem
  cases tail with
  | nil =>
    rw [append_nil] at hmem
    exact hout line ((dropLast_sublist _).mem hmem)
  | cons own rest =>
    obtain rfl : rest = [] := List.length_eq_zero_iff.mp (by simpa using htail)
    rw [List.dropLast_concat] at hmem
    exact hout line hmem

omit hshape

theorem applyPlan_lines (doc : Document) (plan : EntryPlan) :
    (doc.applyPlan plan).1 = ⟨normalize (if endsUnterminated doc.lines then
      setLastEnding (merged doc plan) .none else merged doc plan), doc.classify⟩ := rfl

theorem applyPlan_canonical (h : Canonical doc) (hclean : CleanPlan plan)
    (hsafe : SafePlan doc plan) : Canonical (doc.applyPlan plan).1 := by
  obtain ⟨hshape, _⟩ := (canonical_iff doc).mp h
  have hsound : ∀ line ∈ merged doc plan, Sound doc.classify line :=
    fun line hmem => merged_sound hshape hclean hmem
  have hends : ∀ line ∈ (merged doc plan).dropLast, line.ending ≠ .none :=
    fun line hmem => (mem_merged hclean ((dropLast_sublist _).mem hmem)).1
  rw [applyPlan_lines]
  by_cases hun : endsUnterminated doc.lines = true
  · rw [if_pos hun]
    refine (normalize_canonical_iff (edited_setLastEnding hsound hends)).mpr
      (fun line hmem hambiguous => ?_)
    have hdrop := ambiguous_setLastEnding hmem hambiguous
    have hin := (dropLast_sublist _).mem hdrop
    obtain ⟨last, hhanging, hlf, rfl⟩ := merged_ambiguous hshape hclean hin hambiguous
    have happends : Appends plan doc.lines.length := by
      by_contra hnone
      exact merged_dropLast_clear hshape hclean hhanging hnone _ hdrop hambiguous
    have hsettles : ¬ Settles plan (doc.lines.length - 1) := by
      intro hsettles
      exact merged_clear_of_settles hshape hclean hsettles _ hin hambiguous
    exact hsafe happends hsettles last hhanging hlf
  · rw [if_neg hun]
    refine (normalize_canonical_iff ⟨hsound, hends⟩).mpr (fun line hmem hambiguous => ?_)
    obtain ⟨last, hhanging, _⟩ := merged_ambiguous hshape hclean hmem hambiguous
    exact absurd ((endsUnterminated_iff _).mpr ⟨last, hhanging.1, hhanging.2.1⟩) hun

/-- The condition is exact: the hanging line stays, and the appended line follows it. -/
theorem safePlan_of_canonical (h : Canonical doc) (hclean : CleanPlan plan) (hone : AtMostOne plan)
    (hresult : Canonical (doc.applyPlan plan).1) : SafePlan doc plan := by
  obtain ⟨hshape, _⟩ := (canonical_iff doc).mp h
  intro ⟨x, hx, hplace⟩ hsettles last hhanging hlf
  have hsound : ∀ line ∈ merged doc plan, Sound doc.classify line :=
    fun line hmem => merged_sound hshape hclean hmem
  have hends : ∀ line ∈ (merged doc plan).dropLast, line.ending ≠ .none :=
    fun line hmem => (mem_merged hclean ((dropLast_sublist _).mem hmem)).1
  have hun := (endsUnterminated_iff _).mpr ⟨last, hhanging.1, hhanging.2.1⟩
  rw [applyPlan_lines, if_pos hun,
    normalize_canonical_iff (edited_setLastEnding hsound hends)] at hresult
  refine hresult { last with ending := .lf } (mem_setLastEnding ?_ _) ⟨rfl, hhanging.2.2⟩
  have hsorted := sorted_of_atMostOne hone
  have hremove : doc.lines.length - 1 ∉ plan.remove.insertionSort (· ≤ ·) := by
    rw [mem_insertionSort]
    exact fun hin => hsettles ⟨hone, .inl hin⟩
  have hlookup : (plan.replace.insertionSort (fun a b => a.1 ≤ b.1)).lookup
      (doc.lines.length - 1) = none := by
    rw [List.lookup_eq_none_iff]
    intro y hy
    rw [bne_iff_ne]
    intro hkey
    rw [mem_insertionSort] at hy
    exact hsettles ⟨hone, .inr (mem_map.mpr ⟨y, hy, hkey.symm⟩)⟩
  have hleft : fresh doc.classify (dominantEnding doc.lines)
      ((plan.insert.insertionSort (fun a b => a.1 ≤ b.1)).filter
        (fun y => decide (0 + doc.lines.length ≤ y.1))) ≠ [] := by
    have hin : x ∈ (plan.insert.insertionSort (fun a b => a.1 ≤ b.1)).filter
        (fun y => decide (0 + doc.lines.length ≤ y.1)) := by
      rw [List.mem_filter, mem_insertionSort]
      exact ⟨hx, by simpa using hplace⟩
    exact List.ne_nil_of_mem (List.mem_map_of_mem hin)
  rw [merged, merge_eq _ _ _ hsorted, List.dropLast_append_of_ne_nil hleft]
  refine List.mem_append_left _ (List.mem_flatMap.mpr ⟨(last, doc.lines.length - 1), ?_, ?_⟩)
  · rw [List.mk_mem_zipIdx_iff_getElem?]
    exact hhanging.row
  · refine List.mem_append_right _ ?_
    rw [settled, if_neg hremove, hlookup, rewritten, terminated, if_pos hhanging.2.1, hlf]
    simp

end Plans

/-- The plans that the public calls can build. -/
inductive Built : EntryPlan → Prop
  | empty : Built {}
  | entries {T : Type} [DecidableEq T] (doc : Document) (wanted : List T)
      (parse : Text → Option T) (render : T → Except EditError Text) (opensSection : Text → Bool)
      {plan : EntryPlan} (h : doc.planEntries wanted parse render opensSection = .ok plan) :
      Built plan
  | replace {plan plan' : EntryPlan} (line : Nat) (raw : Text) (built : Built plan)
      (h : plan.addReplace line raw = .ok plan') : Built plan'
  | remove {plan : EntryPlan} (line : Nat) (built : Built plan) : Built (plan.addRemove line)
  | insert {plan plan' : EntryPlan} (place : Nat) (raw : Text) (built : Built plan)
      (h : plan.addInsert place raw = .ok plan') : Built plan'
  | extend {plan other : EntryPlan} (built : Built plan) (built' : Built other) :
      Built (plan.extend other)

theorem Built.clean (h : Built plan) : CleanPlan plan := by
  induction h with
  | empty => exact CleanPlan.empty
  | entries doc wanted parse render opensSection hplan => exact planEntries_clean hplan
  | replace line raw _ hadd ih =>
    obtain ⟨u, hcheck, hadd⟩ := ok_of_bind hadd
    obtain rfl := ok.inj hadd
    refine ⟨fun x hmem => ?_, ih.insert⟩
    rcases mem_append.mp hmem with hmem | hmem
    · exact ih.replace x hmem
    · rw [mem_singleton.mp hmem]
      exact clean_of_checkRaw hcheck
  | remove line _ ih => exact ⟨ih.replace, ih.insert⟩
  | insert place raw _ hadd ih =>
    obtain ⟨u, hcheck, hadd⟩ := ok_of_bind hadd
    obtain rfl := ok.inj hadd
    refine ⟨ih.replace, fun x hmem => ?_⟩
    rcases mem_append.mp hmem with hmem | hmem
    · exact ih.insert x hmem
    · rw [mem_singleton.mp hmem]
      exact clean_of_checkRaw hcheck
  | extend _ _ ih ih' => exact ih.extend ih'

/-- One call on a document. -/
inductive Edit : Type 1
  | insertLine (idx : Nat) (raw : Text)
  | replaceRaw (idx : Nat) (raw : Text)
  | removeLine (idx : Nat)
  | editEntries {T : Type} [DecidableEq T] (wanted : List T) (parse : Text → Option T)
      (render : T → Except EditError Text) (opensSection : Text → Bool)
  | applyPlan (plan : EntryPlan) (built : Built plan)

/-- The document after a successful call. -/
def editStep (doc : Document) : Edit → Option Document
  | .insertLine idx raw => (doc.insertLine idx raw).toOption
  | .replaceRaw idx raw => (doc.replaceRaw idx raw).toOption
  | .removeLine idx => (doc.removeLine idx).toOption
  | @Edit.editEntries _ _ wanted parse render opensSection =>
    (doc.editEntries wanted parse render opensSection).toOption.map (·.1)
  | .applyPlan plan _ => some (doc.applyPlan plan).1

/-- The call does not give an `Lf` to a hanging line whose kind then changes. -/
def Safe (doc : Document) : Edit → Prop
  | .insertLine idx _ => idx = doc.lines.length → KeepsKind doc
  | .replaceRaw _ _ => True
  | .removeLine _ => True
  | @Edit.editEntries _ _ wanted parse render opensSection =>
    ∀ plan, doc.planEntries wanted parse render opensSection = .ok plan → SafePlan doc plan
  | .applyPlan plan _ => SafePlan doc plan

theorem editEntries_plan {T : Type} [DecidableEq T] {doc doc' : Document} {wanted : List T}
    {parse : Text → Option T} {render : T → Except EditError Text}
    (h : editStep doc (.editEntries wanted parse render opensSection) = some doc') :
    ∃ plan, doc.planEntries wanted parse render opensSection = .ok plan ∧
      doc' = (doc.applyPlan plan).1 := by
  obtain ⟨result, hresult, rfl⟩ := Option.map_eq_some_iff.mp h
  obtain ⟨plan, hplan, happly⟩ := ok_of_bind (eq_ok_of_toOption hresult)
  exact ⟨plan, hplan, by rw [← ok.inj happly]⟩

theorem applyPlan_held {doc : Document} (hclean : CleanPlan plan) :
    Held (doc.applyPlan plan).1.lines := by
  have hends : ∀ line ∈ (merged doc plan).dropLast, line.ending ≠ .none :=
    fun line hmem => (mem_merged hclean ((dropLast_sublist _).mem hmem)).1
  rw [applyPlan_lines]
  by_cases hun : endsUnterminated doc.lines = true
  · rw [if_pos hun]
    exact normalize_held (before_setLastEnding hends .none)
  · rw [if_neg hun]
    exact normalize_held hends

variable {edit : Edit}

/-- Any call leaves lines that `normalize` changes no more. -/
theorem editStep_held {doc doc' : Document} (h : Held doc.lines)
    (hstep : editStep doc edit = some doc') : Held doc'.lines := by
  cases edit with
  | insertLine idx raw =>
    obtain ⟨u, _, hstep⟩ := ok_of_bind (eq_ok_of_toOption hstep)
    by_cases hrange : idx > doc.lines.length
    · rw [if_pos hrange] at hstep
      cases hstep
    · rw [if_neg hrange] at hstep
      obtain rfl := ok.inj hstep
      exact normalize_held (inserted_before h.ends (Nat.le_of_not_lt hrange) raw)
  | replaceRaw idx raw =>
    obtain ⟨u, _, hstep⟩ := ok_of_bind (eq_ok_of_toOption hstep)
    cases hline : doc.lines[idx]? with
    | none =>
      rw [hline] at hstep
      cases hstep
    | some line =>
      rw [hline] at hstep
      obtain rfl := ok.inj hstep
      exact normalize_held (replaced_before h.ends hline _ raw)
  | removeLine idx =>
    have hremove := eq_ok_of_toOption hstep
    unfold Document.removeLine at hremove
    cases hline : doc.lines[idx]? with
    | none =>
      rw [hline] at hremove
      cases hremove
    | some removed =>
      rw [hline] at hremove
      obtain rfl := ok.inj hremove
      have hbefore := removed_before h.ends (List.getElem?_eq_some_iff.mp hline).1
      by_cases hend : removed.ending = .none
      · simp only [hend, if_true]
        exact normalize_held (before_setLastEnding hbefore .none)
      · simp only [hend, if_false]
        exact normalize_held hbefore
  | editEntries wanted parse render opensSection =>
    obtain ⟨plan, hplan, rfl⟩ := editEntries_plan hstep
    exact applyPlan_held (planEntries_clean hplan)
  | applyPlan plan built =>
    obtain rfl := Option.some.inj hstep
    exact applyPlan_held built.clean

/-- The lines of every document that calls can reach. -/
theorem reachable_held {src : Text} {classify : Text → LineKind} {edits : List Edit} {doc : Document}
    (hrun : Run (Steps editStep) (parse src classify) edits doc) : Held doc.lines :=
  Run.invariant (I := fun doc => Held doc.lines) (fun _ _ _ h hstep => editStep_held h hstep) hrun
    (parse_canonical src classify).held

theorem editStep_canonical {doc doc' : Document} (h : Canonical doc) (hsafe : Safe doc edit)
    (hstep : editStep doc edit = some doc') : Canonical doc' := by
  cases edit with
  | insertLine idx raw =>
    exact (insertLine_canonical_iff h (eq_ok_of_toOption hstep)).mpr hsafe
  | replaceRaw idx raw => exact replaceRaw_canonical h (eq_ok_of_toOption hstep)
  | removeLine idx => exact removeLine_canonical h (eq_ok_of_toOption hstep)
  | editEntries wanted parse render opensSection =>
    obtain ⟨plan, hplan, rfl⟩ := editEntries_plan hstep
    exact applyPlan_canonical h (planEntries_clean hplan) (hsafe plan hplan)
  | applyPlan plan built =>
    obtain rfl := Option.some.inj hstep
    exact applyPlan_canonical h built.clean hsafe

/-- A plan that the caller made takes at most one rewrite or removal per line. -/
def PlansOnce : Edit → Prop
  | .applyPlan plan _ => AtMostOne plan
  | _ => True

/-- A call that is not safe leaves a document that is not canonical. -/
theorem safe_of_canonical {doc doc' : Document} (h : Canonical doc) (honce : PlansOnce edit)
    (hstep : editStep doc edit = some doc') (hresult : Canonical doc') : Safe doc edit := by
  cases edit with
  | insertLine idx raw =>
    exact (insertLine_canonical_iff h (eq_ok_of_toOption hstep)).mp hresult
  | replaceRaw | removeLine => trivial
  | editEntries wanted parse render opensSection =>
    intro plan hplan
    obtain ⟨plan', hplan', rfl⟩ := editEntries_plan hstep
    obtain rfl : plan' = plan := ok.inj (hplan'.symm.trans hplan)
    exact safePlan_of_canonical h (planEntries_clean hplan) (planEntries_atMostOne hplan) hresult
  | applyPlan plan built =>
    obtain rfl := Option.some.inj hstep
    exact safePlan_of_canonical h built.clean honce hresult

/-- Documents stay canonical in every run of safe calls from a parsed text, which
renders as it was; and a call that is not safe leaves a canonical document that is
no longer so. -/
theorem documents_stay_canonical (src : Text) (classify : Text → LineKind) :
    (parse src classify).render = src ∧
    (∀ (edits : List Edit) (doc : Document),
      Run (Guarded Safe (Steps editStep)) (parse src classify) edits doc → Canonical doc) ∧
    (∀ (doc doc' : Document) (edit : Edit), Canonical doc → PlansOnce edit →
      editStep doc edit = some doc' → ¬ Safe doc edit → ¬ Canonical doc') := by
  refine ⟨render_parse classify src, ?_, ?_⟩
  · intro edits doc hrun
    exact Run.invariant (I := Canonical)
      (fun _ _ _ h hstep => editStep_canonical h hstep.1 hstep.2) hrun
      (parse_canonical src classify)
  · intro doc doc' edit h honce hstep hunsafe hresult
    exact hunsafe (safe_of_canonical h honce hstep hresult)

namespace Sample

/-- A classifier that reads the whole raw text. -/
def classify (raw : Text) : LineKind := if raw.getLast? = some '\r' then .unknown else .directive

end Sample

/-- A line before the hanging one is no danger: the document stays canonical. -/
theorem insert_before_hanging_canonical :
    Canonical ⟨[⟨.directive, ['b'], .lf, ⟨0, 1⟩⟩, ⟨.unknown, ['a', '\r'], .none, ⟨2, 4⟩⟩],
      Sample.classify⟩ :=
  (documents_stay_canonical ['a', '\r'] Sample.classify).2.1 [.insertLine 0 ['b']] _
    (.cons ⟨fun h => absurd h (by decide +kernel), by rfl⟩ (.nil _))

/-- A line after it is: the kind of `a\r` is kept for `a`. -/
theorem append_after_hanging_not_canonical :
    ¬ ∀ (src : Text) (classify : Text → LineKind) (edits : List Edit) (doc : Document),
      Run (Steps editStep) (parse src classify) edits doc → Canonical doc := by
  intro hall
  have hrun : Run (Steps editStep) (parse ['a', '\r'] Sample.classify) [.insertLine 1 ['b']]
      ⟨[⟨.unknown, ['a'], .crLf, ⟨0, 1⟩⟩, ⟨.directive, ['b'], .none, ⟨3, 4⟩⟩],
        Sample.classify⟩ := .cons (by rfl) (.nil _)
  have hcanonical := hall _ _ _ _ hrun
  revert hcanonical
  decide +kernel

end Detent.Guarantees.CanonicalDocuments
