import Mathlib.Data.Multiset.AddSub
import Detent.Source.ExecDeny

/-!
# Line joins and the execution deny-list

interfaces(5) joins a line that ends in a backslash with the next one before it
reads the words. `ifupdown` reads the physical lines. `joined_covered_iff` says
for which texts the deny-list still covers the joined reading: those whose joins
make no directive appear, compared with previous contents whose joins make none
disappear.
-/
namespace Detent.Guarantees.LineJoins
open Lib Lib.Text Source Source.ExecDeny

/-- `swap_remove` keeps the other elements. -/
theorem swapRemove_perm {α : Type} (before after : List α) (a : α) :
    (swapRemove (before ++ a :: after) before.length).Perm (before ++ after) := by
  rcases List.eq_nil_or_concat after with rfl | ⟨mid, last, rfl⟩
  · simp [swapRemove]
  · rw [List.concat_eq_append]
    have hlast : (before ++ a :: (mid ++ [last])).getLast? = some last := by
      rw [← List.cons_append, ← List.append_assoc]
      exact List.getLast?_concat
    have hset : (before ++ a :: (mid ++ [last])).set before.length last =
        (before ++ last :: mid) ++ [last] := by
      simp
    simp only [swapRemove, hlast, hset, List.dropLast_concat]
    exact (List.perm_append_singleton last mid).symm.append_left before

theorem findIdx?_split (before : List Text) (found : Text) (index : Nat)
    (h : before.findIdx? (· == found) = some index) :
    ∃ left right, before = left ++ found :: right ∧ left.length = index := by
  obtain ⟨hlt, hfound, _⟩ := List.findIdx?_eq_some_iff_getElem.mp h
  refine ⟨before.take index, before.drop (index + 1), ?_, List.length_take_of_le (by omega)⟩
  have heq : before[index] = found := by simpa using hfound
  rw [← heq]
  simp

/-- The search finds an unmatched directive exactly when the directives found
are not among those of before, counted. -/
theorem anyUnmatched_iff (before found : List Text) :
    anyUnmatched before found = true ↔ ¬ (found : Multiset Text) ≤ before := by
  induction found generalizing before with
  | nil =>
    have hempty : (([] : List Text) : Multiset Text) ≤ before := Multiset.zero_le _
    simp only [anyUnmatched, hempty, not_true_eq_false, Bool.false_eq_true]
  | cons f rest ih =>
    cases hidx : before.findIdx? (· == f) with
    | none =>
      have hnot : f ∉ before := by
        intro hmem
        simpa using List.findIdx?_eq_none_iff.mp hidx f hmem
      have hnle : ¬ ((f :: rest : List Text) : Multiset Text) ≤ before := by
        intro hle
        exact hnot (Multiset.mem_of_le hle (by simp))
      simp only [anyUnmatched, hidx, true_iff]
      exact hnle
    | some index =>
      obtain ⟨left, right, rfl, hlen⟩ := findIdx?_split before f index hidx
      have hperm := swapRemove_perm left right f
      rw [hlen] at hperm
      have hcoe : ((left ++ f :: right : List Text) : Multiset Text) =
          f ::ₘ (swapRemove (left ++ f :: right) index : Multiset Text) := by
        rw [Multiset.cons_coe, Multiset.coe_eq_coe]
        exact List.perm_middle.trans (hperm.symm.cons f)
      have hrest : ((f :: rest : List Text) : Multiset Text) = f ::ₘ (rest : Multiset Text) := rfl
      rw [anyUnmatched, hidx, hcoe, hrest, Multiset.cons_le_cons_iff]
      exact ih _

/-- The directives found in a text of the network module, counted. -/
def directives (text : Text) : Multiset Text := execDirectives "network" text

theorem adds_iff (p t : Text) :
    addsExecDirective "network" (utf8 p) (utf8 t) = true ↔ ¬ directives t ≤ directives p := by
  rw [addsExecDirective, fromUtf8Lossy_utf8, fromUtf8Lossy_utf8]
  exact anyUnmatched_iff _ _

/-- `J(t)`: every backslash-newline pair removed. -/
def joined : Text → Text
  | '\\' :: '\n' :: rest => joined rest
  | c :: rest => c :: joined rest
  | [] => []

/-- What the deny-list owes the joined reading: a candidate whose joined reading
adds a directive is refused. -/
def Covered (p t : Text) : Prop :=
  ¬ directives (joined t) ≤ directives (joined p) →
    addsExecDirective "network" (utf8 p) (utf8 t) = true

/-- Joining the lines makes no directive appear that the physical lines do not
already show. -/
def JoinsAddNothing (t : Text) : Prop := directives (joined t) ≤ directives t

/-- Joining the lines makes no directive of the physical lines disappear. -/
def JoinsHideNothing (p : Text) : Prop := directives p ≤ directives (joined p)

instance (t : Text) : Decidable (JoinsAddNothing t) :=
  inferInstanceAs (Decidable (directives (joined t) ≤ directives t))

instance (p : Text) : Decidable (JoinsHideNothing p) :=
  inferInstanceAs (Decidable (directives p ≤ directives (joined p)))

theorem covered_of_joins (p t : Text) (ht : JoinsAddNothing t) (hp : JoinsHideNothing p) :
    Covered p t := by
  intro hnot
  rw [adds_iff]
  intro hle
  exact hnot (ht.trans (hle.trans hp))

/-- The trimmed lines that `ifupdown` reports. -/
def flagged (t : Text) : List Text := ((lines t).map trim).filter ifupdownFlags

/-- The reported lines of `t`, each followed by a space so that none joins. -/
def spaced (t : Text) : Text := terminate '\n' ((flagged t).map (fun line => line ++ [' ']))

theorem ifupdown_eq (t : Text) : ifupdown t = (flagged t).map squash := by
  unfold ifupdown flagged
  induction lines t with
  | nil => rfl
  | cons line rest ih =>
    simp only [List.filterMap_cons, List.map_cons, List.filter_cons, ih]
    split <;> simp_all

theorem newline_not_mem_stripCr (line : Text) (h : '\n' ∉ line) : '\n' ∉ stripCr line := by
  unfold stripCr stripLast
  cases hrev : line.reverse with
  | nil => simpa using h
  | cons last rest =>
    simp only
    split
    · have hsub : ∀ c ∈ rest.reverse, c ∈ line := by
        intro c hc
        rw [← List.reverse_reverse line, hrev]
        simp [List.mem_reverse.mp hc]
      exact fun hmem => h (hsub _ hmem)
    · exact h

theorem newline_not_mem_linesOf (pieces : List Text) (h : ∀ piece ∈ pieces, '\n' ∉ piece) :
    ∀ line ∈ linesOf pieces, '\n' ∉ line := by
  induction pieces with
  | nil => intro line hl; cases hl
  | cons piece rest ih =>
    cases rest with
    | nil =>
      intro line hl
      simp only [linesOf] at hl
      split at hl
      · cases hl
      · obtain rfl := List.mem_singleton.mp hl
        exact h _ (by simp)
    | cons next rest =>
      intro line hl
      simp only [linesOf, List.mem_cons] at hl
      rcases hl with rfl | hl
      · exact newline_not_mem_stripCr piece (h piece (by simp))
      · exact ih (fun q hq => h q (by simp [hq])) line (by simpa using hl)

theorem newline_not_mem_lines (t line : Text) (h : line ∈ lines t) : '\n' ∉ line :=
  newline_not_mem_linesOf _ (fun piece hp => not_mem_of_mem_splitOn '\n' t piece hp) line h

theorem mem_of_mem_trim (t : Text) (c : Char) (h : c ∈ trim t) : c ∈ t :=
  (List.dropWhile_sublist _).subset ((List.rdropWhile_prefix _ _).subset h)

/-- The lines of `spaced t` are the reported lines of `t`. -/
theorem flagged_spaced (t : Text) : flagged (spaced t) = flagged t := by
  have hnl : ∀ piece ∈ (flagged t).map (fun line => line ++ [' ']), '\n' ∉ piece := by
    intro piece hp
    obtain ⟨line, hline, rfl⟩ := List.mem_map.mp hp
    obtain ⟨hmem, _⟩ := List.mem_filter.mp hline
    obtain ⟨raw, hraw, rfl⟩ := List.mem_map.mp hmem
    intro hc
    rcases List.mem_append.mp hc with hc | hc
    · exact newline_not_mem_lines t raw hraw (mem_of_mem_trim raw _ hc)
    · simp at hc
  have hlines : (lines (spaced t)).map trim = flagged t := by
    rw [spaced, lines_terminate _ hnl, List.map_map, List.map_map]
    have hid : ∀ line ∈ flagged t, (trim ∘ stripCr ∘ fun l => l ++ [' ']) line = line := by
      intro line hline
      obtain ⟨hmem, _⟩ := List.mem_filter.mp hline
      obtain ⟨raw, _, rfl⟩ := List.mem_map.mp hmem
      simp only [Function.comp, stripCr_append_space, trim_append_space, trim_idem]
    exact (List.map_congr_left hid).trans (List.map_id _)
  rw [flagged, hlines]
  exact List.filter_eq_self.mpr (fun line hline => (List.mem_filter.mp hline).2)

theorem joined_cons (c : Char) (rest : Text) (h : rest.head? ≠ some '\n') :
    joined (c :: rest) = c :: joined rest := by
  rw [joined]
  intro tail _ htail
  rw [htail] at h
  exact h rfl

/-- A line that ends in a space does not join with what follows. -/
theorem joined_spaced_line (line rest : Text) (h : '\n' ∉ line) :
    joined (line ++ ' ' :: '\n' :: rest) = line ++ ' ' :: '\n' :: joined rest := by
  induction line with
  | nil => simp [joined]
  | cons c line ih =>
    have hline : '\n' ∉ line := fun hc => h (List.mem_cons_of_mem _ hc)
    have hhead : (line ++ ' ' :: '\n' :: rest).head? ≠ some '\n' := by
      cases line with
      | nil => simp
      | cons d line =>
        intro hd
        have : d = '\n' := by simpa using hd
        exact hline (by simp [this])
    rw [List.cons_append, joined_cons c _ hhead, ih hline, List.cons_append]

theorem joined_terminate_spaced (pieces : List Text) (h : ∀ piece ∈ pieces, '\n' ∉ piece) :
    joined (terminate '\n' (pieces.map (fun line => line ++ [' ']))) =
      terminate '\n' (pieces.map (fun line => line ++ [' '])) := by
  induction pieces with
  | nil => rfl
  | cons piece rest ih =>
    rw [List.map_cons, terminate_cons, List.append_assoc, List.singleton_append,
      joined_spaced_line piece _ (h piece (by simp)), ih (fun q hq => h q (by simp [hq]))]

theorem joined_spaced (t : Text) : joined (spaced t) = spaced t := by
  refine joined_terminate_spaced (flagged t) ?_
  intro line hline
  obtain ⟨hmem, _⟩ := List.mem_filter.mp hline
  obtain ⟨raw, hraw, rfl⟩ := List.mem_map.mp hmem
  exact fun hc => newline_not_mem_lines t raw hraw (mem_of_mem_trim raw _ hc)

theorem directives_spaced (t : Text) : directives (spaced t) = directives t := by
  change ((ifupdown (spaced t) : List Text) : Multiset Text) = (ifupdown t : List Text)
  rw [ifupdown_eq, ifupdown_eq, flagged_spaced]

/-- **The joined reading is covered exactly where joins change nothing that
counts.** A candidate is covered against every previous text whose joins hide no
directive if and only if its own joins add none, and a previous text covers every
candidate whose joins add none if and only if its own joins hide none. -/
theorem joined_covered_iff (t p : Text) :
    ((∀ p, JoinsHideNothing p → Covered p t) ↔ JoinsAddNothing t) ∧
    ((∀ t, JoinsAddNothing t → Covered p t) ↔ JoinsHideNothing p) := by
  refine ⟨⟨?_, fun ht p hp => covered_of_joins p t ht hp⟩,
    ⟨?_, fun hp t ht => covered_of_joins p t ht hp⟩⟩
  · intro hall
    -- against the reported lines of `t` themselves, `t` as it stands adds nothing
    have hhide : JoinsHideNothing (spaced t) := by
      unfold JoinsHideNothing
      rw [joined_spaced]
    by_contra hadd
    have hcov := hall (spaced t) hhide
    rw [Covered, adds_iff, joined_spaced, directives_spaced] at hcov
    exact hcov hadd le_rfl
  · intro hall
    have hadd : JoinsAddNothing (spaced p) := by
      unfold JoinsAddNothing
      rw [joined_spaced]
    by_contra hhide
    have hcov := hall (spaced p) hadd
    rw [Covered, adds_iff, joined_spaced, directives_spaced] at hcov
    exact hcov hhide le_rfl

/-- A stanza under a comment of two joined lines, and the same with a hook added: the
condition holds of both texts, and the candidate is refused. -/
theorem plain_hook_covered :
    let p := lit "# uplink \\\n# of the rack\niface eth0 inet dhcp\n"
    let t := lit "# uplink \\\n# of the rack\niface eth0 inet dhcp\n  up /bin/sh\n"
    joined p ≠ p ∧ joined t ≠ t ∧ Covered p t ∧ ¬ directives (joined t) ≤ directives (joined p) :=
  ⟨by decide, by decide, ((joined_covered_iff _ []).1.mpr (by decide)) _ (by decide), by decide⟩

/-- A keyword split over two physical lines is not reported, and the joined line
is a hook. -/
theorem split_keyword_not_covered : ¬ Covered [] (lit "u\\\np rm -rf /\n") := by
  intro h
  have hadds := h (by decide)
  rw [adds_iff] at hadds
  exact hadds (by decide)

end Detent.Guarantees.LineJoins
