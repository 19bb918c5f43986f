import Detent.Lib.Text

/-!
# Texts inside texts

A text is found in another exactly where it is an infix, and the lines of a text and the
pieces of a split are infixes of it.
-/
namespace Detent.Lib.Text

variable {pattern : Text}

theorem contains_of_infix {t : Text} (hne : pattern ≠ []) (h : pattern <:+: t) :
    contains pattern t = true := by
  have hmatch : matchSuffixesFrom pattern 0 t ≠ [] := by
    induction t with
    | nil => exact absurd (List.infix_nil.mp h) hne
    | cons c t ih =>
      rw [matchSuffixesFrom]
      split
      · simp
      · rename_i hstart
        rcases List.infix_cons_iff.mp h with hstart' | hrest
        · exact absurd (List.isPrefixOf_iff_prefix.mpr hstart') hstart
        · exact ih hrest
  rw [contains, matchSuffixes]
  simpa using hmatch

theorem infix_join {sep word : Text} {words : List Text} (h : word ∈ words) :
    word <:+: join sep words := by
  match words with
  | [only] =>
    obtain rfl := List.mem_singleton.mp h
    exact List.infix_refl _
  | first :: second :: rest =>
    rw [join]
    · rcases List.mem_cons.mp h with rfl | h
      · exact ⟨[], sep ++ join sep (second :: rest), by simp⟩
      · have hrest : word <:+: join sep (second :: rest) := infix_join h
        exact hrest.trans (List.suffix_append _ _).isInfix
    · simp

theorem stripCr_prefix (line : Text) : stripCr line <+: line := by
  rw [stripCr]
  cases hstrip : stripLast '\r' line with
  | none => exact List.prefix_refl _
  | some rest =>
    rw [stripLast_eq_some hstrip, Option.getD_some]
    exact List.prefix_append _ _

theorem mem_linesOf {line : Text} {pieces : List Text} (h : line ∈ linesOf pieces) :
    ∃ piece ∈ pieces, line <+: piece := by
  match pieces with
  | [last] =>
    rw [linesOf] at h
    split at h
    · cases h
    · obtain rfl := List.mem_singleton.mp h
      exact ⟨line, by simp, List.prefix_refl _⟩
  | piece :: second :: rest =>
    rw [linesOf] at h
    · rcases List.mem_cons.mp h with rfl | h
      · exact ⟨piece, by simp, stripCr_prefix piece⟩
      · obtain ⟨found, hfound, hstart⟩ := mem_linesOf h
        exact ⟨found, List.mem_cons_of_mem _ hfound, hstart⟩
    · simp

theorem infix_of_mem_lines {line t : Text} (h : line ∈ lines t) : line <:+: t := by
  obtain ⟨piece, hpiece, hstart⟩ := mem_linesOf h
  have hinfix : piece <:+: join ['\n'] (t.splitOn '\n') := infix_join hpiece
  rw [join_splitOn] at hinfix
  exact hstart.isInfix.trans hinfix

theorem prefix_append_cons_iff {a b : Text} {c : Char} (hc : c ∉ pattern) :
    pattern <+: a ++ c :: b ↔ pattern <+: a := by
  constructor
  · intro h
    rcases List.prefix_or_prefix_of_prefix h (List.prefix_append a (c :: b)) with hin | hout
    · exact hin
    · obtain ⟨rest, rfl⟩ := hout
      have hrest : rest <+: c :: b := (List.prefix_append_right_inj a).mp h
      cases rest with
      | nil => simp
      | cons d rest =>
        obtain rfl : d = c := (List.cons_prefix_cons.mp hrest).1
        exact absurd (by simp) hc
  · intro h
    exact h.trans (List.prefix_append _ _)

/-- A character outside the pattern separates the matches before it from those after it. -/
theorem matchSuffixesFrom_append_cons {c : Char} (hne : pattern ≠ []) (hc : c ∉ pattern)
    (b : Text) : ∀ (skip : Nat) (a : Text), skip ≤ a.length →
      matchSuffixesFrom pattern skip (a ++ c :: b) =
        (matchSuffixesFrom pattern skip a).map (fun s => s ++ c :: b) ++ matchSuffixes pattern b
  | skip + 1, [], h => absurd h (by simp)
  | skip + 1, d :: a, h => by
    simp only [List.cons_append, matchSuffixesFrom]
    exact matchSuffixesFrom_append_cons hne hc b skip a (by simpa using h)
  | 0, [], _ => by
    have hstart : pattern.isPrefixOf (c :: b) = false := by
      rw [← Bool.not_eq_true, List.isPrefixOf_iff_prefix]
      intro hprefix
      have hnil := (prefix_append_cons_iff (a := []) hc).mp hprefix
      exact hne (List.prefix_nil.mp hnil)
    simp [matchSuffixesFrom, matchSuffixes, hstart]
  | 0, d :: a, _ => by
    have hsame : pattern.isPrefixOf (d :: (a ++ c :: b)) = pattern.isPrefixOf (d :: a) := by
      rw [Bool.eq_iff_iff, List.isPrefixOf_iff_prefix, List.isPrefixOf_iff_prefix]
      exact prefix_append_cons_iff (a := d :: a) hc
    rw [List.cons_append, matchSuffixesFrom, matchSuffixesFrom, hsame]
    split
    · rename_i hstart
      have hlen := (List.isPrefixOf_iff_prefix.mp hstart).length_le
      rw [matchSuffixesFrom_append_cons hne hc b _ a (by simp at hlen; omega)]
      rfl
    · exact matchSuffixesFrom_append_cons hne hc b 0 a (by omega)

theorem matchSuffixes_append_cons {c : Char} (hne : pattern ≠ []) (hc : c ∉ pattern) (a b : Text) :
    matchSuffixes pattern (a ++ c :: b) =
      (matchSuffixes pattern a).map (fun s => s ++ c :: b) ++ matchSuffixes pattern b :=
  matchSuffixesFrom_append_cons hne hc b 0 a (by omega)

theorem matchSuffixesFrom_skip (pattern b : Text) :
    ∀ a : Text, matchSuffixesFrom pattern a.length (a ++ b) = matchSuffixes pattern b
  | [] => rfl
  | _ :: a => by
    rw [List.length_cons, List.cons_append, matchSuffixesFrom]
    exact matchSuffixesFrom_skip pattern b a

theorem matchSuffixes_self (hne : pattern ≠ []) (b : Text) :
    matchSuffixes pattern (pattern ++ b) = (pattern ++ b) :: matchSuffixes pattern b := by
  cases pattern with
  | nil => exact absurd rfl hne
  | cons c pattern =>
    have hstart : (c :: pattern).isPrefixOf (c :: (pattern ++ b)) = true := by simp
    rw [List.cons_append, matchSuffixes, matchSuffixesFrom, if_pos hstart]
    exact congrArg _ (matchSuffixesFrom_skip _ b pattern)

/-- A match starts with the pattern, and runs to the end of the text. -/
theorem mem_matchSuffixesFrom {s : Text} :
    ∀ (skip : Nat) (t : Text), s ∈ matchSuffixesFrom pattern skip t → pattern <+: s ∧ s <:+ t
  | _, [], h => by simp [matchSuffixesFrom] at h
  | skip + 1, c :: t, h => by
    obtain ⟨hstart, hend⟩ := mem_matchSuffixesFrom skip t h
    exact ⟨hstart, hend.trans (List.suffix_cons c t)⟩
  | 0, c :: t, h => by
    rw [matchSuffixesFrom] at h
    split at h
    · rename_i hstart
      rcases List.mem_cons.mp h with rfl | h
      · exact ⟨List.isPrefixOf_iff_prefix.mp hstart, List.suffix_refl _⟩
      · obtain ⟨hstart, hend⟩ := mem_matchSuffixesFrom _ t h
        exact ⟨hstart, hend.trans (List.suffix_cons c t)⟩
    · obtain ⟨hstart, hend⟩ := mem_matchSuffixesFrom 0 t h
      exact ⟨hstart, hend.trans (List.suffix_cons c t)⟩

theorem prefix_of_mem_matchSuffixes {s t : Text} (h : s ∈ matchSuffixes pattern t) :
    pattern <+: s :=
  (mem_matchSuffixesFrom 0 t h).1

/-- The first match cuts the text in two, and the pattern starts the second part. -/
theorem splitAtMatch_some : ∀ {t before rest : Text},
    splitAtMatch pattern t = some (before, rest) → t = before ++ rest ∧ pattern <+: rest
  | [], _, _, h => by simp [splitAtMatch] at h
  | c :: t, before, rest, h => by
    rw [splitAtMatch] at h
    split at h
    · rename_i hstart
      obtain ⟨rfl, rfl⟩ := Prod.mk.inj (Option.some.inj h)
      exact ⟨rfl, List.isPrefixOf_iff_prefix.mp hstart⟩
    · obtain ⟨⟨tail, last⟩, htail, heq⟩ := Option.map_eq_some_iff.mp h
      obtain ⟨rfl, rfl⟩ := Prod.mk.inj heq
      obtain ⟨rfl, hlast⟩ := splitAtMatch_some htail
      exact ⟨rfl, hlast⟩

/-- A first match stays the first one when the text goes on. -/
theorem splitAtMatch_append (more : Text) : ∀ {t before rest : Text},
    splitAtMatch pattern t = some (before, rest) →
      splitAtMatch pattern (t ++ more) = some (before, rest ++ more)
  | [], _, _, h => by simp [splitAtMatch] at h
  | c :: t, before, rest, h => by
    obtain ⟨hsplit, hmatch⟩ := splitAtMatch_some h
    have hlength : pattern.length ≤ (c :: t).length := by
      rw [hsplit, List.length_append]
      exact hmatch.length_le.trans (Nat.le_add_left _ _)
    have hsame : pattern.isPrefixOf (c :: (t ++ more)) = pattern.isPrefixOf (c :: t) := by
      rw [Bool.eq_iff_iff, List.isPrefixOf_iff_prefix, List.isPrefixOf_iff_prefix]
      constructor
      · exact fun hstart =>
          List.prefix_of_prefix_length_le hstart (List.prefix_append (c :: t) more) hlength
      · exact fun hstart => hstart.trans (List.prefix_append (c :: t) more)
    rw [splitAtMatch] at h
    rw [List.cons_append, splitAtMatch, hsame]
    split at h
    · rename_i hstart
      obtain ⟨rfl, rfl⟩ := Prod.mk.inj (Option.some.inj h)
      rw [if_pos hstart]
      rfl
    · rename_i hstart
      obtain ⟨⟨tail, last⟩, htail, heq⟩ := Option.map_eq_some_iff.mp h
      obtain ⟨rfl, rfl⟩ := Prod.mk.inj heq
      rw [if_neg hstart, splitAtMatch_append more htail]
      rfl

end Detent.Lib.Text
