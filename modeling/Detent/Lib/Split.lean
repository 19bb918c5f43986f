import Mathlib.Algebra.GroupWithZero.Nat
import Mathlib.Tactic.Common

/-!
# Splitting a list at a separator

A text file is a list of pieces, each ended by a separator. `terminate` writes
the pieces; the core `List.splitOn` reads them back, with one empty piece after
the last separator.
-/
namespace Detent.Lib

variable {α : Type} [BEq α] [LawfulBEq α]

/-- The list that holds each piece followed by the separator. -/
def terminate (sep : α) (pieces : List (List α)) : List α :=
  pieces.flatMap (fun piece => piece ++ [sep])

omit [BEq α] [LawfulBEq α] in
@[simp] theorem terminate_nil (sep : α) : terminate sep [] = [] := rfl

omit [BEq α] [LawfulBEq α] in
theorem terminate_cons (sep : α) (piece : List α) (pieces : List (List α)) :
    terminate sep (piece :: pieces) = piece ++ sep :: terminate sep pieces := by
  simp [terminate, List.append_assoc]

/-- Pieces without the separator are read back, followed by one empty piece. -/
theorem splitOn_terminate (sep : α) (pieces : List (List α))
    (h : ∀ piece ∈ pieces, sep ∉ piece) :
    (terminate sep pieces).splitOn sep = pieces ++ [[]] := by
  induction pieces with
  | nil => simp
  | cons piece pieces ih =>
    rw [terminate_cons, List.splitOn_append_cons_self_of_not_mem (h piece (by simp)),
      ih (fun p hp => h p (by simp [hp]))]
    rfl

/-- No piece of a split holds the separator. -/
theorem not_mem_of_mem_splitOn (sep : α) (l piece : List α) (h : piece ∈ l.splitOn sep) :
    sep ∉ piece := by
  induction l generalizing piece with
  | nil =>
    have : piece = [] := by simpa using h
    simp [this]
  | cons b l ih =>
    rw [List.splitOn_cons_eq_if_modifyHead] at h
    split at h
    · rcases List.mem_cons.mp h with rfl | htail
      · simp
      · exact ih piece htail
    next hb =>
      obtain ⟨head, tail, hsplit⟩ := List.exists_cons_of_ne_nil (List.splitOn_ne_nil sep l)
      rw [hsplit, List.modifyHead_cons] at h
      rcases List.mem_cons.mp h with rfl | htail
      · have hhead := ih head (by rw [hsplit]; simp)
        intro hin
        rcases List.mem_cons.mp hin with rfl | hin
        · simp at hb
        · exact hhead hin
      · exact ih piece (by rw [hsplit]; simp [htail])

omit [LawfulBEq α] in
/-- Each byte is in a piece or is one of the separators between them. -/
theorem sum_length_splitOn (sep : α) (l : List α) :
    ((l.splitOn sep).map (fun piece => piece.length + 1)).sum = l.length + 1 := by
  induction l with
  | nil => simp
  | cons b l ih =>
    rw [List.splitOn_cons_eq_if_modifyHead]
    split
    · simp only [List.map_cons, List.length_nil, List.sum_cons, ih, List.length_cons]
      omega
    · obtain ⟨head, tail, hsplit⟩ := List.exists_cons_of_ne_nil (List.splitOn_ne_nil sep l)
      rw [hsplit] at ih ⊢
      simp only [List.modifyHead_cons, List.map_cons, List.sum_cons, List.length_cons] at ih ⊢
      omega

/-- A text read from its end: the pieces of a suffix are final except the first,
which may go on in the text before it. -/
theorem splitOn_append (sep : α) (before suffix first : List α) (rest : List (List α))
    (h : suffix.splitOn sep = first :: rest) :
    (before ++ suffix).splitOn sep = (before ++ first).splitOn sep ++ rest := by
  have hfirst : sep ∉ first := not_mem_of_mem_splitOn sep suffix first (by rw [h]; simp)
  induction before with
  | nil =>
    simp only [List.nil_append, h]
    rw [List.splitOn_eq_singleton hfirst]
    rfl
  | cons b before ih =>
    rw [List.cons_append, List.cons_append, List.splitOn_cons_eq_if_modifyHead,
      List.splitOn_cons_eq_if_modifyHead, ih]
    split
    · rfl
    · obtain ⟨head, tail, hsplit⟩ :=
        List.exists_cons_of_ne_nil (List.splitOn_ne_nil sep (before ++ first))
      rw [hsplit]
      rfl

omit [BEq α] [LawfulBEq α] in
/-- The first separator of two equal lists is in one place. -/
theorem append_sep_inj {sep : α} {first second x y : List α} (hfirst : sep ∉ first)
    (hsecond : sep ∉ second) (h : first ++ sep :: x = second ++ sep :: y) :
    first = second ∧ x = y := by
  induction first generalizing second with
  | nil =>
    cases second with
    | nil => exact ⟨rfl, (List.cons.inj h).2⟩
    | cons c second =>
      obtain ⟨rfl, -⟩ := List.cons.inj h
      exact absurd List.mem_cons_self hsecond
  | cons c first ih =>
    cases second with
    | nil =>
      obtain ⟨rfl, -⟩ := List.cons.inj h
      exact absurd List.mem_cons_self hfirst
    | cons d second =>
      obtain ⟨rfl, htail⟩ := List.cons.inj h
      obtain ⟨rfl, hrest⟩ := ih (fun hmem => hfirst (List.mem_cons_of_mem _ hmem))
        (fun hmem => hsecond (List.mem_cons_of_mem _ hmem)) htail
      exact ⟨rfl, hrest⟩

omit [LawfulBEq α] in
/-- A map that keeps the separator and makes no other keeps the pieces. -/
theorem splitOn_map (f : α → α) (sep : α) (h : ∀ x, (f x == sep) = (x == sep))
    (l : List α) : (l.map f).splitOn sep = (l.splitOn sep).map (List.map f) := by
  induction l with
  | nil => simp
  | cons x l ih =>
    rw [List.map_cons, List.splitOn_cons_eq_if_modifyHead, List.splitOn_cons_eq_if_modifyHead, h, ih]
    split
    · rfl
    · cases l.splitOn sep with
      | nil | cons => rfl

omit [BEq α] [LawfulBEq α] in
/-- An item of two joined lists is in the first or in the second. -/
theorem item_of_append {xs ys front back : List α} {item : α}
    (h : xs ++ ys = front ++ item :: back) :
    (∃ more, xs = front ++ item :: more ∧ back = more ++ ys) ∨
      ∃ more, front = xs ++ more ∧ ys = more ++ item :: back := by
  rcases List.append_eq_append_iff.mp h with ⟨more, hfront, hys⟩ | ⟨more, hxs, hrest⟩
  · exact .inr ⟨more, hfront, hys⟩
  · cases more with
    | nil => exact .inr ⟨[], by simpa using hxs.symm, hrest.symm⟩
    | cons head more =>
      obtain ⟨rfl, hback⟩ := List.cons.inj hrest
      exact .inl ⟨more, hxs, hback⟩

end Detent.Lib
