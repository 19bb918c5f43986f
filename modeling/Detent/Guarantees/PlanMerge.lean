import Detent.Guarantees.DocShape

/-!
# What one pass over the lines does

`apply_plan` walks the old lines with three sorted lists of edits. A plan with at
most one rewrite or removal per line has a closed form: each old line is removed,
rewritten or kept by what the plan says of its row, after the new lines placed
before it (`merge_eq`).
-/
namespace Detent.Guarantees.PlanMerge
open Lib Lib.Text Source.Doc DocShape
open List (filter_cons filter_eq_self mem_filter pairwise_cons)

variable {l : List Nat} {row : Nat} {replace : List (Nat × Text)}

section Sorted

variable {α : Type}

theorem takeWhile_eq_filter {l : List (Nat × α)} (h : l.Pairwise (fun a b => a.1 ≤ b.1))
    (row : Nat) : l.takeWhile (fun (place, _) => decide (place ≤ row)) =
      l.filter (fun x => decide (x.1 ≤ row)) := by
  induction l with
  | nil => rfl
  | cons head l ih =>
    have hpair := pairwise_cons.mp h
    by_cases hle : head.1 ≤ row
    · simp only [List.takeWhile_cons, filter_cons, hle, decide_true, if_true, ih hpair.2]
    · have hnone : l.filter (fun x => decide (x.1 ≤ row)) = [] := by
        apply List.filter_eq_nil_iff.mpr
        intro other hmem
        have := hpair.1 other hmem
        simp
        omega
      simp [hle, hnone]

theorem dropWhile_eq_filter {l : List (Nat × α)} (h : l.Pairwise (fun a b => a.1 ≤ b.1))
    (row : Nat) : l.dropWhile (fun (place, _) => decide (place ≤ row)) =
      l.filter (fun x => decide (row < x.1)) := by
  induction l with
  | nil => rfl
  | cons head l ih =>
    have hpair := pairwise_cons.mp h
    by_cases hle : head.1 ≤ row
    · have hnot : ¬ row < head.1 := by omega
      simp only [List.dropWhile_cons, filter_cons, hle, hnot, decide_true, decide_false,
        if_true, Bool.false_eq_true, if_false, ih hpair.2]
    · have hall : (head :: l).filter (fun x => decide (row < x.1)) = head :: l := by
        apply filter_eq_self.mpr
        intro other hmem
        rcases List.mem_cons.mp hmem with rfl | hmem
        · simp
          omega
        · have := hpair.1 other hmem
          simp
          omega
      rw [hall]
      simp [hle]

/-- In a list in order from `row` on, only the head can be `row`. -/
theorem head?_eq_iff (h : l.Pairwise (· < ·)) (row : Nat) (hge : ∀ x ∈ l, row ≤ x) :
    l.head? = some row ↔ row ∈ l := by
  cases l with
  | nil => simp
  | cons head l =>
    have hpair := pairwise_cons.mp h
    constructor
    · intro hhead
      obtain rfl : head = row := by simpa using hhead
      simp
    · intro hmem
      rcases List.mem_cons.mp hmem with rfl | hmem
      · rfl
      · have := hpair.1 row hmem
        have := hge head (by simp)
        omega

theorem tail_eq_filter (h : l.Pairwise (· < ·)) (row : Nat) (hhead : l.head? = some row) :
    l.tail = l.filter (fun x => decide (row < x)) := by
  cases l with
  | nil => rfl
  | cons head l =>
    obtain rfl : head = row := by simpa using hhead
    have hpair := pairwise_cons.mp h
    rw [List.tail_cons, filter_cons, if_neg (by simp)]
    exact (filter_eq_self.mpr (fun x hmem => by simpa using hpair.1 x hmem)).symm

theorem eq_filter_of_not_mem (hge : ∀ x ∈ l, row ≤ x) (hnot : row ∉ l) :
    l = l.filter (fun x => decide (row < x)) := by
  refine (filter_eq_self.mpr (fun x hmem => ?_)).symm
  have hne : x ≠ row := fun h => hnot (h ▸ hmem)
  have := hge x hmem
  simp
  omega

theorem eq_filter_of_lookup {l : List (Nat × α)} (hge : ∀ x ∈ l, row ≤ x.1)
    (hnot : row ∉ l.map (·.1)) : l = l.filter (fun x => decide (row < x.1)) := by
  refine (filter_eq_self.mpr (fun x hmem => ?_)).symm
  have hne : x.1 ≠ row := fun h => hnot (List.mem_map.mpr ⟨x, hmem, h⟩)
  have := hge x hmem
  simp
  omega

theorem lookup_filter {l : List (Nat × α)} {key : Nat} (h : row < key) :
    (l.filter (fun x => decide (row < x.1))).lookup key = l.lookup key := by
  induction l with
  | nil => rfl
  | cons head l ih =>
    obtain ⟨k, value⟩ := head
    by_cases hlt : row < k
    · simp only [filter_cons, hlt, decide_true, if_true, List.lookup_cons, ih]
    · have hne : (key == k) = false := by simp; omega
      simp only [filter_cons, hlt, decide_false, Bool.false_eq_true, if_false,
        List.lookup_cons, hne, ih]

end Sorted

theorem nextReplace_eq (h : replace.Pairwise (fun a b => a.1 < b.1))
    (hge : ∀ x ∈ replace, row ≤ x.1) :
    nextReplace row replace =
      (replace.lookup row, replace.filter (fun x => decide (row < x.1))) := by
  cases replace with
  | nil => rfl
  | cons head rest =>
    obtain ⟨key, raw⟩ := head
    have hpair := pairwise_cons.mp h
    have hrest : rest.filter (fun x => decide (row < x.1)) = rest := by
      apply filter_eq_self.mpr
      intro x hmem
      have := hpair.1 x hmem
      have := hge (key, raw) (by simp)
      simp only at *
      simp
      omega
    by_cases hkey : key = row
    · subst hkey
      simp [nextReplace, hrest]
    · have hlt : row < key := by
        have := hge (key, raw) (by simp)
        simp only at this
        omega
      have hne : (row == key) = false := by simp; omega
      have hnone : rest.lookup row = none := by
        rw [List.lookup_eq_none_iff]
        intro x hmem
        have := hpair.1 x hmem
        simp only at this
        simp
        omega
      simp [nextReplace, hkey, hlt, hrest, hne, hnone, List.lookup_cons]

section Merge

variable (classify : Text → LineKind) (dominant : LineEnding)

/-- The new lines of some inserts. -/
def fresh (inserts : List (Nat × Text)) : List Line :=
  inserts.map (fun (_, raw) => newLine classify raw dominant)

def terminated (line : Line) : Line :=
  if line.ending = .none then { line with ending := dominant } else line

def rewritten (line : Line) : Option Text → Line
  | some raw => { line with kind := classify raw, raw := raw }
  | none => line

/-- What becomes of the old line at a row. -/
def settled (replace : List (Nat × Text)) (remove : List Nat) (line : Line) (row : Nat) :
    List Line :=
  if row ∈ remove then []
  else [terminated dominant (rewritten classify line (replace.lookup row))]

/-- The sorted edits of the rows from `row` on, at most one rewrite or removal for each. -/
structure Sorted (row : Nat) (replace : List (Nat × Text)) (remove : List Nat)
    (insert : List (Nat × Text)) : Prop where
  replaces : replace.Pairwise (fun a b => a.1 < b.1)
  removes : remove.Pairwise (· < ·)
  inserts : insert.Pairwise (fun a b => a.1 ≤ b.1)
  apart : ∀ x ∈ replace, x.1 ∉ remove
  replace_ge : ∀ x ∈ replace, row ≤ x.1
  remove_ge : ∀ x ∈ remove, row ≤ x
  insert_ge : ∀ x ∈ insert, row ≤ x.1

variable {remove : List Nat} {insert : List (Nat × Text)}

theorem Sorted.next (h : Sorted row replace remove insert) :
    Sorted (row + 1) (replace.filter (fun x => decide (row < x.1)))
      (remove.filter (fun x => decide (row < x))) (insert.filter (fun x => decide (row < x.1))) where
  replaces := h.replaces.filter _
  removes := h.removes.filter _
  inserts := h.inserts.filter _
  apart := fun x hmem hin => h.apart x (mem_filter.mp hmem).1 (mem_filter.mp hin).1
  replace_ge := fun _ hmem => of_decide_eq_true (mem_filter.mp hmem).2
  remove_ge := fun _ hmem => of_decide_eq_true (mem_filter.mp hmem).2
  insert_ge := fun _ hmem => of_decide_eq_true (mem_filter.mp hmem).2

theorem merge_cons {line : Line} {lines : List Line} (h : Sorted row replace remove insert) :
    merge classify dominant row (line :: lines) replace remove insert =
      fresh classify dominant (insert.filter (fun x => decide (x.1 ≤ row))) ++
        settled classify dominant replace remove line row ++
        merge classify dominant (row + 1) lines (replace.filter (fun x => decide (row < x.1)))
          (remove.filter (fun x => decide (row < x)))
          (insert.filter (fun x => decide (row < x.1))) := by
  have hhead := head?_eq_iff h.removes row h.remove_ge
  rw [merge, takeWhile_eq_filter h.inserts, dropWhile_eq_filter h.inserts]
  by_cases hremove : row ∈ remove
  · have hnot : row ∉ replace.map (·.1) := by
      intro hmem
      obtain ⟨x, hx, rfl⟩ := List.mem_map.mp hmem
      exact h.apart x hx hremove
    have hkeep := eq_filter_of_lookup h.replace_ge hnot
    rw [if_pos (hhead.mpr hremove), tail_eq_filter h.removes row (hhead.mpr hremove), settled,
      if_pos hremove, List.append_nil, ← hkeep]
    rfl
  · rw [if_neg (fun hc => hremove (hhead.mp hc)), nextReplace_eq h.replaces h.replace_ge,
      ← eq_filter_of_not_mem h.remove_ge hremove, settled, if_neg hremove, List.append_assoc]
    cases replace.lookup row with
    | none | some => rfl

/-- The lines that a row leaves: those placed before it, then its own. -/
def atRow (replace : List (Nat × Text)) (remove : List Nat) (insert : List (Nat × Text))
    (entry : Line × Nat) : List Line :=
  fresh classify dominant (insert.filter (fun x => decide (x.1 = entry.2))) ++
    settled classify dominant replace remove entry.1 entry.2

theorem atRow_filter {entry : Line × Nat} (h : row < entry.2) :
    atRow classify dominant (replace.filter (fun x => decide (row < x.1)))
        (remove.filter (fun x => decide (row < x))) (insert.filter (fun x => decide (row < x.1)))
        entry =
      atRow classify dominant replace remove insert entry := by
  have hinsert : (insert.filter (fun x => decide (row < x.1))).filter
      (fun x => decide (x.1 = entry.2)) = insert.filter (fun x => decide (x.1 = entry.2)) := by
    rw [List.filter_filter]
    apply List.filter_congr
    intro x _
    by_cases hx : x.1 = entry.2
    · simp [hx, h]
    · simp [hx]
  have hremove : entry.2 ∈ remove.filter (fun x => decide (row < x)) ↔ entry.2 ∈ remove := by
    simp [h]
  rw [atRow, atRow, settled, settled, hinsert, lookup_filter h]
  simp only [hremove]

/-- The whole pass over the lines from `row` on, row by row. -/
theorem merge_eq (lines : List Line) (h : Sorted row replace remove insert) :
    merge classify dominant row lines replace remove insert =
      (lines.zipIdx row).flatMap (atRow classify dominant replace remove insert) ++
        fresh classify dominant
          (insert.filter (fun x => decide (row + lines.length ≤ x.1))) := by
  induction lines generalizing row replace remove insert with
  | nil =>
    have hall : insert.filter (fun x => decide (row + ([] : List Line).length ≤ x.1)) = insert := by
      apply filter_eq_self.mpr
      intro x hmem
      simpa using h.insert_ge x hmem
    rw [hall, merge]
    rfl
  | cons line lines ih =>
    have hnow : insert.filter (fun x => decide (x.1 ≤ row)) =
        insert.filter (fun x => decide (x.1 = row)) := by
      apply List.filter_congr
      intro x hmem
      have := h.insert_ge x hmem
      simp
      omega
    have hlater : (insert.filter (fun x => decide (row < x.1))).filter
        (fun x => decide (row + 1 + lines.length ≤ x.1)) =
          insert.filter (fun x => decide (row + (line :: lines).length ≤ x.1)) := by
      rw [List.filter_filter]
      apply List.filter_congr
      intro x _
      rw [List.length_cons, ← Bool.decide_and]
      apply decide_eq_decide.mpr
      omega
    have hrest : (lines.zipIdx (row + 1)).flatMap (atRow classify dominant
        (replace.filter (fun x => decide (row < x.1))) (remove.filter (fun x => decide (row < x)))
        (insert.filter (fun x => decide (row < x.1)))) =
          (lines.zipIdx (row + 1)).flatMap (atRow classify dominant replace remove insert) := by
      apply List.flatMap_congr
      intro entry hmem
      have := List.le_snd_of_mem_zipIdx hmem
      exact atRow_filter classify dominant (by omega)
    rw [merge_cons classify dominant h, ih h.next, hnow, hlater, hrest, List.zipIdx_cons,
      List.flatMap_cons, atRow, List.append_assoc, List.append_assoc, List.append_assoc]

end Merge

/-- A plan takes at most one rewrite or removal per line. -/
def AtMostOne (plan : EntryPlan) : Prop := (plan.replace.map (·.1) ++ plan.remove).Nodup

instance (plan : EntryPlan) : Decidable (AtMostOne plan) := inferInstanceAs (Decidable (List.Nodup _))

theorem lt_of_le_of_nodup (h : l.Pairwise (· ≤ ·)) (hnodup : l.Nodup) : l.Pairwise (· < ·) := by
  refine (h.and hnodup).imp ?_
  intro a b hab
  omega

/-- Sorting the edits of such a plan puts each row in its place. -/
theorem sorted_of_atMostOne {plan : EntryPlan} (h : AtMostOne plan) :
    Sorted 0 (plan.replace.insertionSort (fun a b => a.1 ≤ b.1))
      (plan.remove.insertionSort (· ≤ ·)) (plan.insert.insertionSort (fun a b => a.1 ≤ b.1)) := by
  obtain ⟨hreplace, hremove, hapart⟩ := List.nodup_append.mp h
  have htotal : Std.Total (fun a b : Nat × Text => a.1 ≤ b.1) := ⟨fun a b => Nat.le_total _ _⟩
  have htrans : IsTrans (Nat × Text) (fun a b => a.1 ≤ b.1) := ⟨fun a b c => Nat.le_trans⟩
  constructor
  · have hsorted := List.pairwise_insertionSort (fun a b : Nat × Text => a.1 ≤ b.1) plan.replace
    have hkeys : ((plan.replace.insertionSort (fun a b => a.1 ≤ b.1)).map (·.1)).Nodup :=
      ((List.perm_insertionSort _ _).map _).nodup_iff.mpr hreplace
    refine ((hsorted.and (List.pairwise_map.mp hkeys))).imp ?_
    intro a b hab
    omega
  · exact lt_of_le_of_nodup (List.pairwise_insertionSort _ _)
      ((List.perm_insertionSort _ _).nodup_iff.mpr hremove)
  · exact List.pairwise_insertionSort _ _
  · intro x hx hin
    rw [List.mem_insertionSort] at hx hin
    exact hapart x.1 (List.mem_map.mpr ⟨x, hx, rfl⟩) x.1 hin rfl
  all_goals exact fun _ _ => Nat.zero_le _

end Detent.Guarantees.PlanMerge
