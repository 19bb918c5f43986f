import Detent.Guarantees.EntryEdits

/-!
# Several flavours edited in one pass

A plan that is read off the entries of one flavour and a plan that is foreign to it
may be carried out together: the pass sorts stably, so the rows and the new lines of
each flavour stay as its own plan has them. A line that no plan touches keeps its
text, up to the terminator at the end of the file.
-/
namespace Detent.Guarantees.FlavourPlans
open Lib Lib.Text Source.Doc Source.Align DocShape
open PlanMerge EntryPlans CanonicalDocuments
open EntryEdits
open List (SublistForall₂ append_assoc filterMap_append map_append mem_append mem_append_left
  mem_append_right mem_filter mem_filterMap mem_map)

variable {row : Nat} {line : Line} {lines : List Line}

section Sorting

variable {α : Type}

/-- The sort of a pass keeps the order of the edits of one row. -/
theorem filter_insertionSort (l : List (Nat × α)) (row : Nat) :
    (l.insertionSort (fun a b => a.1 ≤ b.1)).filter (fun x => decide (x.1 = row)) =
      l.filter (fun x => decide (x.1 = row)) := by
  have hsorted : (l.filter (fun x => decide (x.1 = row))).Pairwise (fun a b => a.1 ≤ b.1) := by
    refine List.Pairwise.imp_of_mem ?_ (List.pairwise_of_forall (R := fun _ _ => True)
      (fun _ _ => trivial))
    intro a b ha hb _
    have hrow := of_decide_eq_true (mem_filter.mp ha).2
    have hrow' := of_decide_eq_true (mem_filter.mp hb).2
    omega
  have hsub := (List.sublist_insertionSort hsorted List.filter_sublist).filter
    (fun x => decide (x.1 = row))
  rw [List.filter_filter] at hsub
  simp only [Bool.and_self] at hsub
  have hlen : (l.filter (fun x => decide (x.1 = row))).length =
      ((l.insertionSort (fun a b => a.1 ≤ b.1)).filter (fun x => decide (x.1 = row))).length :=
    ((List.perm_insertionSort _ l).filter _).length_eq.symm
  exact (hsub.eq_of_length hlen).symm

theorem lookup_eq_filter (l : List (Nat × α)) (row : Nat) :
    l.lookup row = ((l.filter (fun x => decide (x.1 = row))).head?).map (·.2) := by
  induction l with
  | nil => rfl
  | cons head l ih =>
    by_cases hrow : head.1 = row
    · rw [List.filter_cons_of_pos (by simpa using hrow), List.lookup_cons,
        beq_iff_eq.mpr hrow.symm]
      rfl
    · have hne : (row == head.1) = false := by
        rw [beq_eq_false_iff_ne]
        omega
      rw [List.filter_cons_of_neg (by simpa using hrow), List.lookup_cons, hne, ← ih]

theorem lookup_insertionSort (l : List (Nat × α)) (row : Nat) :
    (l.insertionSort (fun a b => a.1 ≤ b.1)).lookup row = l.lookup row := by
  rw [lookup_eq_filter, filter_insertionSort, ← lookup_eq_filter]

theorem lookup_eq_none_of_keys {l : List (Nat × α)} (h : row ∉ l.map (·.1)) :
    l.lookup row = none := by
  rw [List.lookup_eq_none_iff]
  intro x hmem
  rw [bne_iff_ne]
  intro hrow
  exact h (mem_map.mpr ⟨x, hmem, hrow.symm⟩)

end Sorting

variable (dominant : LineEnding)

section Foreign

variable {T : Type} {doc : Document} {parseEntry : Text → Option T}
  {plan other before after : EntryPlan}

/-- A plan of one flavour: it touches only lines that hold its entries. -/
structure Own (doc : Document) (parseEntry : Text → Option T) (plan : EntryPlan) : Prop where
  rows : ∀ row ∈ plan.replace.map (·.1) ++ plan.remove,
    row ∈ (entryRows doc.lines parseEntry).map (·.1)
  inside : ∀ x ∈ plan.insert, x.1 ≤ doc.lines.length

/-- A plan of other flavours: it touches no entry and writes none. -/
structure Foreign (doc : Document) (parseEntry : Text → Option T) (plan : EntryPlan) : Prop where
  rows : ∀ row ∈ plan.replace.map (·.1) ++ plan.remove,
    row ∉ (entryRows doc.lines parseEntry).map (·.1)
  replace : ∀ x ∈ plan.replace, parseEntry x.2 = none
  insert : ∀ x ∈ plan.insert, parseEntry x.2 = none
  inside : ∀ x ∈ plan.insert, x.1 ≤ doc.lines.length

theorem Foreign.extend (h : Foreign doc parseEntry plan) (h' : Foreign doc parseEntry other) :
    Foreign doc parseEntry (plan.extend other) where
  rows := by
    intro row hmem
    simp only [EntryPlan.extend, map_append, mem_append] at hmem
    rcases hmem with (hmem | hmem) | hmem | hmem
    · exact h.rows row (mem_append_left _ hmem)
    · exact h'.rows row (mem_append_left _ hmem)
    · exact h.rows row (mem_append_right _ hmem)
    · exact h'.rows row (mem_append_right _ hmem)
  replace := fun x hmem => (mem_append.mp hmem).elim (h.replace x) (h'.replace x)
  insert := fun x hmem => (mem_append.mp hmem).elim (h.insert x) (h'.insert x)
  inside := fun x hmem => (mem_append.mp hmem).elim (h.inside x) (h'.inside x)

theorem entriesOf_fresh_foreign {inserts : List (Nat × Text)}
    (h : ∀ x ∈ inserts, parseEntry x.2 = none) :
    entriesOf parseEntry (fresh doc.classify dominant inserts) = [] := by
  rw [entriesOf, List.filterMap_eq_nil_iff]
  intro line hmem
  obtain ⟨x, hx, rfl⟩ := mem_map.mp hmem
  simp [entryOf, newLine, h x hx]

theorem entriesOf_fresh_append (inserts later : List (Nat × Text)) :
    entriesOf parseEntry (fresh doc.classify dominant (inserts ++ later)) =
      entriesOf parseEntry (fresh doc.classify dominant inserts) ++
        entriesOf parseEntry (fresh doc.classify dominant later) := by
  simp only [entriesOf, fresh, map_append, filterMap_append]

/-- A plan between the plans of other flavours. -/
def among (before plan after : EntryPlan) : EntryPlan := (before.extend plan).extend after

theorem among_first (plan other after : EntryPlan) :
    among {} plan (other.extend after) = among plan other after := by
  simp [among, EntryPlan.extend, append_assoc]

theorem among_last (before other plan : EntryPlan) :
    among (before.extend other) plan {} = among before other plan := by
  simp [among, EntryPlan.extend]

theorem extend_empty (plan : EntryPlan) : plan.extend {} = plan := by
  simp [EntryPlan.extend]

theorem empty_extend (plan : EntryPlan) : EntryPlan.extend {} plan = plan := rfl

/-- The new lines before one row hold the same entries of the flavour. -/
theorem entriesOf_among_fresh (hforeign : Foreign doc parseEntry (before.extend after))
    (dominant : LineEnding) (row : Nat) :
    entriesOf parseEntry (fresh doc.classify dominant
        (((among before plan after).insert.insertionSort (fun a b => a.1 ≤ b.1)).filter
          (fun x => decide (x.1 = row)))) =
      entriesOf parseEntry (fresh doc.classify dominant
        ((plan.insert.insertionSort (fun a b => a.1 ≤ b.1)).filter
          (fun x => decide (x.1 = row)))) := by
  have hbefore : entriesOf parseEntry (fresh doc.classify dominant
      (before.insert.filter (fun x => decide (x.1 = row)))) = [] :=
    entriesOf_fresh_foreign dominant (fun x hmem =>
      hforeign.insert x (mem_append_left _ (mem_filter.mp hmem).1))
  have hafter : entriesOf parseEntry (fresh doc.classify dominant
      (after.insert.filter (fun x => decide (x.1 = row)))) = [] :=
    entriesOf_fresh_foreign dominant (fun x hmem =>
      hforeign.insert x (mem_append_right _ (mem_filter.mp hmem).1))
  rw [filter_insertionSort, filter_insertionSort]
  simp only [among, EntryPlan.extend, List.filter_append]
  rw [entriesOf_fresh_append, entriesOf_fresh_append, hbefore, hafter, List.append_nil,
    List.nil_append]

theorem mem_among_remove (row : Nat) : row ∈ (among before plan after).remove ↔
    row ∈ plan.remove ∨ row ∈ (before.extend after).remove := by
  simp only [among, EntryPlan.extend, mem_append]
  tauto

/-- The rewrite of a row that the other plans do not touch. -/
theorem among_lookup_own (h : row ∉ (before.extend after).replace.map (·.1)) :
    (among before plan after).replace.lookup row = plan.replace.lookup row := by
  simp only [EntryPlan.extend, map_append, mem_append, not_or] at h
  simp only [among, EntryPlan.extend, List.lookup_append, lookup_eq_none_of_keys h.1,
    lookup_eq_none_of_keys h.2, Option.none_or, Option.or_none]

theorem among_lookup_other (h : row ∉ plan.replace.map (·.1)) :
    (among before plan after).replace.lookup row = (before.extend after).replace.lookup row := by
  simp only [among, EntryPlan.extend, List.lookup_append, lookup_eq_none_of_keys h, Option.or_none]

theorem mem_of_lookup {l : List (Nat × Text)} {raw : Text} (h : l.lookup row = some raw) :
    (row, raw) ∈ l := by
  obtain ⟨before, after, rfl, _⟩ := List.lookup_eq_some_iff.mp h
  simp

/-- What an old row leaves holds the same entries of the flavour. -/
theorem entriesOf_among_settled (hown : Own doc parseEntry plan)
    (hforeign : Foreign doc parseEntry (before.extend after)) (hline : doc.lines[row]? = some line)
    (dominant : LineEnding) :
    entriesOf parseEntry (settled doc.classify dominant
        ((among before plan after).replace.insertionSort (fun a b => a.1 ≤ b.1))
        ((among before plan after).remove.insertionSort (· ≤ ·)) line row) =
      entriesOf parseEntry (settled doc.classify dominant
        (plan.replace.insertionSort (fun a b => a.1 ≤ b.1)) (plan.remove.insertionSort (· ≤ ·))
        line row) := by
  simp only [settled, List.mem_insertionSort, lookup_insertionSort, mem_among_remove]
  by_cases hrow : row ∈ (entryRows doc.lines parseEntry).map (·.1)
  · have hremove : row ∉ (before.extend after).remove :=
      fun hmem => hforeign.rows row (mem_append_right _ hmem) hrow
    have hreplace : row ∉ (before.extend after).replace.map (·.1) :=
      fun hmem => hforeign.rows row (mem_append_left _ hmem) hrow
    simp only [hremove, or_false, among_lookup_own hreplace]
  · -- No entry before, and none after: the rewrite, if any, is one of the other plans.
    have hremove : row ∉ plan.remove := fun hmem => hrow (hown.rows row (mem_append_right _ hmem))
    have hreplace : row ∉ plan.replace.map (·.1) :=
      fun hmem => hrow (hown.rows row (mem_append_left _ hmem))
    have hentry : entryOf parseEntry line = none := by
      cases hentry : entryOf parseEntry line with
      | none => rfl
      | some entry =>
        exact absurd (mem_map.mpr ⟨(row, entry), mem_entryRows.mpr ⟨line, hline, hentry⟩, rfl⟩)
          hrow
    simp only [hremove, false_or, if_false, lookup_eq_none_of_keys hreplace,
      among_lookup_other hreplace, entriesOf_singleton, entryOf_terminated, rewritten,
      hentry]
    by_cases hgone : row ∈ (before.extend after).remove
    · rw [if_pos hgone]
      rfl
    · rw [if_neg hgone, entriesOf_singleton, entryOf_terminated]
      cases hlookup : (before.extend after).replace.lookup row with
      | none => rw [hentry]
      | some raw =>
        have hraw := hforeign.replace _ (mem_of_lookup hlookup)
        simp [entryOf, hraw]

theorem among_once (hone : AtMostOne (among before plan after)) : AtMostOne plan := by
  refine List.Nodup.sublist ?_ hone
  simp only [among, EntryPlan.extend, map_append]
  refine List.Sublist.append ?_ ?_
  all_goals exact (List.sublist_append_right _ _).trans (List.sublist_append_left _ _)

theorem insert_at_end (h : ∀ x ∈ plan.insert, x.1 ≤ doc.lines.length) :
    (plan.insert.insertionSort (fun a b => a.1 ≤ b.1)).filter
        (fun x => decide (0 + doc.lines.length ≤ x.1)) =
      (plan.insert.insertionSort (fun a b => a.1 ≤ b.1)).filter
        (fun x => decide (x.1 = doc.lines.length)) := by
  apply List.filter_congr
  intro x hmem
  rw [List.mem_insertionSort] at hmem
  have := h x hmem
  apply decide_eq_decide.mpr
  omega

/-- Foreign plans carried out in the same pass change no entry of the flavour. -/
theorem entriesOf_among (hown : Own doc parseEntry plan)
    (hforeign : Foreign doc parseEntry (before.extend after))
    (hone : AtMostOne (among before plan after)) :
    entriesOf parseEntry (merged doc (among before plan after)) =
      entriesOf parseEntry (merged doc plan) := by
  have hinside : ∀ x ∈ (among before plan after).insert, x.1 ≤ doc.lines.length := by
    intro x hmem
    simp only [among, EntryPlan.extend, mem_append] at hmem
    rcases hmem with (hmem | hmem) | hmem
    · exact hforeign.inside x (mem_append_left _ hmem)
    · exact hown.inside x hmem
    · exact hforeign.inside x (mem_append_right _ hmem)
  rw [merged, merged, merge_eq _ _ _ (sorted_of_atMostOne hone),
    merge_eq _ _ _ (sorted_of_atMostOne (among_once hone)), insert_at_end hinside,
    insert_at_end hown.inside, entriesOf, entriesOf, filterMap_append, filterMap_append,
    List.filterMap_flatMap, List.filterMap_flatMap]
  refine congrArg₂ _ ?_ (entriesOf_among_fresh hforeign _ doc.lines.length)
  apply List.flatMap_congr
  rintro ⟨line, row⟩ hmem
  have hline : doc.lines[row]? = some line := List.mk_mem_zipIdx_iff_getElem?.mp hmem
  rw [atRow, atRow, filterMap_append, filterMap_append]
  exact congrArg₂ _ (entriesOf_among_fresh hforeign _ row)
    (entriesOf_among_settled hown hforeign hline _)

end Foreign

section Planned

variable {T : Type} [DecidableEq T] {doc : Document} {wanted : List T}
  {parseEntry : Text → Option T} {render : T → Except EditError Text} {opensSection : Text → Bool}
  {plan : EntryPlan} {places : List (Placement T)}
  (h : Planned doc wanted parseEntry render opensSection plan places)
include h

theorem planned_own : Own doc parseEntry plan where
  rows := by
    intro row hmem
    rw [← h.all.mem_iff]
    rcases mem_append.mp hmem with hmem | hmem
    · rw [h.replace] at hmem
      exact mem_append_left _ ((rewrite_rows places).mem hmem)
    · exact mem_append_right _ hmem
  inside := planned_inside h

theorem planned_texts {x : Nat × Text} (hmem : x ∈ plan.replace ++ plan.insert) :
    ∃ entry ∈ wanted, render entry = .ok x.2 := by
  have hentry : ∀ place ∈ places, place.entry ∈ wanted := by
    intro place hplace
    rw [← h.entries]
    exact List.mem_map_of_mem hplace
  rcases mem_append.mp hmem with hmem | hmem
  · rw [h.replace] at hmem
    obtain ⟨place, hplace, hrewrite⟩ := mem_filterMap.mp hmem
    cases place with
    | kept | added => cases hrewrite
    | rewritten row raw entry =>
      obtain rfl := Option.some.inj hrewrite
      exact ⟨entry, hentry _ hplace, (h.good _ hplace).1⟩
  · rw [h.insert] at hmem
    obtain ⟨⟨key, place⟩, hkeyed, hinsert⟩ := mem_filterMap.mp hmem
    have hplace : place ∈ places := by
      rw [← keyed_places doc.lines opensSection places none]
      exact mem_map.mpr ⟨_, hkeyed, rfl⟩
    cases place with
    | kept | rewritten => cases hinsert
    | added raw entry =>
      obtain rfl := Option.some.inj hinsert
      exact ⟨entry, hentry _ hplace, (h.good _ hplace).1⟩

/-- A plan is foreign to a flavour that reads neither its lines nor its texts. -/
theorem planned_foreign {S : Type} {parseOther : Text → Option S}
    (hlines : ∀ raw, (parseEntry raw).isSome → parseOther raw = none)
    (hreads : Reads doc.classify parseEntry render wanted) : Foreign doc parseOther plan where
  rows := by
    intro row hmem hother
    obtain ⟨⟨_, entry⟩, hfound, rfl⟩ := mem_map.mp ((planned_own h).rows row hmem)
    obtain ⟨⟨_, other⟩, hfound', hrow⟩ := mem_map.mp hother
    obtain ⟨line, hline, hentry⟩ := mem_entryRows.mp hfound
    obtain ⟨line', hline', hentry'⟩ := mem_entryRows.mp hfound'
    simp only at hrow
    rw [hrow, hline] at hline'
    obtain rfl := Option.some.inj hline'
    unfold entryOf at hentry hentry'
    by_cases hkind : line.kind = .directive
    · rw [if_pos hkind] at hentry hentry'
      rw [hlines line.raw (by simp [hentry])] at hentry'
      cases hentry'
    · rw [if_neg hkind] at hentry
      cases hentry
  replace := by
    intro x hmem
    obtain ⟨entry, hwanted, hrender⟩ := planned_texts h (mem_append_left _ hmem)
    exact hlines x.2 (by simp [(hreads entry hwanted x.2 hrender).2])
  insert := by
    intro x hmem
    obtain ⟨entry, hwanted, hrender⟩ := planned_texts h (mem_append_right _ hmem)
    exact hlines x.2 (by simp [(hreads entry hwanted x.2 hrender).2])
  inside := planned_inside h

omit h

/-- The rows whose entries the alignment of a flavour keeps. -/
def keptRows (doc : Document) (parseEntry : Text → Option T) (wanted : List T) : List Nat :=
  (alignOrReplace ((entryRows doc.lines parseEntry).map (·.2)) wanted).filterMap fun
    | .equal old _ => ((entryRows doc.lines parseEntry)[old]?).map (·.1)
    | _ => none

theorem mem_keptRows (h : row ∈ keptRows doc parseEntry wanted) :
    row ∈ (entryRows doc.lines parseEntry).map (·.1) := by
  obtain ⟨step, _, hsome⟩ := mem_filterMap.mp h
  cases step with
  | delete | insert => cases hsome
  | equal old new =>
    obtain ⟨x, hx, rfl⟩ := Option.map_eq_some_iff.mp hsome
    exact List.mem_map_of_mem (List.mem_of_getElem? hx)

omit [DecidableEq T] in
theorem not_mem_entryRows (h : (doc.lines[row]?).any (fun line => line.kind != .directive) = true) :
    row ∉ (entryRows doc.lines parseEntry).map (·.1) := by
  intro hmem
  obtain ⟨⟨_, entry⟩, hfound, rfl⟩ := mem_map.mp hmem
  obtain ⟨line, hline, hentry⟩ := mem_entryRows.mp hfound
  simp only [hline, Option.any_some, bne_iff_ne] at h
  rw [entryOf, if_neg h] at hentry
  cases hentry

theorem kept_untouched (h : Planned doc wanted parseEntry render opensSection plan places)
    (hrow : row ∈ keptRows doc parseEntry wanted) :
    row ∉ plan.replace.map (·.1) ++ plan.remove := by
  obtain ⟨step, hstep, hsome⟩ := mem_filterMap.mp hrow
  cases step with
  | delete | insert => cases hsome
  | equal old new =>
    obtain ⟨row', entry, hfound, hplace⟩ := h.kept old new hstep
    simp only [hfound, Option.map_some, Option.some.injEq] at hsome
    subst hsome
    have hin : row' ∈ places.filterMap Placement.row := mem_filterMap.mpr ⟨_, hplace, rfl⟩
    intro hmem
    rcases mem_append.mp hmem with hmem | hmem
    · obtain ⟨x, hx, hkey⟩ := mem_map.mp hmem
      rw [h.replace] at hx
      obtain ⟨other, hother, hrewrite⟩ := mem_filterMap.mp hx
      cases other with
      | kept | added => cases hrewrite
      | rewritten row raw entry =>
        obtain rfl := Option.some.inj hrewrite
        have hsame := place_unique h hplace hother rfl (congrArg some hkey)
        cases hsame
    · exact (List.nodup_append.mp (planned_nodup h)).2.2 row' hin row' hmem rfl

end Planned

theorem atMostOne_extend {plan other : EntryPlan} (h : AtMostOne plan) (h' : AtMostOne other)
    (hapart : ∀ row ∈ plan.replace.map (·.1) ++ plan.remove,
      row ∉ other.replace.map (·.1) ++ other.remove) : AtMostOne (plan.extend other) := by
  have hperm : ((plan.extend other).replace.map (·.1) ++ (plan.extend other).remove).Perm
      ((plan.replace.map (·.1) ++ plan.remove) ++ (other.replace.map (·.1) ++ other.remove)) := by
    simp only [EntryPlan.extend, map_append, append_assoc]
    refine List.Perm.append_left _ ?_
    rw [← append_assoc, ← append_assoc]
    exact List.Perm.append_right _ List.perm_append_comm
  unfold AtMostOne
  rw [hperm.nodup_iff, List.nodup_append]
  refine ⟨h, h', ?_⟩
  intro row hmem other' hmem' hrow
  subst hrow
  exact hapart row hmem hmem'

section Survivors

variable {α β γ : Type} {R : α → β → Prop} {S : β → γ → Prop} {Q : α → γ → Prop}

/-- A part of a list follows the list through a change of each item. -/
theorem sublistForall₂_comp {l : List α} {m : List β} {n : List γ} (h : SublistForall₂ R l m)
    (h' : List.Forall₂ S m n) (hcomp : ∀ a b c, R a b → S b c → Q a c) :
    SublistForall₂ Q l n := by
  induction h generalizing n with
  | nil => exact .nil
  | cons hab _ ih =>
    cases h' with
    | cons hbc hrest => exact .cons (hcomp _ _ _ hab hbc) (ih hrest)
  | cons_right _ ih =>
    cases h' with
    | cons _ hrest => exact .cons_right (ih hrest)

/-- A part of a list either ends with its last item or is before it. -/
theorem sublistForall₂_concat {l : List α} {init : List β} {last : β}
    (h : SublistForall₂ R l (init ++ [last])) :
    SublistForall₂ R l init ∨
      ∃ before item, l = before ++ [item] ∧ R item last ∧ SublistForall₂ R before init := by
  induction init generalizing l with
  | nil =>
    cases h with
    | nil => exact .inl .nil
    | cons hlast hrest =>
      cases hrest with
      | nil => exact .inr ⟨[], _, rfl, hlast, .nil⟩
    | cons_right hrest =>
      cases hrest with
      | nil => exact .inl .nil
  | cons head init ih =>
    cases h with
    | nil => exact .inl .nil
    | cons hhead hrest =>
      rcases ih hrest with hrest | ⟨before, item, rfl, hlast, hrest⟩
      · exact .inl (.cons hhead hrest)
      · exact .inr ⟨_ :: before, item, rfl, hlast, .cons hhead hrest⟩
    | cons_right hrest =>
      rcases ih hrest with hrest | ⟨before, item, rfl, hlast, hrest⟩
      · exact .inl (.cons_right hrest)
      · exact .inr ⟨before, item, rfl, hlast, .cons_right hrest⟩

/-- Some items of a list each leave one line behind. -/
theorem sublist_flatMap {l : List α} {keep : α → Bool} {make : α → β} {out : α → List β}
    (before : α → List β)
    (h : ∀ item ∈ l, keep item = true → out item = before item ++ [make item]) :
    ((l.filter keep).map make).Sublist (l.flatMap out) := by
  induction l with
  | nil => exact .slnil
  | cons head l ih =>
    have hrest := ih (fun item hmem => h item (by simp [hmem]))
    rw [List.flatMap_cons]
    by_cases hkeep : keep head = true
    · rw [List.filter_cons_of_pos hkeep, List.map_cons, h head (by simp) hkeep, append_assoc]
      exact (hrest.cons_cons (make head)).trans (List.sublist_append_right _ _)
    · rw [List.filter_cons_of_neg hkeep]
      exact hrest.trans (List.sublist_append_right _ _)

end Survivors

section Kept

variable {doc : Document} {plan : EntryPlan}

/-- A line with the same text; the terminator differs only where there is none before
or after. -/
structure SameText (old new : Line) : Prop where
  raw : new.raw = old.raw
  ending : new.ending = old.ending ∨ old.ending = .none ∨ new.ending = .none

/-- The bytes of a line are those of the old one, up to the end of the file. -/
def Keeps (old new : Line) : Prop :=
  ∃ ending : LineEnding, renderLine new = old.raw ++ ending.asStr ∧
    (ending = old.ending ∨ old.ending = .none ∨ new.ending = .none)

theorem terminated_sameText (line : Line) : SameText line (terminated dominant line) := by
  unfold terminated
  by_cases hend : line.ending = .none
  · rw [if_pos hend]
    exact ⟨rfl, .inr (.inl hend)⟩
  · rw [if_neg hend]
    exact ⟨rfl, .inl rfl⟩

/-- The lines of the rows that `keep` picks. -/
def linesAt (lines : List Line) (keep : Nat → Bool) : List Line :=
  (lines.zipIdx.filter (fun entry => keep entry.2)).map (·.1)

variable {keep : Nat → Bool}

theorem mem_linesAt (h : line ∈ linesAt lines keep) : line ∈ lines := by
  obtain ⟨⟨line', row⟩, hmem, rfl⟩ := mem_map.mp h
  exact List.mem_of_getElem? (List.mk_mem_zipIdx_iff_getElem?.mp (mem_filter.mp hmem).1)

/-- The rows that a plan leaves alone are in the pass, in order. -/
theorem merged_sameText (hone : AtMostOne plan)
    (hkeep : ∀ row, keep row = true → row ∉ plan.replace.map (·.1) ++ plan.remove) :
    SublistForall₂ SameText (linesAt doc.lines keep) (merged doc plan) := by
  rw [merged, merge_eq _ _ _ (sorted_of_atMostOne hone), linesAt, List.sublistForall₂_map_left_iff,
    List.sublistForall₂_iff]
  refine ⟨(doc.lines.zipIdx.filter (fun entry => keep entry.2)).map
    (fun entry => terminated (dominantEnding doc.lines) entry.1), ?_, ?_⟩
  · rw [List.forall₂_map_right_iff, List.forall₂_same]
    intro entry _
    exact terminated_sameText _ entry.1
  · refine (sublist_flatMap (fun entry => fresh doc.classify (dominantEnding doc.lines)
      ((plan.insert.insertionSort (fun a b => a.1 ≤ b.1)).filter
        (fun x => decide (x.1 = entry.2)))) ?_).trans (List.sublist_append_left _ _)
    intro entry _ hrow
    have huntouched := hkeep entry.2 hrow
    have hremove : entry.2 ∉ plan.remove := fun hmem => huntouched (mem_append_right _ hmem)
    have hreplace : entry.2 ∉ plan.replace.map (·.1) :=
      fun hmem => huntouched (mem_append_left _ hmem)
    rw [atRow, settled, if_neg (by rwa [List.mem_insertionSort]), lookup_insertionSort,
      lookup_eq_none_of_keys hreplace]
    rfl

/-- Only the last terminator is taken away. -/
theorem setLastEnding_each (lines : List Line) :
    List.Forall₂ (fun line new : Line => new.raw = line.raw ∧
      (new.ending = line.ending ∨ new.ending = .none)) lines (setLastEnding lines .none) := by
  cases hlast : lines.getLast? with
  | none =>
    rw [setLastEnding, hlast, List.forall₂_same]
    exact fun line _ => ⟨rfl, .inl rfl⟩
  | some last =>
    rw [setLastEnding_eq hlast]
    nth_rewrite 1 [← dropLast_append_last hlast]
    refine List.rel_append ?_ (.cons ⟨rfl, .inr rfl⟩ .nil)
    rw [List.forall₂_same]
    exact fun line _ => ⟨rfl, .inl rfl⟩

theorem renderLine_moveCr (line : Line) : renderLine (moveCr line) = renderLine line := by
  unfold moveCr
  by_cases h : line.ending = .lf ∧ line.raw.getLast? = some '\r'
  · rw [if_pos h]
    obtain ⟨init, hraw⟩ := List.getLast?_eq_some_iff.mp h.2
    simp [renderLine, hraw, h.1, LineEnding.asStr]
  · rw [if_neg h]

theorem SameText.moved {old : Line} (h : SameText old line) : Keeps old (moveCr line) := by
  refine ⟨line.ending, ?_, ?_⟩
  · rw [renderLine_moveCr, renderLine, h.raw]
  · rw [moveCr_ending_none]
    exact h.ending

theorem respan_each (lines : List Line) (offset : Nat) :
    List.Forall₂ (fun line new : Line => new.raw = line.raw ∧ new.ending = line.ending) lines
      (respan offset lines) := by
  induction lines generalizing offset with
  | nil => exact .nil
  | cons line lines ih => exact .cons ⟨rfl, rfl⟩ (ih _)

theorem keeps_respan {stay : List Line} (h : SublistForall₂ Keeps stay lines) :
    SublistForall₂ Keeps stay (respan 0 lines) := by
  refine sublistForall₂_comp h (respan_each lines 0) ?_
  intro old line new ⟨ending, hrender, hending⟩ ⟨hraw, hend⟩
  refine ⟨ending, ?_, ?_⟩
  · rw [← hrender, renderLine, renderLine, hraw, hend]
  · rw [hend]
    exact hending

/-- Only a last line has no terminator, and it is not empty. -/
theorem ends_raw_ne_nil (h : Ends lines) (hmem : line ∈ lines) (hend : line.ending = .none) :
    line.raw ≠ [] := by
  cases hlast : lines.getLast? with
  | none =>
    rw [List.getLast?_eq_none_iff] at hlast
    simp [hlast] at hmem
  | some last =>
    rw [← dropLast_append_last hlast, mem_append, List.mem_singleton] at hmem
    rcases hmem with hmem | rfl
    · exact absurd hend (h.before line hmem)
    · exact h.last line hlast hend

/-- The lines that a plan leaves alone are in the edited document, byte for byte and in
order. Where the text has no last terminator and its end is removed, an empty line
that comes last is not there. -/
theorem applyPlan_keeps (hshape : Shape doc.classify doc.lines) (hclean : CleanPlan plan)
    (hone : AtMostOne plan)
    (hkeep : ∀ row, keep row = true → row ∉ plan.replace.map (·.1) ++ plan.remove) :
    SublistForall₂ Keeps (linesAt doc.lines keep) (doc.applyPlan plan).1.lines ∨
      ∃ stay line, linesAt doc.lines keep = stay ++ [line] ∧ line.raw = [] ∧
        line.ending ≠ .none ∧ endsUnterminated doc.lines = true ∧
        SublistForall₂ Keeps stay (doc.applyPlan plan).1.lines := by
  have hmerged : SublistForall₂ SameText (linesAt doc.lines keep) (merged doc plan) :=
    merged_sameText hone hkeep
  have hfinished : SublistForall₂ SameText (linesAt doc.lines keep)
      (if endsUnterminated doc.lines then setLastEnding (merged doc plan) .none
        else merged doc plan) := by
    by_cases hun : endsUnterminated doc.lines = true
    · rw [if_pos hun]
      refine sublistForall₂_comp hmerged (setLastEnding_each _) ?_
      intro old line new hsame ⟨hraw, hend⟩
      refine ⟨hraw.trans hsame.raw, ?_⟩
      rcases hend with hend | hend
      · rw [hend]
        exact hsame.ending
      · exact .inr (.inr hend)
    · rwa [if_neg hun]
  have hmoved := List.sublistForall₂_map_right_iff.mpr
    (sublistForall₂_comp hfinished (List.forall₂_same.mpr (fun _ _ => rfl))
      (fun _ _ _ hsame (heq : _ = _) => heq ▸ hsame.moved) :
      SublistForall₂ (fun old line => Keeps old (moveCr line)) _ _)
  rw [applyPlan_lines]
  show SublistForall₂ Keeps _ (respan 0 (dropEmptyLast _)) ∨
    ∃ stay line, _ ∧ _ ∧ _ ∧ _ ∧ SublistForall₂ Keeps stay (respan 0 (dropEmptyLast _))
  unfold dropEmptyLast
  cases hlast : (List.map moveCr (if endsUnterminated doc.lines then
      setLastEnding (merged doc plan) .none else merged doc plan)).getLast? with
  | none => exact .inl (keeps_respan hmoved)
  | some last =>
    by_cases hempty : last.ending = .none ∧ last.raw = []
    · simp only [hempty, and_self, if_true]
      rw [← dropLast_append_last hlast] at hmoved
      rcases sublistForall₂_concat hmoved with hbefore | ⟨stay, line, hstay, hline, hbefore⟩
      · exact .inl (keeps_respan hbefore)
      · obtain ⟨ending, hrender, _⟩ := hline
        have hraw : line.raw = [] := by
          rw [renderLine, hempty.1, hempty.2] at hrender
          exact (List.append_eq_nil_iff.mp hrender.symm).1
        have hin : line ∈ linesAt doc.lines keep := by
          rw [hstay]
          simp
        have hmem : line ∈ doc.lines := mem_linesAt hin
        refine .inr ⟨stay, line, hstay, hraw, ?_, ?_, keeps_respan hbefore⟩
        · exact fun hend => ends_raw_ne_nil hshape.ends hmem hend hraw
        · by_contra hun
          rw [if_neg hun] at hlast
          obtain ⟨old, hold, rfl⟩ := mem_map.mp (List.mem_of_getLast? hlast)
          exact (mem_merged hclean hold).1 ((moveCr_ending_none old).mp hempty.1)
    · simp only [hempty, if_false]
      exact .inl (keeps_respan hmoved)

end Kept

section Origins

variable {doc : Document} {plan : EntryPlan}

/-- A line is related to an old one, with its kind, or carries a text of the plan. -/
def Origin (R : Line → Line → Prop) (doc : Document) (plan : EntryPlan) (line : Line) : Prop :=
  (∃ old ∈ doc.lines, line.kind = old.kind ∧ R old line) ∨
    ∃ x ∈ plan.replace ++ plan.insert, line.raw = x.2 ∧ line.kind = doc.classify x.2

theorem terminated_kind (line : Line) : (terminated dominant line).kind = line.kind := by
  unfold terminated
  split_ifs <;> rfl

theorem terminated_raw (line : Line) : (terminated dominant line).raw = line.raw := by
  unfold terminated
  split_ifs <;> rfl

theorem merge_origin (classify : Text → LineKind) (dominant : LineEnding) (row : Nat)
    (lines : List Line) (replace : List (Nat × Text)) (remove : List Nat)
    (insert : List (Nat × Text))
    (hmem : line ∈ merge classify dominant row lines replace remove insert) :
    (∃ old ∈ lines, line = terminated dominant old) ∨
      ∃ x ∈ replace ++ insert, line.raw = x.2 ∧ line.kind = classify x.2 := by
  have hfresh : ∀ inserts : List (Nat × Text), line ∈ fresh classify dominant inserts →
      ∃ x ∈ inserts, line.raw = x.2 ∧ line.kind = classify x.2 := by
    intro inserts hmem
    obtain ⟨x, hx, rfl⟩ := mem_map.mp hmem
    exact ⟨x, hx, rfl, rfl⟩
  induction lines generalizing row replace remove insert with
  | nil =>
    obtain ⟨x, hx, hline⟩ := hfresh insert hmem
    exact .inr ⟨x, mem_append_right _ hx, hline⟩
  | cons old lines ih =>
    obtain ⟨own, replace', remove', hmerge, hsub, hown⟩ :=
      merge_step classify dominant row old lines replace remove insert
    rw [hmerge] at hmem
    simp only [mem_append] at hmem
    rcases hmem with (hmem | hmem) | hmem
    · obtain ⟨x, hx, hline⟩ := hfresh _ hmem
      exact .inr ⟨x, mem_append_right _ (List.takeWhile_subset _ hx), hline⟩
    · rcases hown with rfl | rfl | ⟨raw, hraw, rfl⟩
      · simp at hmem
      · exact .inl ⟨old, by simp, List.mem_singleton.mp hmem⟩
      · rw [List.mem_singleton.mp hmem]
        exact .inr ⟨_, mem_append_left _ hraw, terminated_raw _ _, terminated_kind _ _⟩
    · rcases ih (row + 1) replace' remove' _ hmem with ⟨other, hother, hline⟩ | ⟨x, hx, hline⟩
      · exact .inl ⟨other, by simp [hother], hline⟩
      · rcases mem_append.mp hx with hx | hx
        · exact .inr ⟨x, mem_append_left _ (hsub x hx), hline⟩
        · exact .inr ⟨x, mem_append_right _ (List.dropWhile_subset _ hx), hline⟩

theorem merged_origin (hmem : line ∈ merged doc plan) : Origin SameText doc plan line := by
  rcases merge_origin _ _ _ _ _ _ _ hmem with ⟨old, hold, rfl⟩ | ⟨x, hx, hline⟩
  · exact .inl ⟨old, hold, terminated_kind _ _, terminated_sameText _ old⟩
  · simp only [mem_append, List.mem_insertionSort] at hx
    exact .inr ⟨x, mem_append.mpr hx, hline⟩

theorem mem_of_mem_respan {offset : Nat} (h : line ∈ respan offset lines) :
    ∃ old ∈ lines, line = { old with span := line.span } := by
  induction lines generalizing offset with
  | nil => cases h
  | cons first lines ih =>
    rw [respan] at h
    rcases List.mem_cons.mp h with rfl | h
    · exact ⟨first, by simp, rfl⟩
    · obtain ⟨old, hold, hline⟩ := ih h
      exact ⟨old, List.mem_cons_of_mem _ hold, hline⟩

theorem moveCr_kind (line : Line) : (moveCr line).kind = line.kind := by
  unfold moveCr
  split_ifs <;> rfl

theorem moveCr_of_clean (h : Clean line.raw) : moveCr line = line := by
  rw [moveCr, if_neg]
  exact fun hcr => h.2 (List.mem_of_getLast? hcr.2)

/-- The text of an old line, up to a carriage return that moved into its terminator. -/
structure Carries (old new : Line) : Prop where
  raw : new.raw = old.raw ∨ old.raw = new.raw ++ ['\r']
  keeps : Keeps old new

theorem SameText.carried {old : Line} (h : SameText old line) : Carries old (moveCr line) := by
  refine ⟨?_, h.moved⟩
  unfold moveCr
  by_cases hcr : line.ending = .lf ∧ line.raw.getLast? = some '\r'
  · rw [if_pos hcr]
    obtain ⟨init, hraw⟩ := List.getLast?_eq_some_iff.mp hcr.2
    right
    simp [← h.raw, hraw]
  · rw [if_neg hcr]
    exact .inl h.raw

/-- Every line of the edited document is an old one, with its kind and its bytes, or
carries a text of the plan. -/
theorem applyPlan_origin (hclean : CleanPlan plan) (hmem : line ∈ (doc.applyPlan plan).1.lines) :
    Origin Carries doc plan line := by
  have hfinished : ∀ line ∈ (if endsUnterminated doc.lines then setLastEnding (merged doc plan) .none
      else merged doc plan), Origin SameText doc plan line := by
    intro line hmem
    by_cases hun : endsUnterminated doc.lines = true
    · rw [if_pos hun] at hmem
      cases hlast : (merged doc plan).getLast? with
      | none =>
        rw [setLastEnding, hlast] at hmem
        exact merged_origin hmem
      | some last =>
        rw [setLastEnding_eq hlast] at hmem
        rcases mem_append.mp hmem with hmem | hmem
        · exact merged_origin ((List.dropLast_sublist _).mem hmem)
        · rw [List.mem_singleton.mp hmem]
          rcases merged_origin (List.mem_of_getLast? hlast) with ⟨old, hold, hkind, hsame⟩ | hnew
          · exact .inl ⟨old, hold, hkind, hsame.raw, .inr (.inr rfl)⟩
          · exact .inr hnew
    · rw [if_neg hun] at hmem
      exact merged_origin hmem
  have hclear : ∀ x ∈ plan.replace ++ plan.insert, Clean x.2 :=
    fun x hx => (mem_append.mp hx).elim (hclean.replace x) (hclean.insert x)
  rw [applyPlan_lines] at hmem
  obtain ⟨spanned, hspanned, hline⟩ := mem_of_mem_respan hmem
  obtain ⟨last, hlast, rfl⟩ := mem_map.mp (mem_of_mem_dropEmptyLast hspanned)
  rw [hline]
  rcases hfinished last hlast with ⟨old, hold, hkind, hsame⟩ | ⟨x, hx, hraw, hkind⟩
  · exact .inl ⟨old, hold, (moveCr_kind last).trans hkind, hsame.carried.raw, hsame.carried.keeps⟩
  · rw [moveCr_of_clean (hraw ▸ hclear x hx)]
    exact .inr ⟨x, hx, hraw, hkind⟩

end Origins
end Detent.Guarantees.FlavourPlans
