import Detent.Guarantees.CanonicalDocuments

/-!
# An entry edit makes the entries what is wanted

The keys of the places order the lines of the edited document, so reading its
entries row by row reads the wanted entries in order. `normalize` then changes no
entry, as long as a carriage return means nothing to the module and the empty text
is no entry.
-/
namespace Detent.Guarantees.EntryEdits
open Lib Lib.Text Source.Doc DocShape
open PlanMerge EntryPlans CanonicalDocuments
open List (filter_congr filter_cons_of_neg mem_cons mem_filter mem_filterMap mem_insertionSort
  mem_map)

section Groups

variable {α β : Type}

theorem split_below {V : List (Nat × α)} (h : V.Pairwise (fun a b => a.1 ≤ b.1)) (k : Nat) :
    V = V.filter (fun x => decide (x.1 < k)) ++ V.filter (fun x => decide (k ≤ x.1)) := by
  induction V with
  | nil => rfl
  | cons head V ih =>
    have hpair := List.pairwise_cons.mp h
    by_cases hlt : head.1 < k
    · rw [List.filter_cons_of_pos (by simpa using hlt), filter_cons_of_neg (by simpa using hlt),
        List.cons_append, ← ih hpair.2]
    · have hall : ∀ x ∈ head :: V, k ≤ x.1 := by
        intro x hmem
        rcases mem_cons.mp hmem with rfl | hmem
        · omega
        · have := hpair.1 x hmem
          omega
      have hnone : (head :: V).filter (fun x => decide (x.1 < k)) = [] := by
        apply List.filter_eq_nil_iff.mpr
        intro x hmem
        have := hall x hmem
        simpa using this
      have hsame : (head :: V).filter (fun x => decide (k ≤ x.1)) = head :: V := by
        apply List.filter_eq_self.mpr
        intro x hmem
        simpa using hall x hmem
      rw [hnone, hsame]
      rfl

theorem split_at_key {V : List (Nat × α)} (h : V.Pairwise (fun a b => a.1 ≤ b.1)) {k : Nat}
    (hge : ∀ x ∈ V, k ≤ x.1) :
    V = V.filter (fun x => decide (x.1 = k)) ++ V.filter (fun x => decide (k < x.1)) := by
  have hleast : V.filter (fun x => decide (x.1 < k + 1)) = V.filter (fun x => decide (x.1 = k)) := by
    apply filter_congr
    intro x hmem
    have := hge x hmem
    apply decide_eq_decide.mpr
    omega
  rw [← hleast]
  exact split_below h (k + 1)

theorem split_at_group {V : List (Nat × α)} (h : V.Pairwise (fun a b => a.1 ≤ b.1))
    (k : Nat) : V = V.filter (fun x => decide (x.1 < k)) ++
      (V.filter (fun x => decide (x.1 = k)) ++ V.filter (fun x => decide (k < x.1))) := by
  have hrest := split_at_key (h.filter (fun x => decide (k ≤ x.1))) (k := k)
    (fun x hmem => of_decide_eq_true (mem_filter.mp hmem).2)
  have hkey : (V.filter (fun x => decide (k ≤ x.1))).filter (fun x => decide (x.1 = k)) =
      V.filter (fun x => decide (x.1 = k)) := by
    rw [List.filter_filter]
    apply filter_congr
    intro x _
    rw [← Bool.decide_and]
    apply decide_eq_decide.mpr
    omega
  have hlater : (V.filter (fun x => decide (k ≤ x.1))).filter (fun x => decide (k < x.1)) =
      V.filter (fun x => decide (k < x.1)) := by
    rw [List.filter_filter]
    apply filter_congr
    intro x _
    rw [← Bool.decide_and]
    apply decide_eq_decide.mpr
    omega
  rw [hkey, hlater] at hrest
  rw [← hrest]
  exact split_below h k

theorem filter_key_later {V : List (Nat × α)} {k key : Nat} (h : k < key) :
    (V.filter (fun x => decide (k < x.1))).filter (fun x => decide (x.1 = key)) =
      V.filter (fun x => decide (x.1 = key)) := by
  rw [List.filter_filter]
  apply filter_congr
  intro x _
  by_cases hx : x.1 = key
  · simp [hx, h]
  · simp [hx]

/-- A list ordered by keys, read row by row: for each row first the even key, then
the odd one. -/
theorem map_eq_groups (f : Nat × α → β) (lines : List Line) (row : Nat) (V : List (Nat × α))
    (h : V.Pairwise (fun a b => a.1 ≤ b.1))
    (hbounds : ∀ x ∈ V, 2 * row ≤ x.1 ∧ x.1 ≤ 2 * (row + lines.length)) :
    V.map f = (lines.zipIdx row).flatMap (fun entry =>
        (V.filter (fun x => decide (x.1 = 2 * entry.2))).map f ++
          (V.filter (fun x => decide (x.1 = 2 * entry.2 + 1))).map f) ++
      (V.filter (fun x => decide (x.1 = 2 * (row + lines.length)))).map f := by
  induction lines generalizing row V with
  | nil =>
    have hall : V.filter (fun x => decide (x.1 = 2 * (row + ([] : List Line).length))) = V := by
      apply List.filter_eq_self.mpr
      intro x hmem
      have := hbounds x hmem
      simp only [List.length_nil] at this
      simp only [List.length_nil, decide_eq_true_eq]
      omega
    rw [hall]
    rfl
  | cons line lines ih =>
    have hfirst := split_at_key h (fun x hmem => (hbounds x hmem).1)
    have hsorted := h.filter (fun x => decide (2 * row < x.1))
    have hsecond := split_at_key hsorted (k := 2 * row + 1)
      (fun x hmem => of_decide_eq_true (mem_filter.mp hmem).2)
    rw [filter_key_later (by omega), List.filter_filter] at hsecond
    have hlater : V.filter (fun x => decide (2 * row + 1 < x.1) && decide (2 * row < x.1)) =
        V.filter (fun x => decide (2 * row + 1 < x.1)) := by
      apply filter_congr
      intro x _
      rw [← Bool.decide_and]
      apply decide_eq_decide.mpr
      omega
    rw [hlater] at hsecond
    have hrest := ih (row + 1) (V.filter (fun x => decide (2 * row + 1 < x.1))) (h.filter _)
      (fun x hmem => by
        have hlt := of_decide_eq_true (mem_filter.mp hmem).2
        have := hbounds x (mem_filter.mp hmem).1
        simp only [List.length_cons] at this
        omega)
    have hgroups : (lines.zipIdx (row + 1)).flatMap (fun entry =>
        ((V.filter (fun x => decide (2 * row + 1 < x.1))).filter
            (fun x => decide (x.1 = 2 * entry.2))).map f ++
          ((V.filter (fun x => decide (2 * row + 1 < x.1))).filter
            (fun x => decide (x.1 = 2 * entry.2 + 1))).map f) =
        (lines.zipIdx (row + 1)).flatMap (fun entry =>
          (V.filter (fun x => decide (x.1 = 2 * entry.2))).map f ++
            (V.filter (fun x => decide (x.1 = 2 * entry.2 + 1))).map f) := by
      apply List.flatMap_congr
      intro entry hmem
      have := List.le_snd_of_mem_zipIdx hmem
      rw [filter_key_later (by omega), filter_key_later (by omega)]
    rw [hgroups, filter_key_later (by omega)] at hrest
    have hmap := congrArg (List.map f) hfirst
    rw [hsecond, List.map_append, List.map_append] at hmap
    rw [List.zipIdx_cons, List.flatMap_cons, List.append_assoc, List.append_assoc,
      show row + (line :: lines).length = row + 1 + lines.length by simp; omega, ← hrest]
    exact hmap

end Groups

section Normalized

variable {T : Type} {parseEntry : Text → Option T} {classify : Text → LineKind}

/-- The entries of some lines, in order. -/
def entriesOf (parseEntry : Text → Option T) (lines : List Line) : List T :=
  lines.filterMap (entryOf parseEntry)

theorem entriesOf_respan (lines : List Line) (offset : Nat) :
    entriesOf parseEntry (respan offset lines) = entriesOf parseEntry lines := by
  induction lines generalizing offset with
  | nil => rfl
  | cons line lines ih =>
    have hhead : entryOf parseEntry { line with span := ⟨offset, offset + len line.raw⟩ } =
        entryOf parseEntry line := rfl
    simp only [entriesOf] at ih
    simp only [entriesOf, respan, List.filterMap_cons, hhead, ih]

theorem entryOf_moveCr (hcr : ∀ raw, parseEntry (raw ++ ['\r']) = parseEntry raw) (line : Line) :
    entryOf parseEntry (moveCr line) = entryOf parseEntry line := by
  unfold moveCr
  by_cases h : line.ending = .lf ∧ line.raw.getLast? = some '\r'
  · rw [if_pos h]
    obtain ⟨init, hraw⟩ := List.getLast?_eq_some_iff.mp h.2
    simp only [entryOf, hraw, List.dropLast_concat, hcr]
  · rw [if_neg h]

theorem entriesOf_setLastEnding (lines : List Line) (ending : LineEnding) :
    entriesOf parseEntry (setLastEnding lines ending) = entriesOf parseEntry lines := by
  cases hlast : lines.getLast? with
  | none => rw [setLastEnding, hlast]
  | some last =>
    have hsame : entryOf parseEntry { last with ending := ending } = entryOf parseEntry last := rfl
    rw [setLastEnding_eq hlast]
    conv_rhs => rw [← dropLast_append_last hlast]
    simp only [entriesOf, List.filterMap_append, List.filterMap_cons, hsame]

theorem entriesOf_dropEmptyLast {lines : List Line}
    (hnone : ∀ line ∈ lines, line.ending = .none → line.raw = [] → entryOf parseEntry line = none) :
    entriesOf parseEntry (dropEmptyLast lines) = entriesOf parseEntry lines := by
  unfold dropEmptyLast
  cases hlast : lines.getLast? with
  | none => rfl
  | some last =>
    by_cases hempty : last.ending = .none ∧ last.raw = []
    · have hentry := hnone last (List.mem_of_getLast? hlast) hempty.1 hempty.2
      simp only [hempty, and_self, if_true]
      conv_rhs => rw [← dropLast_append_last hlast]
      simp [entriesOf, List.filterMap_append, hentry]
    · simp only [hempty, if_false]

theorem entriesOf_normalize {lines : List Line} (hsound : ∀ line ∈ lines, Sound classify line)
    (hcr : ∀ raw, parseEntry (raw ++ ['\r']) = parseEntry raw)
    (hempty : ¬ (classify [] = .directive ∧ (parseEntry []).isSome)) :
    entriesOf parseEntry (normalize lines) = entriesOf parseEntry lines := by
  rw [Source.Doc.normalize, entriesOf_respan, entriesOf_dropEmptyLast, entriesOf,
    List.filterMap_map]
  · apply List.filterMap_congr
    intro line _
    exact entryOf_moveCr hcr line
  · intro line hmem hend hraw
    obtain ⟨old, hold, rfl⟩ := mem_map.mp hmem
    have hstay : moveCr old = old := by
      have hnone := (moveCr_ending_none old).mp hend
      unfold moveCr
      rw [if_neg]
      intro hlf
      rw [hlf.1] at hnone
      cases hnone
    rw [hstay] at hraw ⊢
    have hkind := (hsound old hold).kind
    rw [hraw] at hkind
    unfold entryOf
    by_cases hdirective : old.kind = .directive
    · rw [if_pos hdirective, hraw]
      cases hparse : parseEntry [] with
      | none => rfl
      | some entry => exact absurd ⟨hkind ▸ hdirective, by simp [hparse]⟩ hempty
    · rw [if_neg hdirective]

end Normalized

variable {row : Nat}

section Merged

variable {T : Type} {doc : Document} {wanted : List T}
  {parseEntry : Text → Option T} {render : T → Except EditError Text}

/-- Every wanted entry is rendered as a directive that reads back as it. -/
def Renders (classify : Text → LineKind) (parseEntry : Text → Option T)
    (render : T → Except EditError Text) (wanted : List T) : Prop :=
  ∀ entry ∈ wanted, ∃ raw, render entry = .ok raw ∧ raw ≠ [] ∧
    classify raw = .directive ∧ parseEntry raw = some entry

/-- Whatever a wanted entry is rendered as reads back as it. -/
def Reads (classify : Text → LineKind) (parseEntry : Text → Option T)
    (render : T → Except EditError Text) (wanted : List T) : Prop :=
  ∀ entry ∈ wanted, ∀ raw, render entry = .ok raw →
    classify raw = .directive ∧ parseEntry raw = some entry

theorem Renders.reads {classify : Text → LineKind}
    (h : Renders classify parseEntry render wanted) : Reads classify parseEntry render wanted := by
  intro entry hentry raw hraw
  obtain ⟨raw', hrender, _, hkind, hparse⟩ := h entry hentry
  obtain rfl : raw' = raw := Except.ok.inj (hrender.symm.trans hraw)
  exact ⟨hkind, hparse⟩

/-- A key says the row of a place, or that its line is new. -/
structure Keyed (x : Nat × Placement T) : Prop where
  row : ∀ row, x.2.row = some row → x.1 = 2 * row + 1
  new : x.2.row = none → x.1 % 2 = 0

theorem keyed_all (lines : List Line) (opensSection : Text → Bool) (places : List (Placement T))
    (place : Option Nat) : ∀ x ∈ keyed lines opensSection places place, Keyed x := by
  intro x hmem
  obtain ⟨hrow, hnew⟩ := keyed_key lines opensSection places place x hmem
  exact ⟨hrow, hnew⟩

/-- What holds of each keyed place of a plan. -/
structure Fits (doc : Document) (parseEntry : Text → Option T) (x : Nat × Placement T) : Prop where
  row : ∀ row, x.2.row = some row → x.1 = 2 * row + 1
  new : x.2.row = none → x.1 % 2 = 0
  added : ∀ raw entry, x.2 = .added raw entry →
    doc.classify raw = .directive ∧ parseEntry raw = some entry
  rewritten : ∀ row raw entry, x.2 = .rewritten row raw entry →
    doc.classify raw = .directive ∧ parseEntry raw = some entry
  kept : ∀ row entry, x.2 = .kept row entry → (row, entry) ∈ entryRows doc.lines parseEntry

theorem planned_fits [DecidableEq T] {opensSection : Text → Bool} {plan : EntryPlan}
    {places : List (Placement T)} (hreads : Reads doc.classify parseEntry render wanted)
    (h : Planned doc wanted parseEntry render opensSection plan places) :
    ∀ x ∈ keyed doc.lines opensSection places none, Fits doc parseEntry x := by
  intro x hmem
  have hkey := keyed_key doc.lines opensSection places none x hmem
  have hplace : x.2 ∈ places := by
    rw [← keyed_places doc.lines opensSection places none]
    exact List.mem_map_of_mem hmem
  have hentry : x.2.entry ∈ wanted := by
    rw [← h.entries]
    exact List.mem_map_of_mem hplace
  have hgood := h.good x.2 hplace
  refine ⟨hkey.1, hkey.2, ?_, ?_, ?_⟩
  · intro raw entry hx
    rw [hx] at hentry hgood
    exact hreads _ hentry raw hgood.1
  · intro row raw entry hx
    rw [hx] at hentry hgood
    exact hreads _ hentry raw hgood.1
  · intro row entry hx
    rw [hx] at hgood
    exact hgood

/-- The new lines placed before a row hold the entries placed there. -/
theorem entriesOf_fresh (V : List (Nat × Placement T)) (hfits : ∀ x ∈ V, Fits doc parseEntry x)
    (dominant : LineEnding) (p : Nat → Bool) (q : Nat → Bool)
    (heven : ∀ x ∈ V, x.2.row = none → q x.1 = p (x.1 / 2))
    (hodd : ∀ x ∈ V, ∀ row, x.2.row = some row → q x.1 = false) :
    entriesOf parseEntry (fresh doc.classify dominant
        ((V.filterMap insertOf).filter (fun x => p x.1))) =
      (V.filter (fun x => q x.1)).map (fun x => x.2.entry) := by
  induction V with
  | nil => rfl
  | cons head V ih =>
    have hrest := ih (fun x hmem => hfits x (by simp [hmem])) (fun x hmem => heven x (by simp [hmem]))
      (fun x hmem => hodd x (by simp [hmem]))
    have hhead := hfits head (by simp)
    have heven' := heven head (by simp)
    have hodd' := hodd head (by simp)
    obtain ⟨key, place⟩ := head
    cases place with
    | kept row entry | rewritten row raw entry =>
      rw [List.filterMap_cons_none rfl, hrest, filter_cons_of_neg (by simp [hodd' row rfl])]
    | added raw entry =>
      have hinsert : insertOf (key, Placement.added raw entry) = some (key / 2, raw) := rfl
      have hq : q key = p (key / 2) := heven' rfl
      obtain ⟨hkind, hparse⟩ := hhead.added raw entry rfl
      have hline : entryOf parseEntry (newLine doc.classify raw dominant) = some entry := by
        simp [entryOf, newLine, hkind, hparse]
      rw [List.filterMap_cons_some hinsert]
      by_cases hp : p (key / 2) = true
      · rw [List.filter_cons_of_pos (by simpa using hp),
          List.filter_cons_of_pos (by simpa [hq] using hp), List.map_cons, ← hrest]
        simp only [entriesOf, fresh, List.map_cons, List.filterMap_cons, hline]
        rfl
      · rw [filter_cons_of_neg (by simpa using hp),
          filter_cons_of_neg (by simpa [hq] using hp)]
        exact hrest

theorem Keyed.row_of_key {x : Nat × Placement T} (h : Keyed x) (hkey : x.1 = 2 * row + 1) :
    x.2.row = some row := by
  cases hrow : x.2.row with
  | none =>
    have := h.new hrow
    omega
  | some row' =>
    have := h.row row' hrow
    rw [show row' = row by omega]

theorem group_empty {V : List (Nat × Placement T)} (hkeyed : ∀ x ∈ V, Keyed x)
    (hrow : row ∉ V.filterMap (fun x => x.2.row)) :
    V.filter (fun y => decide (y.1 = 2 * row + 1)) = [] := by
  apply List.filter_eq_nil_iff.mpr
  intro y hy hkey
  have hin := (hkeyed y hy).row_of_key (of_decide_eq_true hkey)
  exact hrow (mem_filterMap.mpr ⟨y, hy, hin⟩)

theorem group_row {V : List (Nat × Placement T)} (hkeyed : ∀ x ∈ V, Keyed x)
    (hrows : (V.filterMap (fun x => x.2.row)).Nodup) {x : Nat × Placement T} (hx : x ∈ V)
    (hrow : x.2.row = some row) : V.filter (fun y => decide (y.1 = 2 * row + 1)) = [x] := by
  induction V with
  | nil => simp at hx
  | cons head V ih =>
    have hkeyed' : ∀ y ∈ V, Keyed y := fun y hmem => hkeyed y (by simp [hmem])
    by_cases hhead : head.1 = 2 * row + 1
    · have hin := (hkeyed head (by simp)).row_of_key hhead
      simp only [List.filterMap_cons, hin, List.nodup_cons] at hrows
      rw [List.filter_cons_of_pos (by simpa using hhead), group_empty hkeyed' hrows.1]
      rcases mem_cons.mp hx with rfl | hx
      · rfl
      · exact absurd (mem_filterMap.mpr ⟨x, hx, hrow⟩) hrows.1
    · rw [filter_cons_of_neg (by simpa using hhead)]
      rcases mem_cons.mp hx with rfl | hx
      · exact absurd ((hkeyed x (by simp)).row row hrow) hhead
      · exact ih hkeyed' (hrows.sublist ((List.sublist_cons_self head V).filterMap _)) hx

theorem lookup_eq_some_of_mem {l : List (Nat × Text)} (hnodup : (l.map (·.1)).Nodup) {raw : Text}
    (hmem : (row, raw) ∈ l) : l.lookup row = some raw := by
  induction l with
  | nil => simp at hmem
  | cons head l ih =>
    obtain ⟨key, text⟩ := head
    rw [List.map_cons, List.nodup_cons] at hnodup
    rcases mem_cons.mp hmem with heq | hmem
    · obtain ⟨rfl, rfl⟩ := Prod.mk.inj heq
      simp
    · have hne : (row == key) = false := by
        rw [beq_eq_false_iff_ne]
        intro hkey
        exact hnodup.1 (mem_map.mpr ⟨(row, raw), hmem, hkey⟩)
      rw [List.lookup_cons, hne]
      exact ih hnodup.2 hmem

end Merged

section Settled

variable {T : Type} {doc : Document} {wanted : List T}
  {parseEntry : Text → Option T} {render : T → Except EditError Text} {opensSection : Text → Bool}
  {plan : EntryPlan} {places : List (Placement T)}

theorem entryOf_terminated (dominant : LineEnding) (line : Line) :
    entryOf parseEntry (terminated dominant line) = entryOf parseEntry line := by
  unfold terminated
  by_cases h : line.ending = .none
  · rw [if_pos h]
    rfl
  · rw [if_neg h]

theorem exists_keyed (doc : Document) (opensSection : Text → Bool) {place : Placement T}
    (hplace : place ∈ places) :
    ∃ x ∈ keyed doc.lines opensSection places none, x.2 = place := by
  rw [← keyed_places doc.lines opensSection places none] at hplace
  exact mem_map.mp hplace

theorem entriesOf_singleton (line : Line) :
    entriesOf parseEntry [line] = (entryOf parseEntry line).toList := by
  cases h : entryOf parseEntry line with
  | none | some => simp [entriesOf, h]

theorem keyed_rows : (keyed doc.lines opensSection places none).filterMap (fun x => x.2.row) =
    places.filterMap Placement.row := by
  conv_rhs => rw [← keyed_places doc.lines opensSection places none]
  rw [List.filterMap_map]
  rfl

theorem insertOf_sorted {V : List (Nat × Placement T)} (h : V.Pairwise (fun a b => a.1 ≤ b.1)) :
    (V.filterMap insertOf).Pairwise (fun a b => a.1 ≤ b.1) := by
  refine h.filterMap _ (fun a b hab x hx y hy => ?_)
  obtain ⟨key, place⟩ := a
  obtain ⟨key', place'⟩ := b
  cases place with
  | kept | rewritten => cases hx
  | added raw entry =>
    cases place' with
    | kept | rewritten => cases hy
    | added raw' entry' =>
      obtain rfl := Option.some.inj hx
      obtain rfl := Option.some.inj hy
      exact Nat.div_le_div_right hab

variable [DecidableEq T] (h : Planned doc wanted parseEntry render opensSection plan places)
include h

theorem planned_nodup : (places.filterMap Placement.row ++ plan.remove).Nodup :=
  h.all.nodup_iff.mpr ((entryRows_increasing doc.lines parseEntry).imp Nat.ne_of_lt)

theorem place_unique {place other : Placement T} (hplace : place ∈ places)
    (hother : other ∈ places) (hrow : place.row = some row) (hrow' : other.row = some row) :
    place = other := by
  obtain ⟨x, hx, rfl⟩ := exists_keyed doc opensSection hplace
  obtain ⟨y, hy, rfl⟩ := exists_keyed doc opensSection hother
  have hrows : ((keyed doc.lines opensSection places none).filterMap (fun x => x.2.row)).Nodup := by
    rw [keyed_rows]
    exact (List.nodup_append.mp (planned_nodup h)).1
  have hkeyed := keyed_all doc.lines opensSection places none
  have hsame := (group_row hkeyed hrows hx hrow).symm.trans (group_row hkeyed hrows hy hrow')
  rw [(List.cons.inj hsame).1]

theorem group_of_place {place : Placement T} (hplace : place ∈ places)
    (hrow : place.row = some row) :
    ((keyed doc.lines opensSection places none).filter
      (fun x => decide (x.1 = 2 * row + 1))).map (fun x => x.2.entry) = [place.entry] := by
  obtain ⟨x, hx, rfl⟩ := exists_keyed doc opensSection hplace
  have hrows : ((keyed doc.lines opensSection places none).filterMap (fun x => x.2.row)).Nodup := by
    rw [keyed_rows]
    exact (List.nodup_append.mp (planned_nodup h)).1
  rw [group_row (keyed_all _ _ _ _) hrows hx hrow]
  rfl

/-- What the sorted rewrites of a plan say of a row is what the place on it does. -/
theorem lookup_rewritten {raw : Text} {entry : T}
    (hplace : .rewritten row raw entry ∈ places) :
    (plan.replace.insertionSort (fun a b => a.1 ≤ b.1)).lookup row = some raw := by
  have hkeys : ((plan.replace.insertionSort (fun a b => a.1 ≤ b.1)).map (·.1)).Nodup := by
    refine ((List.perm_insertionSort _ _).map _).nodup_iff.mpr ?_
    rw [h.replace]
    exact ((List.nodup_append.mp (planned_nodup h)).1).sublist (rewrite_rows places)
  apply lookup_eq_some_of_mem hkeys
  rw [mem_insertionSort, h.replace]
  exact mem_filterMap.mpr ⟨_, hplace, rfl⟩

theorem lookup_kept {entry : T} (hplace : .kept row entry ∈ places) :
    (plan.replace.insertionSort (fun a b => a.1 ≤ b.1)).lookup row = none := by
  rw [List.lookup_eq_none_iff]
  intro y hy
  rw [mem_insertionSort, h.replace] at hy
  obtain ⟨other, hother, hrewrite⟩ := mem_filterMap.mp hy
  rw [bne_iff_ne]
  intro hkey
  cases other with
  | kept | added => cases hrewrite
  | rewritten row raw entry =>
    obtain rfl := Option.some.inj hrewrite
    have hsame := place_unique h hplace hother rfl (congrArg some hkey.symm)
    cases hsame

theorem lookup_unplaced (hin : row ∉ places.filterMap Placement.row) :
    (plan.replace.insertionSort (fun a b => a.1 ≤ b.1)).lookup row = none := by
  rw [List.lookup_eq_none_iff]
  intro y hy
  rw [mem_insertionSort, h.replace] at hy
  rw [bne_iff_ne]
  intro hkey
  exact hin (hkey ▸ (rewrite_rows places).mem (List.mem_map_of_mem hy))

/-- A line that the plan leaves alone holds no entry. -/
theorem entryOf_unplaced {line : Line} (hline : doc.lines[row]? = some line)
    (hremove : row ∉ plan.remove) (hin : row ∉ places.filterMap Placement.row) :
    entryOf parseEntry line = none := by
  have hfound : row ∉ (entryRows doc.lines parseEntry).map (·.1) := by
    rw [← h.all.mem_iff, List.mem_append]
    exact fun hor => hor.elim hin hremove
  cases hentry : entryOf parseEntry line with
  | none => rfl
  | some entry =>
    exact absurd (mem_map.mpr ⟨(row, entry), mem_entryRows.mpr ⟨line, hline, hentry⟩, rfl⟩)
      hfound

omit h in
theorem entryOf_rewritten (hreads : Reads doc.classify parseEntry render wanted)
    (h : Planned doc wanted parseEntry render opensSection plan places) {line : Line}
    (hline : doc.lines[row]? = some line) (hremove : row ∉ plan.remove) :
    (entryOf parseEntry (rewritten doc.classify line
        ((plan.replace.insertionSort (fun a b => a.1 ≤ b.1)).lookup row))).toList =
      ((keyed doc.lines opensSection places none).filter
        (fun x => decide (x.1 = 2 * row + 1))).map (fun x => x.2.entry) := by
  by_cases hin : row ∈ places.filterMap Placement.row
  · obtain ⟨place, hplace, hrow⟩ := mem_filterMap.mp hin
    rw [group_of_place h hplace hrow]
    obtain ⟨x, hx, rfl⟩ := exists_keyed doc opensSection hplace
    have hfits := planned_fits hreads h x hx
    cases hplaced : x.2 with
    | added raw entry =>
      rw [hplaced] at hrow
      cases hrow
    | rewritten row' raw entry =>
      rw [hplaced] at hplace hrow
      obtain rfl : row' = row := Option.some.inj hrow
      obtain ⟨hkind, hparse⟩ := hfits.rewritten row' raw entry hplaced
      rw [lookup_rewritten h hplace]
      simp [rewritten, entryOf, hkind, hparse, Placement.entry]
    | kept row' entry =>
      rw [hplaced] at hplace hrow
      obtain rfl : row' = row := Option.some.inj hrow
      obtain ⟨line', hline', hentry⟩ := mem_entryRows.mp (hfits.kept row' entry hplaced)
      obtain rfl : line = line' := Option.some.inj (hline.symm.trans hline')
      rw [lookup_kept h hplace, rewritten, hentry]
      rfl
  · rw [group_empty (keyed_all _ _ _ _) (by rwa [keyed_rows]), lookup_unplaced h hin, rewritten,
      entryOf_unplaced h hline hremove hin]
    rfl

omit h in
/-- What an old row leaves holds the entry placed on it. -/
theorem entriesOf_settled (hreads : Reads doc.classify parseEntry render wanted)
    (h : Planned doc wanted parseEntry render opensSection plan places) {line : Line}
    (hline : doc.lines[row]? = some line) (dominant : LineEnding) :
    entriesOf parseEntry (settled doc.classify dominant
        (plan.replace.insertionSort (fun a b => a.1 ≤ b.1)) (plan.remove.insertionSort (· ≤ ·))
        line row) =
      ((keyed doc.lines opensSection places none).filter
        (fun x => decide (x.1 = 2 * row + 1))).map (fun x => x.2.entry) := by
  unfold settled
  by_cases hremove : row ∈ plan.remove.insertionSort (· ≤ ·)
  · rw [if_pos hremove, group_empty (keyed_all _ _ _ _)]
    · rfl
    · rw [keyed_rows]
      rw [mem_insertionSort] at hremove
      exact fun hin => (List.nodup_append.mp (planned_nodup h)).2.2 row hin row hremove rfl
  · rw [mem_insertionSort] at hremove
    rw [if_neg (by rwa [mem_insertionSort]), entriesOf_singleton, entryOf_terminated]
    exact entryOf_rewritten hreads h hline hremove

theorem planned_keyed :
    (keyed doc.lines opensSection places none).Pairwise (fun a b => a.1 ≤ b.1) ∧
      ∀ x ∈ keyed doc.lines opensSection places none, 2 * 0 ≤ x.1 ∧ x.1 ≤ 2 * doc.lines.length := by
  refine keyed_sorted doc.lines opensSection places none h.increasing (fun _ _ => Nat.zero_le _)
    (fun row hmem => ?_) (Nat.zero_le _)
  have hin : row ∈ (entryRows doc.lines parseEntry).map (·.1) := by
    rw [← h.all.mem_iff]
    exact List.mem_append_left _ hmem
  obtain ⟨⟨row', entry⟩, hfound, rfl⟩ := mem_map.mp hin
  obtain ⟨line, hline, _⟩ := mem_entryRows.mp hfound
  exact (List.getElem?_eq_some_iff.mp hline).1

theorem planned_inside : ∀ x ∈ plan.insert, x.1 ≤ doc.lines.length := by
  intro x hmem
  rw [h.insert] at hmem
  obtain ⟨⟨key, place⟩, hkeyed, hinsert⟩ := mem_filterMap.mp hmem
  have hbound := (planned_keyed h).2 _ hkeyed
  cases place with
  | kept | rewritten => cases hinsert
  | added raw entry =>
    obtain rfl := Option.some.inj hinsert
    simp only at hbound ⊢
    omega

omit h

/-- The lines of the pass hold the wanted entries in order. -/
theorem entriesOf_merged (hreads : Reads doc.classify parseEntry render wanted)
    (h : Planned doc wanted parseEntry render opensSection plan places) (hone : AtMostOne plan) :
    entriesOf parseEntry (merged doc plan) = wanted := by
  obtain ⟨hsorted, hbounds⟩ := planned_keyed h
  have hfits := planned_fits hreads h
  have hinsert : plan.insert.insertionSort (fun a b => a.1 ≤ b.1) =
      (keyed doc.lines opensSection places none).filterMap insertOf := by
    rw [h.insert]
    exact List.Pairwise.insertionSort_eq (insertOf_sorted hsorted)
  have hrow : ∀ row, entriesOf parseEntry (fresh doc.classify (dominantEnding doc.lines)
      (((keyed doc.lines opensSection places none).filterMap insertOf).filter
        (fun x => decide (x.1 = row)))) =
      ((keyed doc.lines opensSection places none).filter
        (fun x => decide (x.1 = 2 * row))).map (fun x => x.2.entry) := by
    intro row
    apply entriesOf_fresh _ hfits _ (fun n => decide (n = row)) (fun n => decide (n = 2 * row))
    · intro x hmem hnone
      have := (hfits x hmem).new hnone
      apply decide_eq_decide.mpr
      omega
    · intro x hmem other hsome
      have := (hfits x hmem).row other hsome
      apply decide_eq_false
      omega
  have hlast : entriesOf parseEntry (fresh doc.classify (dominantEnding doc.lines)
      (((keyed doc.lines opensSection places none).filterMap insertOf).filter
        (fun x => decide (0 + doc.lines.length ≤ x.1)))) =
      ((keyed doc.lines opensSection places none).filter
        (fun x => decide (x.1 = 2 * (0 + doc.lines.length)))).map (fun x => x.2.entry) := by
    apply entriesOf_fresh _ hfits _ (fun n => decide (0 + doc.lines.length ≤ n))
      (fun n => decide (n = 2 * (0 + doc.lines.length)))
    · intro x hmem hnone
      have := (hfits x hmem).new hnone
      have := hbounds x hmem
      apply decide_eq_decide.mpr
      omega
    · intro x hmem other hsome
      have := (hfits x hmem).row other hsome
      apply decide_eq_false
      omega
  have hgroups := map_eq_groups (fun x : Nat × Placement T => x.2.entry) doc.lines 0
    (keyed doc.lines opensSection places none) hsorted (fun x hmem => by
      have := hbounds x hmem
      omega)
  have hwanted : (keyed doc.lines opensSection places none).map (fun x => x.2.entry) = wanted := by
    rw [← h.entries]
    conv_rhs => rw [← keyed_places doc.lines opensSection places none]
    rw [List.map_map]
    rfl
  rw [merged, merge_eq _ _ _ (sorted_of_atMostOne hone), hinsert, entriesOf, List.filterMap_append,
    List.filterMap_flatMap, ← hwanted, hgroups]
  congr 1
  apply List.flatMap_congr
  rintro ⟨line, row⟩ hmem
  have hline : doc.lines[row]? = some line := List.mk_mem_zipIdx_iff_getElem?.mp hmem
  rw [atRow, List.filterMap_append]
  exact congrArg₂ _ (hrow row) (entriesOf_settled hreads h hline _)

end Settled

section Ok

variable {T : Type} {render : T → Except EditError Text} {wanted : List T}

/-- Text without a line feed, a carriage return or a NUL. -/
def Plain (raw : Text) : Prop := '\n' ∉ raw ∧ '\r' ∉ raw ∧ '\x00' ∉ raw

theorem checkRaw_of_plain {raw : Text} (h : Plain raw) : checkRaw raw = .ok () := by
  unfold checkRaw
  rw [if_neg]
  rw [List.any_eq_true]
  intro ⟨c, hmem, hc⟩
  simp only [Bool.or_eq_true, beq_iff_eq] at hc
  rcases hc with (rfl | rfl) | rfl
  · exact h.1 hmem
  · exact h.2.1 hmem
  · exact h.2.2 hmem

/-- A wanted entry that renders as text that stays on its line. -/
def RendersPlain (render : T → Except EditError Text) (wanted : List T) : Prop :=
  ∀ entry ∈ wanted, ∃ raw, render entry = .ok raw ∧ Plain raw

theorem settleRun_ok (gone : List Nat) (inserted : List T) (plan : EntryPlan) (slots : List Slot)
    (h : RendersPlain render inserted) :
    ∃ result, settleRun render gone inserted plan slots = .ok result := by
  induction inserted generalizing gone plan slots with
  | nil => exact ⟨_, rfl⟩
  | cons entry inserted ih =>
    obtain ⟨raw, hraw, hplain⟩ := h entry (by simp)
    have hrest : RendersPlain render inserted := fun other hmem => h other (by simp [hmem])
    rw [settleRun, hraw]
    simp only [bind, Except.bind, checkRaw_of_plain hplain]
    cases gone with
    | nil | cons => exact ih _ _ _ hrest

theorem settleSteps_ok (rows : List Nat) (steps : List Step) (deleted : List Nat)
    (inserted : List T) (plan : EntryPlan) (slots : List Slot) (h : RendersPlain render wanted)
    (hinserted : ∀ entry ∈ inserted, entry ∈ wanted) :
    ∃ result, settleSteps rows wanted render steps deleted inserted plan slots = .ok result := by
  induction steps generalizing deleted inserted plan slots with
  | nil => exact settleRun_ok _ _ _ _ (fun entry hmem => h entry (hinserted entry hmem))
  | cons step steps ih =>
    cases step with
    | delete old => exact ih _ _ _ _ hinserted
    | insert new =>
      refine ih _ _ _ _ (fun entry hmem => ?_)
      rcases List.mem_append.mp hmem with hmem | hmem
      · exact hinserted entry hmem
      · exact List.mem_of_getElem? (Option.mem_toList.mp hmem)
    | equal old new =>
      obtain ⟨⟨plan₁, slots₁⟩, hrun⟩ := settleRun_ok deleted inserted plan slots
        (fun entry hmem => h entry (hinserted entry hmem))
      rw [settleSteps, hrun]
      exact ih _ _ _ _ (by simp)

theorem planEntries_ok [DecidableEq T] (doc : Document) (parseEntry : Text → Option T)
    (opensSection : Text → Bool) (h : RendersPlain render wanted) :
    ∃ plan, doc.planEntries wanted parseEntry render opensSection = .ok plan := by
  obtain ⟨⟨plan, slots⟩, hsteps⟩ := settleSteps_ok ((entryRows doc.lines parseEntry).map (·.1))
    (Source.Align.alignOrReplace ((entryRows doc.lines parseEntry).map (·.2)) wanted) [] [] {} [] h
    (by simp)
  refine ⟨{ plan with insert := placeSlots doc.lines opensSection slots none plan.insert }, ?_⟩
  simp only [Document.planEntries, hsteps]
  rfl

end Ok

/-- The last steps of `apply_plan` change no entry of the lines of the pass. -/
theorem entriesOf_applyPlan {T : Type} {parseEntry : Text → Option T} (src : Text)
    (classify : Text → LineKind) {plan : EntryPlan} (hclean : CleanPlan plan)
    (hcr : ∀ raw, parseEntry (raw ++ ['\r']) = parseEntry raw)
    (hempty : ¬ (classify [] = .directive ∧ (parseEntry []).isSome)) :
    entriesOf parseEntry ((parse src classify).applyPlan plan).1.lines =
      entriesOf parseEntry (merged (parse src classify) plan) := by
  obtain ⟨hshape, _⟩ := (canonical_iff _).mp (parse_canonical src classify)
  have hsound : ∀ line ∈ merged (parse src classify) plan,
      Sound (parse src classify).classify line :=
    fun line hmem => merged_sound hshape hclean hmem
  rw [applyPlan_lines]
  show entriesOf parseEntry (normalize _) = _
  by_cases hun : endsUnterminated (parse src classify).lines = true
  · rw [if_pos hun, entriesOf_normalize _ hcr hempty, entriesOf_setLastEnding]
    exact (edited_setLastEnding hsound (fun line hmem =>
      (mem_merged hclean ((List.dropLast_sublist _).mem hmem)).1)).sound
  · rw [if_neg hun, entriesOf_normalize hsound hcr hempty]

/-- The entries of a parsed text become what is wanted, whatever the length of the
edit: the call succeeds when the rendered texts stay on their lines, and wherever
it succeeds the entries read back in order are the wanted ones. -/
theorem editEntries_exact {T : Type} [DecidableEq T] (src : Text) (classify : Text → LineKind)
    (wanted : List T) (parseEntry : Text → Option T) (render : T → Except EditError Text)
    (opensSection : Text → Bool) (hrender : Renders classify parseEntry render wanted)
    (hcr : ∀ raw, classify (raw ++ ['\r']) = classify raw ∧
      parseEntry (raw ++ ['\r']) = parseEntry raw)
    (hempty : ¬ (classify [] = .directive ∧ (parseEntry []).isSome)) :
    (RendersPlain render wanted → ∃ result,
      (parse src classify).editEntries wanted parseEntry render opensSection = .ok result) ∧
    ∀ doc report,
      (parse src classify).editEntries wanted parseEntry render opensSection = .ok (doc, report) →
        entriesOf parseEntry doc.lines = wanted := by
  constructor
  · intro hplain
    obtain ⟨plan, hplan⟩ := planEntries_ok (parse src classify) parseEntry opensSection hplain
    refine ⟨(parse src classify).applyPlan plan, ?_⟩
    rw [Document.editEntries, hplan]
    rfl
  · intro doc report h
    obtain ⟨plan, hplan, happly⟩ := ok_of_bind h
    have hdoc : ((parse src classify).applyPlan plan).1 = doc :=
      congrArg Prod.fst (Except.ok.inj happly)
    obtain ⟨places, hplanned⟩ := planEntries_spec hplan
    rw [← hdoc, entriesOf_applyPlan src classify (planEntries_clean hplan) (fun raw => (hcr raw).2)
      hempty]
    exact entriesOf_merged hrender.reads hplanned (planEntries_atMostOne hplan)

namespace Sample

/-- One letter a line; blank lines and lines of several letters are no entries. -/
def classify (raw : Text) : LineKind :=
  if (raw.filter (fun c => decide (c ≠ '\r'))).length = 1 then .directive else .blank

def parseEntry (raw : Text) : Option Char := (raw.filter (fun c => decide (c ≠ '\r'))).head?

def render (entry : Char) : Except EditError Text := .ok [entry]

/-- Every line is an entry, and only `f` is a false one. -/
def everyLine (_ : Text) : LineKind := .directive

def parseFlag (raw : Text) : Option Bool :=
  some (decide (raw.filter (fun c => decide (c ≠ '\r')) ≠ ['f']))

def renderFlag (flag : Bool) : Except EditError Text := .ok (if flag then ['t'] else ['f'])

end Sample

/-- Keep `a`, write `c` over `b`, add `d`. -/
theorem letters_edited : (((parse ['a', '\n', '\n', 'b', '\r'] Sample.classify).editEntries
      ['a', 'c', 'd'] Sample.parseEntry Sample.render (fun _ => false)).toOption.map
        (fun result => entriesOf Sample.parseEntry result.1.lines)) = some ['a', 'c', 'd'] := by
  have hexact := editEntries_exact ['a', '\n', '\n', 'b', '\r'] Sample.classify ['a', 'c', 'd']
    Sample.parseEntry Sample.render (fun _ => false)
    (fun entry hmem => ⟨[entry], rfl, by simp, by
      simp only [mem_cons, List.not_mem_nil, or_false] at hmem
      rcases hmem with rfl | rfl | rfl <;> exact ⟨by decide, by decide⟩⟩)
    (fun raw => by simp [Sample.classify, Sample.parseEntry])
    (by decide)
  obtain ⟨result, hresult⟩ := hexact.1 (fun entry hmem => ⟨[entry], rfl, by
    simp only [mem_cons, List.not_mem_nil, or_false] at hmem
    rcases hmem with rfl | rfl | rfl <;> exact ⟨by decide, by decide, by decide⟩⟩)
  rw [hresult]
  exact congrArg some (hexact.2 result.1 result.2 hresult)

/-- Where the empty text is an entry, removing the unterminated line after it
drops it as well. -/
theorem empty_entry_dropped :
    ¬ ∀ (src : Text) (classify : Text → LineKind) (wanted : List Bool)
      (parseEntry : Text → Option Bool) (render : Bool → Except EditError Text)
      (opensSection : Text → Bool), Renders classify parseEntry render wanted →
      (∀ raw, classify (raw ++ ['\r']) = classify raw ∧
        parseEntry (raw ++ ['\r']) = parseEntry raw) →
      ∀ doc report,
        (parse src classify).editEntries wanted parseEntry render opensSection = .ok (doc, report) →
          entriesOf parseEntry doc.lines = wanted := by
  intro hall
  have hread := hall ['\n', 'f'] Sample.everyLine [true] Sample.parseFlag Sample.renderFlag
    (fun _ => false)
    (fun entry hmem => ⟨['t'], by rw [List.mem_singleton.mp hmem]; rfl, by simp, rfl,
      by rw [List.mem_singleton.mp hmem]; decide⟩)
    (fun raw => by simp [Sample.everyLine, Sample.parseFlag])
    ⟨[], Sample.everyLine⟩ ⟨0, 0, 1⟩ (by rfl)
  simp [entriesOf] at hread

end Detent.Guarantees.EntryEdits
