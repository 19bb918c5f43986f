import Detent.Guarantees.EntryEdits
import Detent.Guarantees.ShortestScripts

/-!
# Edits touch only entries

The lines that `edit_entries` leaves are the old ones in their order, those of removed
entries apart, with the new ones between them. Each is a piece: a line that stays, a line
rewritten in place, or a new line.
-/
namespace Detent.Guarantees.EntryFrames
open Lib Lib.Text Source.Align Source.Doc
open DocShape PlanMerge EntryPlans
open CanonicalDocuments EntryEdits
open ShortestScripts
open List (Forall₂ append_assoc append_nil cons.inj filterMap_append map_append map_id mem_filter
  mem_map mem_singleton)

/-! ## Pieces -/

/-- Where a line of the new document comes from; a line that holds a wanted entry has it. -/
inductive Piece (T : Type) where
  | stays (row : Nat) (line : Line) (entry : Option T)
  | rewrites (row : Nat) (line : Line) (raw : Text) (entry : T)
  | adds (raw : Text) (entry : T)

namespace Piece
variable {T : Type}

def text : Piece T → Text
  | .stays _ line _ => line.raw
  | .rewrites _ _ raw _ => raw
  | .adds raw _ => raw

/-- The old line with its row. -/
def origin : Piece T → Option (Line × Nat)
  | .stays row line _ => some (line, row)
  | .rewrites row line _ _ => some (line, row)
  | .adds _ _ => none

def entry : Piece T → Option T
  | .stays _ _ entry => entry
  | .rewrites _ _ _ entry => some entry
  | .adds _ entry => some entry

/-- The text written over an old line. -/
def rewriting : Piece T → Option Text
  | .stays _ _ _ => none
  | .rewrites _ _ raw _ => some raw
  | .adds _ _ => none

/-- The text of a new line. -/
def adding : Piece T → Option Text
  | .stays _ _ _ => none
  | .rewrites _ _ _ _ => none
  | .adds raw _ => some raw

/-- The line as the one pass over the document leaves it. -/
def line (classify : Text → LineKind) (dominant : LineEnding) : Piece T → Line
  | .stays _ line _ => terminated dominant line
  | .rewrites _ line raw _ => terminated dominant (rewritten classify line (some raw))
  | .adds raw _ => newLine classify raw dominant

theorem raw_line (classify : Text → LineKind) (dominant : LineEnding) (piece : Piece T) :
    (piece.line classify dominant).raw = piece.text := by
  have hterminated : ∀ line : Line, (terminated dominant line).raw = line.raw := by
    intro line
    unfold terminated
    split <;> rfl
  cases piece with
  | stays row line entry => exact hterminated line
  | rewrites row line raw entry => exact hterminated _
  | adds raw entry => rfl

end Piece

variable {row : Nat} {line : Line} {raw : Text}

section Build
variable {T : Type}

/-- The piece of a place; the line is that of its row. -/
def pieceOf (line : Line) : Placement T → Piece T
  | .kept row entry => .stays row line (some entry)
  | .rewritten row raw entry => .rewrites row line raw entry
  | .added raw entry => .adds raw entry

theorem pieceOf_entry (line : Line) (place : Placement T) :
    (pieceOf line place).entry = some place.entry := by
  cases place with
  | kept | rewritten | added => rfl

/-- A line that no place needs. -/
def noLine : Line := ⟨.blank, [], .none, ⟨0, 0⟩⟩

/-- The pieces of the new lines before a row. -/
def newPieces (V : List (Nat × Placement T)) (row : Nat) : List (Piece T) :=
  (V.filter (fun x => decide (x.1 = 2 * row))).map (fun x => pieceOf noLine x.2)

/-- The pieces of a row itself. -/
def rowPieces (V : List (Nat × Placement T)) (remove : List Nat) (row : Nat) (line : Line) :
    List (Piece T) :=
  if row ∈ remove then []
  else
    match V.filter (fun x => decide (x.1 = 2 * row + 1)) with
    | [] => [.stays row line none]
    | x :: _ => [pieceOf line x.2]

/-- The pieces from a row on. -/
def piecesFrom (V : List (Nat × Placement T)) (remove : List Nat) : Nat → List Line → List (Piece T)
  | row, [] => newPieces V row
  | row, line :: lines =>
    newPieces V row ++ (rowPieces V remove row line ++ piecesFrom V remove (row + 1) lines)

variable {V : List (Nat × Placement T)} {remove : List Nat}

theorem rowPieces_removed (h : row ∈ remove) : rowPieces V remove row line = [] := if_pos h

theorem rowPieces_empty (h : row ∉ remove)
    (hgroup : V.filter (fun x => decide (x.1 = 2 * row + 1)) = []) :
    rowPieces V remove row line = [.stays row line none] := by
  rw [rowPieces, if_neg h, hgroup]

theorem rowPieces_placed {x : Nat × Placement T} (h : row ∉ remove)
    (hgroup : V.filter (fun x => decide (x.1 = 2 * row + 1)) = [x]) :
    rowPieces V remove row line = [pieceOf line x.2] := by
  rw [rowPieces, if_neg h, hgroup]

/-- What is made of each row and of the end, is made of the pieces. -/
theorem piecesFrom_map {β : Type} {f : Piece T → β} {g : Line × Nat → List β} {last : List β}
    (lines : List Line)
    (hrow : ∀ entry ∈ lines.zipIdx row,
      g entry = (newPieces V entry.2 ++ rowPieces V remove entry.2 entry.1).map f)
    (hlast : last = (newPieces V (row + lines.length)).map f) :
    (lines.zipIdx row).flatMap g ++ last = (piecesFrom V remove row lines).map f := by
  induction lines generalizing row with
  | nil => exact hlast
  | cons line lines ih =>
    have hfirst := hrow (line, row) (by simp)
    have hrest := @ih (row + 1) (fun entry hmem => hrow entry (by simp [hmem])) (by
      rw [hlast, List.length_cons]
      congr 2
      omega)
    rw [List.zipIdx_cons, List.flatMap_cons, append_assoc, hrest, hfirst, piecesFrom]
    simp

/-- The pieces of the new lines at a place are those lines. -/
theorem fresh_pieces (hkeyed : ∀ x ∈ V, Keyed x) (classify : Text → LineKind)
    (dominant : LineEnding) (p : Nat → Bool) (q : Nat → Bool)
    (heven : ∀ x ∈ V, x.2.row = none → q x.1 = p (x.1 / 2))
    (hodd : ∀ x ∈ V, ∀ row, x.2.row = some row → q x.1 = false) :
    fresh classify dominant ((V.filterMap insertOf).filter (fun x => p x.1)) =
      ((V.filter (fun x => q x.1)).map (fun x => pieceOf noLine x.2)).map
        (Piece.line classify dominant) := by
  induction V with
  | nil => rfl
  | cons head V ih =>
    have hrest := ih (fun x hmem => hkeyed x (by simp [hmem]))
      (fun x hmem => heven x (by simp [hmem])) (fun x hmem => hodd x (by simp [hmem]))
    have heven' := heven head (by simp)
    have hodd' := hodd head (by simp)
    obtain ⟨key, place⟩ := head
    cases place with
    | kept row entry | rewritten row raw entry =>
      rw [List.filterMap_cons_none rfl, hrest, List.filter_cons_of_neg (by simp [hodd' row rfl])]
    | added raw entry =>
      have hinsert : insertOf (key, Placement.added raw entry) = some (key / 2, raw) := rfl
      have hq : q key = p (key / 2) := heven' rfl
      rw [List.filterMap_cons_some hinsert]
      by_cases hp : p (key / 2) = true
      · rw [List.filter_cons_of_pos (by simpa using hp),
          List.filter_cons_of_pos (by simpa [hq] using hp), List.map_cons, List.map_cons, ← hrest]
        rfl
      · rw [List.filter_cons_of_neg (by simpa using hp),
          List.filter_cons_of_neg (by simpa [hq] using hp)]
        exact hrest

theorem piecesFrom_eq (V : List (Nat × Placement T)) (remove : List Nat) (row : Nat)
    (lines : List Line) :
    piecesFrom V remove row lines =
      (lines.zipIdx row).flatMap
          (fun place => newPieces V place.2 ++ rowPieces V remove place.2 place.1) ++
        newPieces V (row + lines.length) := by
  have hmap : (lines.zipIdx row).flatMap
      (fun place => newPieces V place.2 ++ rowPieces V remove place.2 place.1) ++
        newPieces V (row + lines.length) = (piecesFrom V remove row lines).map id :=
    piecesFrom_map lines (fun place _ => (map_id _).symm) (map_id _).symm
  rw [hmap, map_id]

/-- What is read off the places in order, is read off the pieces. -/
theorem piecesFrom_filterMap {β : Type} {f : Piece T → Option β} {g : Placement T → Option β}
    (hplace : ∀ line place, f (pieceOf line place) = g place)
    (hstays : ∀ row line, f (.stays row line none) = none) (lines : List Line) (row : Nat)
    (hsorted : V.Pairwise (fun a b => a.1 ≤ b.1))
    (hbounds : ∀ x ∈ V, 2 * row ≤ x.1 ∧ x.1 ≤ 2 * (row + lines.length))
    (hone : ∀ other, V.filter (fun x => decide (x.1 = 2 * other + 1)) = [] ∨
      other ∉ remove ∧ ∃ x, V.filter (fun x => decide (x.1 = 2 * other + 1)) = [x]) :
    (piecesFrom V remove row lines).filterMap f = V.filterMap (fun x => g x.2) := by
  have hnew : ∀ other, (newPieces V other).filterMap f =
      (V.filter (fun x => decide (x.1 = 2 * other))).filterMap (fun x => g x.2) := by
    intro other
    rw [newPieces, List.filterMap_map]
    apply List.filterMap_congr
    intro x _
    exact hplace noLine x.2
  have hrow : ∀ other line, (rowPieces V remove other line).filterMap f =
      (V.filter (fun x => decide (x.1 = 2 * other + 1))).filterMap (fun x => g x.2) := by
    intro other line
    by_cases hremove : other ∈ remove
    · rcases hone other with hnone | ⟨hleft, -⟩
      · rw [rowPieces_removed hremove, hnone]
        rfl
      · exact absurd hremove hleft
    · rcases hone other with hnone | ⟨-, x, hx⟩
      · rw [rowPieces_empty hremove hnone, hnone, List.filterMap_cons_none (hstays other line)]
        rfl
      · rw [rowPieces_placed hremove hx, hx]
        simp only [List.filterMap_cons, hplace, List.filterMap_nil]
  have hgroups := map_eq_groups (fun x : Nat × Placement T => x) lines row V hsorted hbounds
  simp only [List.map_id'] at hgroups
  conv_rhs => rw [hgroups]
  rw [piecesFrom_eq, filterMap_append, filterMap_append, hnew, List.filterMap_flatMap,
    List.filterMap_flatMap]
  congr 1
  apply List.flatMap_congr
  intro place _
  rw [filterMap_append, filterMap_append, hnew, hrow]

/-- A line added to the pieces stands in the group of a row, after the lines added before it. -/
theorem piecesFrom_split {lines : List Line} {front back : List (Piece T)} {entry : T}
    (hadds : ∀ other line, .adds raw entry ∉ rowPieces V remove other line)
    (h : piecesFrom V remove row lines = front ++ .adds raw entry :: back) :
    ∃ n first x rest, n ≤ lines.length ∧
      V.filter (fun x => decide (x.1 = 2 * (row + n))) = first ++ x :: rest ∧
      pieceOf noLine x.2 = .adds raw entry ∧
      front = ((lines.take n).zipIdx row).flatMap
        (fun place => newPieces V place.2 ++ rowPieces V remove place.2 place.1) ++
          first.map (fun x => pieceOf noLine x.2) := by
  have hgroup : ∀ other (front' back' : List (Piece T)),
      newPieces V other = front' ++ .adds raw entry :: back' →
        ∃ first x rest, V.filter (fun x => decide (x.1 = 2 * other)) = first ++ x :: rest ∧
          pieceOf noLine x.2 = .adds raw entry ∧ front' = first.map (fun x => pieceOf noLine x.2) := by
    intro other front' back' hsplit
    obtain ⟨first, last, hfilter, hfirst, hlast⟩ := List.map_eq_append_iff.mp hsplit
    obtain ⟨x, rest, rfl, hx, -⟩ := List.map_eq_cons_iff.mp hlast
    exact ⟨first, x, rest, hfilter, hx, hfirst.symm⟩
  induction lines generalizing row front with
  | nil =>
    obtain ⟨first, x, rest, hfilter, hx, hfront⟩ := hgroup row front back h
    exact ⟨0, first, x, rest, Nat.le_refl 0, hfilter, hx, hfront⟩
  | cons line lines ih =>
    rw [piecesFrom, ← append_assoc] at h
    rcases item_of_append h with ⟨more, hfirst, -⟩ | ⟨more, hfront, hlater⟩
    · rcases item_of_append hfirst with ⟨more, hnew, -⟩ | ⟨more, -, hown⟩
      · obtain ⟨first, x, rest, hfilter, hx, hfront⟩ := hgroup row front more hnew
        exact ⟨0, first, x, rest, Nat.zero_le _, hfilter, hx, hfront⟩
      · exact absurd (by rw [hown]; simp) (hadds row line)
    · -- among the later rows
      obtain ⟨n, first, x, rest, hn, hfilter, hx, hmore⟩ := ih hlater
      refine ⟨n + 1, first, x, rest, by simpa using hn, ?_, hx, ?_⟩
      · rw [← hfilter, show row + (n + 1) = row + 1 + n by omega]
      · rw [hfront, hmore, List.take_succ_cons, List.zipIdx_cons, List.flatMap_cons]
        simp only [append_assoc]

end Build

section Next
variable {T : Type} {lines : List Line} {opensSection : Text → Bool}

theorem keyed_first {places : List (Placement T)} {start key : Nat} {entry : T}
    {rest : List (Nat × Placement T)} (hopens : opensSection raw = false)
    (h : keyed lines opensSection places (some start) = (key, .added raw entry) :: rest) :
    key = 2 * start := by
  cases places with
  | nil => cases h
  | cons head places =>
    cases head with
    | kept | rewritten =>
      obtain ⟨hhead, -⟩ := cons.inj h
      cases hhead
    | added raw' other =>
      obtain ⟨hhead, -⟩ := cons.inj h
      simp only [Prod.mk.injEq, Placement.added.injEq] at hhead
      obtain ⟨hkey, rfl, -⟩ := hhead
      rw [← hkey, here]
      simp [hopens]

/-- A new line that opens no section goes right after the place before it. -/
theorem keyed_next (places : List (Placement T)) (place : Option Nat)
    {before rest : List (Nat × Placement T)} {y : Nat × Placement T} {key : Nat} {entry : T}
    (hopens : opensSection raw = false)
    (h : keyed lines opensSection places place = before ++ y :: (key, .added raw entry) :: rest) :
    key = y.1 + y.1 % 2 := by
  induction places generalizing place before with
  | nil => simp [keyed] at h
  | cons head places ih =>
    cases before with
    | nil =>
      cases head with
      | kept | rewritten | added =>
        obtain ⟨rfl, htail⟩ := cons.inj h
        have := keyed_first hopens htail
        simp only
        omega
    | cons first before =>
      cases head with
      | kept | rewritten | added => exact ih _ (cons.inj h).2

end Next

section Planned
variable {T : Type} [DecidableEq T] {doc : Document} {wanted : List T} {parse : Text → Option T}
  {render : T → Except EditError Text} {opensSection : Text → Bool} {plan : EntryPlan}
  {places : List (Placement T)}

/-- The pieces of a planned edit. -/
def pieces (doc : Document) (opensSection : Text → Bool) (plan : EntryPlan)
    (places : List (Placement T)) : List (Piece T) :=
  piecesFrom (keyed doc.lines opensSection places none) plan.remove 0 doc.lines

variable (h : Planned doc wanted parse render opensSection plan places)
include h

theorem keyed_nodup :
    ((keyed doc.lines opensSection places none).filterMap (fun x => x.2.row)).Nodup := by
  rw [keyed_rows]
  exact (List.nodup_append.mp (planned_nodup h)).1

/-- A row that is left has one piece: the place on it, or the line as it was. -/
theorem rowPieces_cases (hline : doc.lines[row]? = some line) (hremove : row ∉ plan.remove) :
    (∃ entry, .kept row entry ∈ places ∧ entryOf parse line = some entry ∧
        rowPieces (keyed doc.lines opensSection places none) plan.remove row line =
          [.stays row line (some entry)]) ∨
      (∃ raw entry, .rewritten row raw entry ∈ places ∧ (entryOf parse line).isSome = true ∧
        rowPieces (keyed doc.lines opensSection places none) plan.remove row line =
          [.rewrites row line raw entry]) ∨
      (row ∉ places.filterMap Placement.row ∧ entryOf parse line = none ∧
        rowPieces (keyed doc.lines opensSection places none) plan.remove row line =
          [.stays row line none]) := by
  have hkeyed := keyed_all doc.lines opensSection places none
  by_cases hin : row ∈ places.filterMap Placement.row
  · obtain ⟨place, hplace, hrow⟩ := List.mem_filterMap.mp hin
    obtain ⟨x, hx, rfl⟩ := exists_keyed doc opensSection hplace
    have hpiece : rowPieces (keyed doc.lines opensSection places none) plan.remove row line =
        [pieceOf line x.2] :=
      rowPieces_placed hremove (group_row hkeyed (keyed_nodup h) hx hrow)
    have hfound : row ∈ (entryRows doc.lines parse).map (·.1) := by
      rw [← h.all.mem_iff]
      exact List.mem_append_left _ hin
    obtain ⟨⟨_, entry⟩, hentryRow, rfl⟩ := mem_map.mp hfound
    obtain ⟨line', hline', hentry⟩ := mem_entryRows.mp hentryRow
    obtain rfl : line' = line := Option.some.inj (hline'.symm.trans hline)
    have hgood := h.good x.2 hplace
    cases hplaced : x.2 with
    | added raw entry =>
      rw [hplaced] at hrow
      cases hrow
    | rewritten row' raw entry' =>
      rw [hplaced] at hplace hrow hpiece
      obtain rfl := Option.some.inj hrow
      exact .inr (.inl ⟨raw, entry', hplace, by rw [hentry]; rfl, hpiece⟩)
    | kept row' entry' =>
      rw [hplaced] at hplace hrow hpiece hgood
      obtain rfl := Option.some.inj hrow
      obtain ⟨other, hother, hsame⟩ := mem_entryRows.mp hgood
      obtain rfl : other = line' := Option.some.inj (hother.symm.trans hline)
      exact .inl ⟨entry', hplace, hsame, hpiece⟩
  · have hgroup := group_empty hkeyed (by rwa [keyed_rows] :
      row ∉ (keyed doc.lines opensSection places none).filterMap (fun x => x.2.row))
    exact .inr (.inr ⟨hin, entryOf_unplaced h hline hremove hin, rowPieces_empty hremove hgroup⟩)

theorem settled_pieces (hline : doc.lines[row]? = some line) (dominant : LineEnding) :
    settled doc.classify dominant (plan.replace.insertionSort (fun a b => a.1 ≤ b.1))
        (plan.remove.insertionSort (· ≤ ·)) line row =
      (rowPieces (keyed doc.lines opensSection places none) plan.remove row line).map
        (Piece.line doc.classify dominant) := by
  unfold settled
  by_cases hremove : row ∈ plan.remove
  · rw [if_pos (by rwa [List.mem_insertionSort]), rowPieces_removed hremove]
    rfl
  · rw [if_neg (by rwa [List.mem_insertionSort])]
    rcases rowPieces_cases h hline hremove with ⟨entry, hplace, -, hpiece⟩ |
      ⟨raw, entry, hplace, -, hpiece⟩ | ⟨hin, -, hpiece⟩
    · rw [hpiece, lookup_kept h hplace]
      rfl
    · rw [hpiece, lookup_rewritten h hplace]
      rfl
    · rw [hpiece, lookup_unplaced h hin]
      rfl

/-- **The pass.** The lines of the pass are the pieces. -/
theorem merged_pieces (hone : AtMostOne plan) :
    merged doc plan = (pieces doc opensSection plan places).map
      (Piece.line doc.classify (dominantEnding doc.lines)) := by
  obtain ⟨hsorted, hbounds⟩ := planned_keyed h
  have hkeyed := keyed_all doc.lines opensSection places none
  have hinsert : plan.insert.insertionSort (fun a b => a.1 ≤ b.1) =
      (keyed doc.lines opensSection places none).filterMap insertOf := by
    rw [h.insert]
    exact List.Pairwise.insertionSort_eq (insertOf_sorted hsorted)
  rw [merged, merge_eq _ _ _ (sorted_of_atMostOne hone), hinsert, pieces]
  apply piecesFrom_map
  · rintro ⟨line, row⟩ hmem
    have hline : doc.lines[row]? = some line := List.mk_mem_zipIdx_iff_getElem?.mp hmem
    rw [atRow, map_append, settled_pieces h hline]
    congr 1
    apply fresh_pieces hkeyed _ _ (fun n => decide (n = row)) (fun n => decide (n = 2 * row))
    · intro x hx hnone
      have := (hkeyed x hx).new hnone
      apply decide_eq_decide.mpr
      omega
    · intro x hx other hsome
      have := (hkeyed x hx).row other hsome
      apply decide_eq_false
      omega
  · apply fresh_pieces hkeyed _ _ (fun n => decide (0 + doc.lines.length ≤ n))
      (fun n => decide (n = 2 * (0 + doc.lines.length)))
    · intro x hx hnone
      have := (hkeyed x hx).new hnone
      have := hbounds x hx
      apply decide_eq_decide.mpr
      omega
    · intro x hx other hsome
      have := (hkeyed x hx).row other hsome
      apply decide_eq_false
      omega

/-- Each row has at most one place, and then it is left. -/
theorem row_group (row : Nat) :
    (keyed doc.lines opensSection places none).filter (fun x => decide (x.1 = 2 * row + 1)) = [] ∨
      row ∉ plan.remove ∧ ∃ x,
        (keyed doc.lines opensSection places none).filter (fun x => decide (x.1 = 2 * row + 1)) = [x] := by
  have hkeyed := keyed_all doc.lines opensSection places none
  by_cases hin : row ∈ places.filterMap Placement.row
  · obtain ⟨place, hplace, hrow⟩ := List.mem_filterMap.mp hin
    obtain ⟨x, hx, rfl⟩ := exists_keyed doc opensSection hplace
    have hapart := (List.nodup_append.mp (planned_nodup h)).2.2
    exact .inr ⟨fun hremove => hapart row hin row hremove rfl, x,
      group_row hkeyed (keyed_nodup h) hx hrow⟩
  · exact .inl (group_empty hkeyed (by rwa [keyed_rows]))

theorem pieces_filterMap {β : Type} {f : Piece T → Option β} {g : Placement T → Option β}
    (hplace : ∀ line place, f (pieceOf line place) = g place)
    (hstays : ∀ row line, f (.stays row line none) = none) :
    (pieces doc opensSection plan places).filterMap f = places.filterMap g := by
  obtain ⟨hsorted, hbounds⟩ := planned_keyed h
  conv_rhs => rw [← keyed_places doc.lines opensSection places none, List.filterMap_map]
  apply piecesFrom_filterMap hplace hstays _ _ hsorted
  · intro x hmem
    have := hbounds x hmem
    omega
  · exact row_group h

theorem pieces_entries : (pieces doc opensSection plan places).filterMap Piece.entry = wanted := by
  have hentries : (pieces doc opensSection plan places).filterMap Piece.entry =
      places.filterMap (fun place => some place.entry) := by
    apply pieces_filterMap h
    · intro line place
      cases place with
      | kept | rewritten | added => rfl
    · exact fun _ _ => rfl
  rw [hentries, List.filterMap_eq_map', h.entries]

/-- The pieces written over old lines, and the new ones, are those of the plan. -/
theorem pieces_counts :
    ((pieces doc opensSection plan places).filterMap Piece.rewriting).length = plan.replace.length ∧
      ((pieces doc opensSection plan places).filterMap Piece.adding).length =
        plan.insert.length := by
  constructor
  · have hrewriting : (pieces doc opensSection plan places).filterMap Piece.rewriting =
        places.filterMap (fun place => place.rewrite.map (·.2)) := by
      apply pieces_filterMap h
      · intro line place
        cases place with
        | kept | rewritten | added => rfl
      · exact fun _ _ => rfl
    rw [hrewriting, h.replace, ← List.map_filterMap, List.length_map]
  · have hadding : (pieces doc opensSection plan places).filterMap Piece.adding =
        places.filterMap (fun place => (insertOf (0, place)).map (·.2)) := by
      apply pieces_filterMap h
      · intro line place
        cases place with
        | kept | rewritten | added => rfl
      · exact fun _ _ => rfl
    have hinsert : (plan.insert).map (·.2) =
        places.filterMap (fun place => (insertOf (0, place)).map (·.2)) := by
      rw [h.insert, List.map_filterMap]
      conv_rhs => rw [← keyed_places doc.lines opensSection places none, List.filterMap_map]
      apply List.filterMap_congr
      intro ⟨key, place⟩ _
      cases place with
      | kept | rewritten | added => rfl
    rw [hadding, ← hinsert, List.length_map]

omit h

omit [DecidableEq T] in
theorem newPieces_added {piece : Piece T}
    (hmem : piece ∈ newPieces (keyed doc.lines opensSection places none) row) :
    ∃ raw entry, .added raw entry ∈ places ∧ piece = .adds raw entry := by
  obtain ⟨x, hx, rfl⟩ := mem_map.mp hmem
  obtain ⟨hkeyed, hkey⟩ := mem_filter.mp hx
  have heven := of_decide_eq_true hkey
  have hplace : x.2 ∈ places := by
    rw [← keyed_places doc.lines opensSection places none]
    exact List.mem_map_of_mem hkeyed
  have hrow := (keyed_all doc.lines opensSection places none x hkeyed).row
  cases hx2 : x.2 with
  | kept other entry | rewritten other raw entry =>
    have := hrow other (by rw [hx2]; rfl)
    omega
  | added raw entry => exact ⟨raw, entry, hx2 ▸ hplace, rfl⟩

variable (h : Planned doc wanted parse render opensSection plan places)
include h

/-- Of the old lines those that are not removed are left, in order. -/
theorem pieces_origins :
    (pieces doc opensSection plan places).filterMap Piece.origin =
      doc.lines.zipIdx.filter (fun place => decide (place.2 ∉ plan.remove)) := by
  have hnew : ∀ row,
      (newPieces (keyed doc.lines opensSection places none) row).filterMap Piece.origin = [] := by
    intro row
    apply List.filterMap_eq_nil_iff.mpr
    intro piece hmem
    obtain ⟨raw, entry, -, rfl⟩ := newPieces_added hmem
    rfl
  rw [pieces, piecesFrom_eq, filterMap_append, hnew, append_nil, List.filterMap_flatMap,
    ← List.filterMap_eq_filter, List.filterMap_eq_flatMap_toList]
  apply List.flatMap_congr
  intro ⟨line, row⟩ hmem
  have hline : doc.lines[row]? = some line := List.mk_mem_zipIdx_iff_getElem?.mp hmem
  rw [filterMap_append, hnew, List.nil_append]
  by_cases hremove : row ∈ plan.remove
  · rw [rowPieces_removed hremove]
    simp [Option.guard, hremove]
  · rcases rowPieces_cases h hline hremove with ⟨entry, -, -, hpiece⟩ |
      ⟨raw, entry, -, -, hpiece⟩ | ⟨-, -, hpiece⟩
    all_goals
      rw [hpiece]
      simp [Piece.origin, Option.guard, hremove]

/-- Every piece is a place on its line, a new line, or a line without an entry. -/
theorem piece_cases {piece : Piece T} (hmem : piece ∈ pieces doc opensSection plan places) :
    (∃ raw entry, .added raw entry ∈ places ∧ piece = .adds raw entry) ∨
      ∃ row line, doc.lines[row]? = some line ∧
        ((∃ entry, entryOf parse line = some entry ∧ piece = .stays row line (some entry)) ∨
          (∃ raw entry, .rewritten row raw entry ∈ places ∧ (entryOf parse line).isSome = true ∧
            piece = .rewrites row line raw entry) ∨
          (entryOf parse line = none ∧ piece = .stays row line none)) := by
  rw [pieces, piecesFrom_eq] at hmem
  rcases List.mem_append.mp hmem with hmem | hmem
  · obtain ⟨⟨line, row⟩, hzip, hin⟩ := List.mem_flatMap.mp hmem
    have hline : doc.lines[row]? = some line := List.mk_mem_zipIdx_iff_getElem?.mp hzip
    rcases List.mem_append.mp hin with hin | hin
    · exact .inl (newPieces_added hin)
    · have hleft : row ∉ plan.remove := by
        intro hremove
        rw [rowPieces_removed hremove] at hin
        cases hin
      refine .inr ⟨row, line, hline, ?_⟩
      rcases rowPieces_cases h hline hleft with ⟨entry, -, hentry, hpiece⟩ |
        ⟨raw, entry, hplace, hentry, hpiece⟩ | ⟨-, hentry, hpiece⟩
      · rw [hpiece] at hin
        exact .inl ⟨entry, hentry, mem_singleton.mp hin⟩
      · rw [hpiece] at hin
        exact .inr (.inl ⟨raw, entry, hplace, hentry, mem_singleton.mp hin⟩)
      · rw [hpiece] at hin
        exact .inr (.inr ⟨hentry, mem_singleton.mp hin⟩)
  · exact .inl (newPieces_added hmem)

/-- A line that stays says what entry it holds, if any. -/
theorem stays_entry {held : Option T}
    (hmem : .stays row line held ∈ pieces doc opensSection plan places) :
    doc.lines[row]? = some line ∧ entryOf parse line = held := by
  rcases piece_cases h hmem with ⟨raw, entry, -, heq⟩ | ⟨other, old, hold, hrest⟩
  · cases heq
  · rcases hrest with ⟨entry, hentry, heq⟩ | ⟨raw, entry, -, -, heq⟩ | ⟨hentry, heq⟩
    · cases heq
      exact ⟨hold, hentry⟩
    · cases heq
    · cases heq
      exact ⟨hold, hentry⟩

/-- A line that is rewritten held an entry, and its new text is a wanted one rendered. -/
theorem rewrites_entry {entry : T}
    (hmem : .rewrites row line raw entry ∈ pieces doc opensSection plan places) :
    doc.lines[row]? = some line ∧ (entryOf parse line).isSome = true ∧
      render entry = .ok raw ∧ checkRaw raw = .ok () := by
  rcases piece_cases h hmem with ⟨raw', entry', -, heq⟩ | ⟨other, old, hold, hrest⟩
  · cases heq
  · rcases hrest with ⟨entry', -, heq⟩ | ⟨raw', entry', hplace, hentry, heq⟩ | ⟨-, heq⟩
    · cases heq
    · cases heq
      exact ⟨hold, hentry, h.good _ hplace⟩
    · cases heq

theorem adds_entry {entry : T} (hmem : .adds raw entry ∈ pieces doc opensSection plan places) :
    render entry = .ok raw ∧ checkRaw raw = .ok () := by
  rcases piece_cases h hmem with ⟨raw', entry', hplace, heq⟩ | ⟨other, old, -, hrest⟩
  · cases heq
    exact h.good _ hplace
  · rcases hrest with ⟨entry', -, heq⟩ | ⟨raw', entry', -, -, heq⟩ | ⟨-, heq⟩
    all_goals cases heq

theorem kept_piece {entry : T} (hplace : .kept row entry ∈ places) :
    ∃ line, .stays row line (some entry) ∈ pieces doc opensSection plan places := by
  obtain ⟨line, hline, hentry⟩ := mem_entryRows.mp (h.good _ hplace)
  have hin : row ∈ places.filterMap Placement.row := List.mem_filterMap.mpr ⟨_, hplace, rfl⟩
  have hremove : row ∉ plan.remove := fun hremove =>
    (List.nodup_append.mp (planned_nodup h)).2.2 row hin row hremove rfl
  have hpiece : rowPieces (keyed doc.lines opensSection places none) plan.remove row line =
      [.stays row line (some entry)] := by
    rcases rowPieces_cases h hline hremove with ⟨entry', -, hentry', hpiece⟩ |
      ⟨raw, entry', hother, -, -⟩ | ⟨hnone, -, -⟩
    · rw [hpiece, Option.some.inj (hentry.symm.trans hentry')]
    · cases place_unique h hplace hother rfl rfl
    · exact absurd hin hnone
  refine ⟨line, ?_⟩
  rw [pieces, piecesFrom_eq]
  refine List.mem_append_left _ (List.mem_flatMap.mpr ⟨(line, row), ?_, ?_⟩)
  · exact List.mk_mem_zipIdx_iff_getElem?.mpr hline
  · rw [hpiece]
    simp

/-- The piece of a row is not a new line, and holds an entry only where a place is on it. -/
theorem rowPieces_entry {piece : Piece T}
    (hmem : piece ∈ rowPieces (keyed doc.lines opensSection places none) plan.remove row line) :
    piece.adding = none ∧ (piece.entry.isSome = true →
      ∃ x ∈ keyed doc.lines opensSection places none, x.1 = 2 * row + 1) := by
  have hkeyed := keyed_all doc.lines opensSection places none
  by_cases hremove : row ∈ plan.remove
  · rw [rowPieces_removed hremove] at hmem
    cases hmem
  · rcases row_group h row with hnone | ⟨-, x, hx⟩
    · rw [rowPieces_empty hremove hnone, mem_singleton] at hmem
      rw [hmem]
      exact ⟨rfl, nofun⟩
    · rw [rowPieces_placed hremove hx, mem_singleton] at hmem
      have hin : x ∈ (keyed doc.lines opensSection places none).filter
          (fun x => decide (x.1 = 2 * row + 1)) := by
        rw [hx]
        exact List.mem_singleton_self x
      obtain ⟨hin, hkey⟩ := mem_filter.mp hin
      have hkey' := of_decide_eq_true hkey
      refine ⟨?_, fun _ => ⟨x, hin, hkey'⟩⟩
      have hrow := (hkeyed x hin).row_of_key hkey'
      rw [hmem]
      cases hplace : x.2 with
      | kept | rewritten => rfl
      | added raw entry =>
        rw [hplace] at hrow
        cases hrow

/-- The pieces before a row hold an entry only where a place comes before it. -/
theorem entry_before {n : Nat}
    (hentry : (((doc.lines.take n).zipIdx 0).flatMap (fun place =>
      newPieces (keyed doc.lines opensSection places none) place.2 ++
        rowPieces (keyed doc.lines opensSection places none) plan.remove place.2 place.1)).filterMap
          Piece.entry ≠ []) : ∃ x ∈ keyed doc.lines opensSection places none, x.1 < 2 * n := by
  obtain ⟨entry, hin⟩ := List.exists_mem_of_ne_nil _ hentry
  obtain ⟨piece, hpiece, hsome⟩ := List.mem_filterMap.mp hin
  obtain ⟨⟨line, row⟩, hplace, hmem⟩ := List.mem_flatMap.mp hpiece
  have hrow : row < n := by
    have hline := (List.getElem?_eq_some_iff.mp (List.mk_mem_zipIdx_iff_getElem?.mp hplace)).1
    rw [List.length_take] at hline
    omega
  rcases List.mem_append.mp hmem with hmem | hmem
  · obtain ⟨x, hx, -⟩ := mem_map.mp hmem
    obtain ⟨hkeyed, hkey⟩ := mem_filter.mp hx
    have hkey' := of_decide_eq_true hkey
    exact ⟨x, hkeyed, by omega⟩
  · obtain ⟨x, hkeyed, hkey⟩ := (rowPieces_entry h hmem).2 (by rw [hsome]; rfl)
    exact ⟨x, hkeyed, by omega⟩

/-- **Adjacency.** A new line that opens no section follows the line of the entry before. -/
theorem adds_follows {front back : List (Piece T)} {entry : T}
    (hsplit : pieces doc opensSection plan places = front ++ .adds raw entry :: back)
    (hopens : opensSection raw = false) (hbefore : front.filterMap Piece.entry ≠ []) :
    ∃ piece, front.getLast? = some piece ∧ piece.entry.isSome = true := by
  obtain ⟨hsorted, -⟩ := planned_keyed h
  have hkeyed := keyed_all doc.lines opensSection places none
  obtain ⟨n, first, ⟨key, place⟩, rest, hn, hfilter, hx, hfront⟩ := piecesFrom_split
    (fun other line hmem => by have := (rowPieces_entry h hmem).1; cases this) hsplit
  rw [Nat.zero_add] at hfilter
  rcases List.eq_nil_or_concat first with rfl | ⟨init, last, rfl⟩
  · -- the first new line at its place: the place before it is on the row above
    rw [List.map_nil, append_nil] at hfront
    obtain ⟨x, hin, hlt⟩ := entry_before h (hfront ▸ hbefore)
    have hadded : place = .added raw entry := by
      cases place with
      | kept | rewritten => cases hx
      | added raw' other =>
        cases hx
        rfl
    have hlow : (keyed doc.lines opensSection places none).filter
        (fun x => decide (x.1 < 2 * n)) ≠ [] :=
      List.ne_nil_of_mem (mem_filter.mpr ⟨hin, decide_eq_true hlt⟩)
    obtain ⟨init, y, hinit⟩ := (List.eq_nil_or_concat _).resolve_left hlow
    have hall := split_at_group hsorted (2 * n)
    rw [hfilter, hinit, hadded, List.concat_eq_append, append_assoc] at hall
    have hnext := keyed_next places none hopens hall
    have hy : y ∈ (keyed doc.lines opensSection places none).filter
        (fun x => decide (x.1 < 2 * n)) := by
      rw [hinit, List.concat_eq_append]
      exact List.mem_append_right _ (List.mem_singleton_self y)
    obtain ⟨hyin, hylow⟩ := mem_filter.mp hy
    have hkey : key = 2 * n := by
      have hin : (key, place) ∈ (keyed doc.lines opensSection places none).filter
          (fun x => decide (x.1 = 2 * n)) := by
        rw [hfilter]
        exact List.mem_cons_self
      exact of_decide_eq_true (mem_filter.mp hin).2
    have hylow' := of_decide_eq_true hylow
    obtain ⟨row, rfl⟩ : ∃ row, n = row + 1 := ⟨n - 1, by omega⟩
    have hrow := (hkeyed y hyin).row_of_key (show y.1 = 2 * row + 1 by omega)
    have hgroup := group_row hkeyed (keyed_nodup h) hyin hrow
    have hleft : row ∉ plan.remove := by
      rcases row_group h row with hnone | ⟨hleft, -⟩
      · rw [hgroup] at hnone
        cases hnone
      · exact hleft
    have hline := List.getElem?_eq_getElem (show row < doc.lines.length by omega)
    refine ⟨pieceOf doc.lines[row] y.2, ?_, by rw [pieceOf_entry]; rfl⟩
    rw [hfront, List.take_add_one, hline, Option.toList_some, List.zipIdx_append,
      List.flatMap_append, List.length_take, Nat.min_eq_left (by omega)]
    simp only [List.zipIdx_cons, List.zipIdx_nil, List.flatMap_cons, List.flatMap_nil,
      append_nil, Nat.zero_add, rowPieces_placed hleft hgroup]
    rw [← append_assoc, List.getLast?_concat]
  · refine ⟨pieceOf noLine last.2, ?_, by rw [pieceOf_entry]; rfl⟩
    rw [hfront, List.concat_eq_append, map_append, List.map_singleton, ← append_assoc,
      List.getLast?_concat]

omit h

end Planned

section Shown
variable {T : Type} {doc : Document}

/-- The carriage return of the old last line, which had no terminator, is in its terminator
now that a line follows it. -/
structure MovesCr (doc : Document) (all : List (Piece T)) (piece : Piece T) (line : Line) : Prop where
  hanging : ∃ row old held, piece = .stays row old held ∧ Hanging doc old
  followed : ∃ front next back, all = front ++ piece :: next :: back
  text : piece.text = line.raw ++ ['\r']
  ending : line.ending = .crLf

/-- A line of the edited document has the text of its piece. -/
def Shows (doc : Document) (all : List (Piece T)) (piece : Piece T) (line : Line) : Prop :=
  line.raw = piece.text ∨ MovesCr doc all piece line

theorem shows_respan {all shown : List (Piece T)} {lines : List Line}
    (h : Forall₂ (Shows doc all) shown lines) (offset : Nat) :
    Forall₂ (Shows doc all) shown (respan offset lines) := by
  induction h generalizing offset with
  | nil => exact .nil
  | cons hline _ ih =>
    refine .cons ?_ (ih _)
    rcases hline with hraw | hmoves
    · exact .inl hraw
    · exact .inr ⟨hmoves.hanging, hmoves.followed, hmoves.text, hmoves.ending⟩

end Shown

section Lines
variable {T : Type} [DecidableEq T] {doc : Document} {wanted : List T} {parse : Text → Option T}
  {render : T → Except EditError Text} {opensSection : Text → Bool} {plan : EntryPlan}
  {places : List (Placement T)}

/-- Only the old last line, when it had no terminator, can get an `Lf` after a carriage return. -/
theorem hanging_of_piece (hheld : Held doc.lines)
    (h : Planned doc wanted parse render opensSection plan places) {piece : Piece T}
    (hmem : piece ∈ pieces doc opensSection plan places)
    (hambiguous : Ambiguous (piece.line doc.classify (dominantEnding doc.lines))) :
    ∃ row old held, piece = .stays row old held ∧ Hanging doc old := by
  have hclean : ∀ {raw : Text}, checkRaw raw = .ok () → piece.text ≠ raw := by
    intro raw hcheck htext
    have hlast := hambiguous.2
    rw [Piece.raw_line, htext] at hlast
    exact (clean_of_checkRaw hcheck).2 (List.mem_of_getLast? hlast)
  cases piece with
  | stays row old held =>
    have hold := (stays_entry h hmem).1
    obtain ⟨hhanging, -⟩ := hanging_of_ambiguous hheld.clear hheld.ends
      (List.mem_of_getElem? hold) hambiguous
    exact ⟨row, old, held, rfl, hhanging⟩
  | rewrites row old raw entry => exact absurd rfl (hclean (rewrites_entry h hmem).2.2.2)
  | adds raw entry => exact absurd rfl (hclean (adds_entry h hmem).2)

theorem shows_moveCr (hheld : Held doc.lines)
    (h : Planned doc wanted parse render opensSection plan places) {piece : Piece T}
    (hmem : piece ∈ pieces doc opensSection plan places)
    (hfollowed : endsUnterminated doc.lines = true →
      ∃ front next back, pieces doc opensSection plan places = front ++ piece :: next :: back) :
    Shows doc (pieces doc opensSection plan places) piece
      (moveCr (piece.line doc.classify (dominantEnding doc.lines))) := by
  by_cases hambiguous : Ambiguous (piece.line doc.classify (dominantEnding doc.lines))
  · obtain ⟨row, old, held, hpiece, hhanging⟩ := hanging_of_piece hheld h hmem hambiguous
    have hun := (endsUnterminated_iff _).mpr ⟨old, hhanging.1, hhanging.2.1⟩
    have hmoved : moveCr (piece.line doc.classify (dominantEnding doc.lines)) = _ :=
      if_pos hambiguous
    obtain ⟨init, hraw⟩ := List.getLast?_eq_some_iff.mp hambiguous.2
    refine .inr ⟨⟨row, old, held, hpiece, hhanging⟩, hfollowed hun, ?_, by rw [hmoved]⟩
    rw [hmoved, ← Piece.raw_line doc.classify (dominantEnding doc.lines), hraw, List.dropLast_concat]
  · have hstay : moveCr (piece.line doc.classify (dominantEnding doc.lines)) = _ := if_neg hambiguous
    rw [hstay]
    exact .inl (Piece.raw_line _ _ piece)

/-- **The lines.** Every piece is a line of the edited document, but for an empty one that
comes last in a document without a final newline. -/
theorem pieces_shown (hheld : Held doc.lines)
    (h : Planned doc wanted parse render opensSection plan places) (hone : AtMostOne plan)
    (hclean : CleanPlan plan) :
    ∃ shown dropped, pieces doc opensSection plan places = shown ++ dropped ∧
      (dropped = [] ∨ endsUnterminated doc.lines = true ∧
        ∃ piece, dropped = [piece] ∧ piece.text = []) ∧
      Forall₂ (Shows doc (pieces doc opensSection plan places)) shown
        (doc.applyPlan plan).1.lines := by
  have hmerged := merged_pieces h hone
  have hends : ∀ line ∈ merged doc plan, line.ending ≠ .none :=
    fun line hmem => (mem_merged hclean hmem).1
  rw [applyPlan_lines]
  show ∃ shown dropped, _ ∧ _ ∧ Forall₂ _ shown (normalize _)
  have hmoved : ∀ shown : List (Piece T), (∀ piece ∈ shown, Shows doc
      (pieces doc opensSection plan places) piece
        (moveCr (piece.line doc.classify (dominantEnding doc.lines)))) →
      Forall₂ (Shows doc (pieces doc opensSection plan places)) shown
        ((shown.map (Piece.line doc.classify (dominantEnding doc.lines))).map moveCr) := by
    intro shown hshown
    rw [List.map_map, List.forall₂_map_right_iff, List.forall₂_same]
    exact hshown
  by_cases hun : endsUnterminated doc.lines = true
  · rw [if_pos hun]
    rcases List.eq_nil_or_concat (pieces doc opensSection plan places) with hnil | ⟨init, last, hall⟩
    · refine ⟨[], [], hnil, .inl rfl, ?_⟩
      rw [hmerged, hnil]
      exact .nil
    · rw [List.concat_eq_append] at hall
      have hinit : ∀ piece ∈ init, Shows doc (pieces doc opensSection plan places) piece
          (moveCr (piece.line doc.classify (dominantEnding doc.lines))) := by
        intro piece hmem
        apply shows_moveCr hheld h (by rw [hall]; exact List.mem_append_left _ hmem)
        intro _
        obtain ⟨front, back, rfl⟩ := List.append_of_mem hmem
        rw [hall]
        cases back with
        | nil => exact ⟨front, last, [], by simp⟩
        | cons next back => exact ⟨front, next, back ++ [last], by simp⟩
      have hlast : setLastEnding (merged doc plan) .none =
          init.map (Piece.line doc.classify (dominantEnding doc.lines)) ++
            [{ last.line doc.classify (dominantEnding doc.lines) with ending := .none }] := by
        rw [hmerged, hall, map_append, List.map_singleton,
          setLastEnding_eq List.getLast?_concat, List.dropLast_concat]
      have hstay : moveCr { last.line doc.classify (dominantEnding doc.lines) with
          ending := .none } = _ := if_neg (fun hlf => by cases hlf.1)
      rw [Source.Doc.normalize, hlast, map_append, List.map_singleton, hstay]
      by_cases hempty : last.text = []
      · refine ⟨init, [last], hall, .inr ⟨hun, last, rfl, hempty⟩, ?_⟩
        have hdrop : ∀ lines : List Line, dropEmptyLast (lines ++
            [{ last.line doc.classify (dominantEnding doc.lines) with ending := .none }]) = lines := by
          intro lines
          simp [dropEmptyLast, Piece.raw_line, hempty]
        rw [hdrop]
        exact shows_respan (hmoved init hinit) 0
      · refine ⟨init ++ [last], [], by rw [hall, append_nil], .inl rfl, ?_⟩
        rw [dropEmptyLast_eq (by simp [Piece.raw_line, hempty])]
        have hown : Shows doc (pieces doc opensSection plan places) last
            { last.line doc.classify (dominantEnding doc.lines) with ending := .none } :=
          .inl (Piece.raw_line _ _ last)
        exact shows_respan (List.rel_append (hmoved init hinit) (.cons hown .nil)) 0
  · rw [if_neg hun]
    refine ⟨pieces doc opensSection plan places, [], (append_nil _).symm, .inl rfl, ?_⟩
    have hdrop : dropEmptyLast ((merged doc plan).map moveCr) = (merged doc plan).map moveCr := by
      apply dropEmptyLast_eq
      intro line hline hempty
      obtain ⟨old, hold, rfl⟩ := mem_map.mp (List.mem_of_getLast? hline)
      exact hends old hold ((moveCr_ending_none old).mp hempty.1)
    rw [Source.Doc.normalize, hdrop, hmerged]
    exact shows_respan (hmoved _ (fun piece hmem =>
      shows_moveCr hheld h hmem (fun hcontra => absurd hcontra hun))) 0

end Lines

section Same
variable {T : Type} [DecidableEq T]

theorem placeSlots_lines (lines : List Line) (opensSection : Text → Bool) (rows : List Nat)
    (place : Option Nat) (insert : List (Nat × Text)) :
    placeSlots lines opensSection (rows.map Slot.line) place insert = insert := by
  induction rows generalizing place with
  | nil => rfl
  | cons row rows ih => exact ih _

omit [DecidableEq T] in
theorem settleSteps_equals (rows : List Nat) (wanted : List T) (render : T → Except EditError Text)
    (n i j : Nat) (plan : EntryPlan) (kept : List Nat) :
    ∃ kept' : List Nat, settleSteps rows wanted render (equals i j n) [] [] plan (kept.map Slot.line) =
      .ok (plan, kept'.map Slot.line) := by
  induction n generalizing i j kept with
  | zero => exact ⟨kept, by simp [equals, settleSteps, settleRun]; rfl⟩
  | succ n ih =>
    obtain ⟨kept', hrest⟩ := ih (i + 1) (j + 1) (kept ++ rows[i]?.toList)
    refine ⟨kept', ?_⟩
    rw [← hrest, equals, settleSteps]
    cases rows[i]? with
    | none | some => simp [settleRun, bind, Except.bind, pure, Except.pure]

theorem merge_nothing (classify : Text → LineKind) (dominant : LineEnding) (row : Nat)
    (lines : List Line) :
    merge classify dominant row lines [] [] [] = lines.map (terminated dominant) := by
  induction lines generalizing row with
  | nil => rfl
  | cons line lines ih =>
    rw [List.map_cons, ← ih (row + 1)]
    rfl

omit [DecidableEq T] in
theorem entriesOf_eq (lines : List Line) (parse : Text → Option T) :
    (entryRows lines parse).map (·.2) = entriesOf parse lines := by
  have hzip : lines = lines.zipIdx.map (·.1) := (List.zipIdx_map_fst 0 lines).symm
  conv_rhs => rw [hzip]
  rw [entryRows_eq, List.map_filterMap, entriesOf, List.filterMap_map]
  apply List.filterMap_congr
  intro place _
  cases h : entryOf parse place.1 with
  | none | some => simp [h]

/-- The end of a document that had no final newline is restored. -/
theorem unterminated_terminated {lines : List Line} (h : Ends lines) {dominant : LineEnding} :
    (if endsUnterminated lines then setLastEnding (lines.map (terminated dominant)) .none
      else lines.map (terminated dominant)) = lines := by
  have hsame : ∀ some : List Line, (∀ line ∈ some, line.ending ≠ .none) →
      some.map (terminated dominant) = some := by
    intro some hsome
    conv_rhs => rw [← map_id some]
    exact List.map_congr_left (fun line hmem => if_neg (hsome line hmem))
  by_cases hun : endsUnterminated lines = true
  · obtain ⟨last, hlast, hend⟩ := (endsUnterminated_iff lines).mp hun
    have hlines := dropLast_append_last hlast
    rw [if_pos hun, ← hlines, map_append, hsame _ h.before, List.map_singleton,
      setLastEnding_eq List.getLast?_concat, List.dropLast_concat, terminated, if_pos hend]
    simp [← hend]
  · rw [if_neg hun]
    exact hsame lines (terminated_of_ends h hun)

/-- **No change.** A document whose entries are the wanted ones stays as it is. -/
theorem editEntries_same {doc : Document} (hheld : Held doc.lines) (parse : Text → Option T)
    (render : T → Except EditError Text) (opensSection : Text → Bool) :
    doc.editEntries (entriesOf parse doc.lines) parse render opensSection = .ok (doc, ⟨0, 0, 0⟩) := by
  obtain ⟨kept, hsteps⟩ := settleSteps_equals ((entryRows doc.lines parse).map (·.1))
    (entriesOf parse doc.lines) render (entriesOf parse doc.lines).length 0 0 {} []
  have hplan : doc.planEntries (entriesOf parse doc.lines) parse render opensSection = .ok {} := by
    rw [List.map_nil] at hsteps
    simp only [Document.planEntries, entriesOf_eq, alignOrReplace_self, hsteps]
    simp [bind, Except.bind, pure, Except.pure, placeSlots_lines]
  have happly : doc.applyPlan {} = (doc, ⟨0, 0, 0⟩) := by
    have hmerged : merged doc {} = doc.lines.map (terminated (dominantEnding doc.lines)) :=
      merge_nothing _ _ 0 doc.lines
    have hlines := applyPlan_lines doc {}
    rw [hmerged, unterminated_terminated hheld.ends, hheld.normalize_eq] at hlines
    exact Prod.ext hlines rfl
  simp only [Document.editEntries, hplan]
  exact congrArg Except.ok happly

end Same

/-- What the pieces of an edit say of its report and of the new document. -/
structure Accounts {T : Type} [DecidableEq T] (doc : Document) (wanted : List T)
    (parse : Text → Option T) (render : T → Except EditError Text) (opensSection : Text → Bool)
    (doc' : Document) (report : EditReport) (removed : List Nat) (all : List (Piece T)) : Prop where
  origins : all.filterMap Piece.origin =
    doc.lines.zipIdx.filter (fun place => decide (place.2 ∉ removed))
  once : removed.Nodup
  gone : ∀ row ∈ removed,
    ∃ line, doc.lines[row]? = some line ∧ (entryOf parse line).isSome = true
  stays : ∀ row line held, .stays row line held ∈ all → entryOf parse line = held
  rewrites : ∀ row line raw entry, .rewrites row line raw entry ∈ all →
    (entryOf parse line).isSome = true ∧ render entry = .ok raw
  adds : ∀ raw entry, .adds raw entry ∈ all → render entry = .ok raw
  entries : all.filterMap Piece.entry = wanted
  kept : ∀ old new, .equal old new ∈ alignOrReplace (entriesOf parse doc.lines) wanted →
    ∃ row line entry, (entryRows doc.lines parse)[old]? = some (row, entry) ∧
      .stays row line (some entry) ∈ all
  follows : ∀ front raw entry back, all = front ++ .adds raw entry :: back →
    opensSection raw = false → front.filterMap Piece.entry ≠ [] →
      ∃ piece, front.getLast? = some piece ∧ piece.entry.isSome = true
  report : report = ⟨(all.filterMap Piece.rewriting).length, (all.filterMap Piece.adding).length,
    removed.length⟩
  shown : ∃ shown dropped, all = shown ++ dropped ∧
    (dropped = [] ∨ endsUnterminated doc.lines = true ∧
      ∃ piece, dropped = [piece] ∧ piece.text = []) ∧
    Forall₂ (Shows doc all) shown doc'.lines

theorem editEntries_accounts {T : Type} [DecidableEq T] {doc doc' : Document}
    (hheld : Held doc.lines) {wanted : List T} {parse : Text → Option T}
    {render : T → Except EditError Text} {opensSection : Text → Bool} {report : EditReport}
    (h : doc.editEntries wanted parse render opensSection = .ok (doc', report)) :
    ∃ removed all, Accounts doc wanted parse render opensSection doc' report removed all := by
  obtain ⟨plan, hplan, happly⟩ := ok_of_bind h
  obtain ⟨places, hplanned⟩ := planEntries_spec hplan
  have hresult : doc.applyPlan plan = (doc', report) := Except.ok.inj happly
  have hdoc : (doc.applyPlan plan).1 = doc' := congrArg Prod.fst hresult
  have hreport : (doc.applyPlan plan).2 = report := congrArg Prod.snd hresult
  obtain ⟨hreplaced, hinserted⟩ := pieces_counts hplanned
  refine ⟨plan.remove, pieces doc opensSection plan places, ?_⟩
  constructor
  case origins => exact pieces_origins hplanned
  case once => exact (List.nodup_append.mp (planned_nodup hplanned)).2.1
  case gone =>
    intro row hremove
    have hfound : row ∈ (entryRows doc.lines parse).map (·.1) := by
      rw [← hplanned.all.mem_iff]
      exact List.mem_append_right _ hremove
    obtain ⟨⟨_, entry⟩, hentryRow, rfl⟩ := mem_map.mp hfound
    obtain ⟨line, hline, hentry⟩ := mem_entryRows.mp hentryRow
    exact ⟨line, hline, by rw [hentry]; rfl⟩
  case stays => exact fun row line held hmem => (stays_entry hplanned hmem).2
  case rewrites =>
    intro row line raw entry hmem
    obtain ⟨-, hentry, hrender, -⟩ := rewrites_entry hplanned hmem
    exact ⟨hentry, hrender⟩
  case adds => exact fun raw entry hmem => (adds_entry hplanned hmem).1
  case entries => exact pieces_entries hplanned
  case kept =>
    intro old new hequal
    rw [← entriesOf_eq] at hequal
    obtain ⟨row, entry, hfound, hplace⟩ := hplanned.kept old new hequal
    obtain ⟨line, hmem⟩ := kept_piece hplanned hplace
    exact ⟨row, line, entry, hfound, hmem⟩
  case follows =>
    exact fun front raw entry back hsplit hopens hbefore =>
      adds_follows hplanned hsplit hopens hbefore
  case report => rw [hreplaced, hinserted, ← hreport]; rfl
  case shown =>
    rw [← hdoc]
    exact pieces_shown hheld hplanned (planEntries_atMostOne hplan) (planEntries_clean hplan)

/-- **Edits touch only entries.** Where the call succeeds on a document that calls can reach,
its lines are the old ones in order, but for removed and rewritten entries and new lines, as
reported; equal entries change nothing; and an error comes from the plan, which has changed
nothing yet. -/
theorem edits_touch_only_entries {T : Type} [DecidableEq T] (src : Text)
    (classify : Text → LineKind) (edits : List Edit) (doc : Document)
    (hrun : Run (Steps editStep) (parse src classify) edits doc) (wanted : List T)
    (parseEntry : Text → Option T) (render : T → Except EditError Text)
    (opensSection : Text → Bool) :
    (∀ doc' report, doc.editEntries wanted parseEntry render opensSection = .ok (doc', report) →
      ∃ removed all, Accounts doc wanted parseEntry render opensSection doc' report removed all) ∧
    (wanted = entriesOf parseEntry doc.lines →
      doc.editEntries wanted parseEntry render opensSection = .ok (doc, ⟨0, 0, 0⟩)) ∧
    ∀ error, doc.editEntries wanted parseEntry render opensSection = .error error ↔
      doc.planEntries wanted parseEntry render opensSection = .error error := by
  have hheld := reachable_held hrun
  refine ⟨fun doc' report h => editEntries_accounts hheld h, ?_, ?_⟩
  · rintro rfl
    exact editEntries_same hheld parseEntry render opensSection
  · intro error
    unfold Document.editEntries
    cases hplan : doc.planEntries wanted parseEntry render opensSection with
    | error other =>
      constructor
      all_goals
        intro h
        obtain rfl := Except.error.inj h
        rfl
    | ok plan =>
      constructor
      all_goals
        nofun

/-- The lines of a result say which it is: the classifier is that of the document. -/
theorem editEntries_of_lines {T : Type} [DecidableEq T] {doc : Document} {wanted : List T}
    {parse : Text → Option T} {render : T → Except EditError Text} {opensSection : Text → Bool}
    {lines : List Line} {report : EditReport}
    (h : (doc.editEntries wanted parse render opensSection).toOption.map
      (fun result => (result.1.lines, result.2)) = some (lines, report)) :
    doc.editEntries wanted parse render opensSection = .ok (⟨lines, doc.classify⟩, report) := by
  obtain ⟨result, hresult, hsame⟩ := Option.map_eq_some_iff.mp h
  have hok := eq_ok_of_toOption hresult
  obtain ⟨plan, -, happly⟩ := ok_of_bind hok
  obtain rfl := Except.ok.inj happly
  obtain ⟨rfl, rfl⟩ := Prod.mk.inj hsame
  exact hok

namespace Sample

/-- Every line is a comment. -/
def comments (_ : Text) : LineKind := .comment

def noEntry (_ : Text) : Option Char := none

def letter (entry : Char) : Except EditError Text := .ok [entry]

end Sample

theorem letters_accounted :
    ∃ removed all, Accounts (parse ['a', '\n', '\n', 'b', '\r'] EntryEdits.Sample.classify)
      ['a', 'c', 'd'] EntryEdits.Sample.parseEntry EntryEdits.Sample.render (fun _ => false)
      ⟨[⟨.directive, ['a'], .lf, ⟨0, 1⟩⟩, ⟨.blank, [], .lf, ⟨2, 2⟩⟩,
        ⟨.directive, ['c'], .lf, ⟨3, 4⟩⟩, ⟨.directive, ['d'], .none, ⟨5, 6⟩⟩],
          EntryEdits.Sample.classify⟩ ⟨1, 1, 0⟩ removed all :=
  (edits_touch_only_entries ['a', '\n', '\n', 'b', '\r'] EntryEdits.Sample.classify [] _ (.nil _)
    ['a', 'c', 'd'] EntryEdits.Sample.parseEntry EntryEdits.Sample.render (fun _ => false)).1 _ _
      (editEntries_of_lines (by decide +kernel))

/-- The text of a comment that ends the file loses its carriage return to the terminator. -/
theorem hanging_comment_loses_cr :
    ¬ ∀ (src : Text) (classify : Text → LineKind) (wanted : List Char)
      (parseEntry : Text → Option Char) (render : Char → Except EditError Text)
      (opensSection : Text → Bool) (doc' : Document) (report : EditReport),
      (parse src classify).editEntries wanted parseEntry render opensSection = .ok (doc', report) →
        ∀ line ∈ (parse src classify).lines, entryOf parseEntry line = none → line.raw ≠ [] →
          ∃ line' ∈ doc'.lines, line'.raw = line.raw := by
  intro hall
  have hkept := hall ['x', '\r'] Sample.comments ['n'] Sample.noEntry Sample.letter (fun _ => false)
    ⟨[⟨.comment, ['x'], .crLf, ⟨0, 1⟩⟩, ⟨.comment, ['n'], .none, ⟨3, 4⟩⟩], Sample.comments⟩
    ⟨0, 1, 0⟩ (editEntries_of_lines (by decide +kernel)) ⟨.comment, ['x', '\r'], .none, ⟨0, 2⟩⟩ (by decide +kernel) rfl (by simp)
  revert hkept
  decide
end Detent.Guarantees.EntryFrames
