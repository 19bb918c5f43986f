import Detent.Guarantees.Alignment
import Detent.Guarantees.PlanMerge
import Detent.Lib.Except

/-!
# The plan of an entry edit

`plan_entries` gives every wanted entry a place: the line of an equal entry, a
line it is written over, or a new line. The places run through the document in
order (`keyed_sorted`), and every entry line without a place is removed.
-/
namespace Detent.Guarantees.EntryPlans
open Lib Lib.Text Source.Align Source.Doc
open Guarantees.Alignment PlanMerge
open List (filterMap_append filterMap_cons_none map_append mem_cons pairwise_cons)

/-- Where a wanted entry goes. -/
inductive Placement (T : Type) where
  | kept (row : Nat) (entry : T)
  | rewritten (row : Nat) (raw : Text) (entry : T)
  | added (raw : Text) (entry : T)

namespace Placement

variable {T : Type}

def entry : Placement T → T
  | .kept _ entry => entry
  | .rewritten _ _ entry => entry
  | .added _ entry => entry

def row : Placement T → Option Nat
  | .kept row _ => some row
  | .rewritten row _ _ => some row
  | .added _ _ => none

def slot : Placement T → Slot
  | .kept row _ => .line row
  | .rewritten row _ _ => .line row
  | .added raw _ => .new raw

def rewrite : Placement T → Option (Nat × Text)
  | .kept _ _ => none
  | .rewritten row raw _ => some (row, raw)
  | .added _ _ => none

/-- A kept entry is the one on its line; any other is rendered and checked. -/
def Good (found : List (Nat × T)) (render : T → Except EditError Text) : Placement T → Prop
  | .kept row entry => (row, entry) ∈ found
  | .rewritten _ raw entry => render entry = .ok raw ∧ checkRaw raw = .ok ()
  | .added raw entry => render entry = .ok raw ∧ checkRaw raw = .ok ()

end Placement

variable {slots : List Slot}

section Settle

variable {T : Type} {found : List (Nat × T)} {render : T → Except EditError Text}
  {plan' : EntryPlan} {slots' : List Slot}

/-- One run of changes: its new entries take its deleted lines in order. -/
theorem settleRun_spec (found : List (Nat × T)) (gone : List Nat) (inserted : List T)
    (plan : EntryPlan) (slots : List Slot)
    (h : settleRun render gone inserted plan slots = .ok (plan', slots')) :
    ∃ places : List (Placement T),
      places.map Placement.entry = inserted ∧
      (∀ place ∈ places, place.Good found render) ∧
      places.filterMap Placement.row = gone.take inserted.length ∧
      slots' = slots ++ places.map Placement.slot ∧
      plan' = { plan with
        replace := plan.replace ++ places.filterMap Placement.rewrite
        remove := plan.remove ++ gone.drop inserted.length } := by
  induction inserted generalizing gone plan slots with
  | nil =>
    obtain ⟨rfl, rfl⟩ : _ = plan' ∧ slots = slots' := by
      simpa [settleRun, pure, Except.pure] using h
    exact ⟨[], rfl, by simp, by simp, by simp, by simp⟩
  | cons entry inserted ih =>
    rw [settleRun] at h
    obtain ⟨raw, hrender, h⟩ := ok_of_bind h
    obtain ⟨u, hcheck, h⟩ := ok_of_bind h
    cases gone with
    | nil =>
      obtain ⟨places, hentries, hgood, hrows, hslots, hplan⟩ := ih [] plan _ h
      refine ⟨.added raw entry :: places, by simp [hentries, Placement.entry], ?_, ?_, ?_, ?_⟩
      · intro place hmem
        rcases mem_cons.mp hmem with rfl | hmem
        · exact ⟨hrender, hcheck⟩
        · exact hgood place hmem
      · simpa [Placement.row] using hrows
      · simp [hslots, Placement.slot]
      · rw [filterMap_cons_none rfl]
        simpa using hplan
    | cons row gone =>
      obtain ⟨places, hentries, hgood, hrows, hslots, hplan⟩ :=
        ih gone { plan with replace := plan.replace ++ [(row, raw)] } _ h
      refine ⟨.rewritten row raw entry :: places, by simp [hentries, Placement.entry], ?_, ?_, ?_, ?_⟩
      · intro place hmem
        rcases mem_cons.mp hmem with rfl | hmem
        · exact ⟨hrender, hcheck⟩
        · exact hgood place hmem
      · simpa [Placement.row] using hrows
      · simp [hslots, Placement.slot]
      · simpa [Placement.rewrite] using hplan

/-- What the plan and the slots say once the first `i` old and `j` wanted entries
are settled. -/
structure Settled (found : List (Nat × T)) (wanted : List T) (render : T → Except EditError Text)
    (i j : Nat) (places : List (Placement T)) (plan : EntryPlan) (slots : List Slot) : Prop where
  entries : places.map Placement.entry = wanted.take j
  good : ∀ place ∈ places, place.Good found render
  rows : (places.filterMap Placement.row).Sublist ((found.map (·.1)).take i)
  all : (places.filterMap Placement.row ++ plan.remove).Perm ((found.map (·.1)).take i)
  slots : slots = places.map Placement.slot
  replace : plan.replace = places.filterMap Placement.rewrite
  insert : plan.insert = []

/-- Settling a run moves past its old and wanted entries. -/
theorem Settled.run {wanted : List T} {i j i' j' : Nat} {places : List (Placement T)}
    {plan : EntryPlan} (h : Settled found wanted render i j places plan slots) (hi : i ≤ i')
    (hj : j ≤ j')
    (hrun : settleRun render (((found.map (·.1)).drop i).take (i' - i))
      ((wanted.drop j).take (j' - j)) plan slots = .ok (plan', slots')) :
    ∃ more, Settled found wanted render i' j' (places ++ more) plan' slots' ∧
      more.filterMap Placement.row = ((((found.map (·.1)).drop i).take (i' - i)).take
        ((wanted.drop j).take (j' - j)).length) := by
  obtain ⟨more, hentries, hgood, hrows, hslots, hplan⟩ := settleRun_spec found _ _ _ _ hrun
  have htake : (found.map (·.1)).take i' =
      (found.map (·.1)).take i ++ ((found.map (·.1)).drop i).take (i' - i) := by
    rw [← List.take_add, show i + (i' - i) = i' by omega]
  refine ⟨more, ⟨?_, ?_, ?_, ?_, ?_, ?_, ?_⟩, hrows⟩
  · rw [map_append, h.entries, hentries, ← List.take_add, show j + (j' - j) = j' by omega]
  · intro place hmem
    rcases List.mem_append.mp hmem with hmem | hmem
    · exact h.good place hmem
    · exact hgood place hmem
  · rw [filterMap_append, htake, hrows]
    exact h.rows.append (List.take_sublist _ _)
  · rw [filterMap_append, hplan, htake, hrows]
    have hmove := List.perm_append_comm_assoc
      ((((found.map (·.1)).drop i).take (i' - i)).take ((wanted.drop j).take (j' - j)).length)
      plan.remove
      ((((found.map (·.1)).drop i).take (i' - i)).drop ((wanted.drop j).take (j' - j)).length)
    rw [List.take_append_drop] at hmove
    rw [List.append_assoc]
    refine (hmove.append_left _).trans ?_
    rw [← List.append_assoc]
    exact h.all.append_right _
  · rw [hslots, h.slots, map_append]
  · rw [hplan, filterMap_append, h.replace]
  · rw [hplan, h.insert]

theorem Settled.keep {wanted : List T} {i j : Nat} {places : List (Placement T)} {plan : EntryPlan}
    (h : Settled found wanted render i j places plan slots) {row : Nat} {entry : T}
    (hfound : found[i]? = some (row, entry)) (hwanted : wanted[j]? = some entry) :
    Settled found wanted render (i + 1) (j + 1) (places ++ [.kept row entry]) plan
      (slots ++ [.line row]) := by
  have hrow : (found.map (·.1))[i]? = some row := by simp [hfound]
  have htake : (found.map (·.1)).take (i + 1) = (found.map (·.1)).take i ++ [row] := by
    rw [List.take_add_one, hrow]
    rfl
  have hrows : (places ++ [Placement.kept row entry]).filterMap Placement.row =
      places.filterMap Placement.row ++ [row] := by
    rw [filterMap_append]
    rfl
  refine ⟨?_, ?_, ?_, ?_, ?_, ?_, h.insert⟩
  · rw [map_append, h.entries, List.take_add_one, hwanted]
    rfl
  · intro place hmem
    rcases List.mem_append.mp hmem with hmem | hmem
    · exact h.good place hmem
    · rw [List.mem_singleton.mp hmem]
      exact List.mem_of_getElem? hfound
  · rw [hrows, htake]
    exact h.rows.append (List.Sublist.refl _)
  · rw [hrows, htake]
    have hmove : (places.filterMap Placement.row ++ [row] ++ plan.remove).Perm
        (places.filterMap Placement.row ++ plan.remove ++ [row]) := by
      rw [List.append_assoc, List.append_assoc]
      exact List.Perm.append_left _ List.perm_append_comm
    exact hmove.trans (h.all.append_right _)
  · rw [h.slots, map_append]
    rfl
  · rw [h.replace, filterMap_append]
    exact (List.append_nil _).symm

theorem slice_snoc {α : Type} (xs : List α) {a b : Nat} {x : α} (hab : a ≤ b)
    (hx : xs[b]? = some x) :
    (xs.drop a).take (b + 1 - a) = (xs.drop a).take (b - a) ++ [x] := by
  rw [show b + 1 - a = b - a + 1 by omega, List.take_add_one, List.getElem?_drop,
    show a + (b - a) = b by omega, hx]
  rfl

/-- The whole loop over a script: every entry ends up settled, and where there are
old and wanted entries, one is on a line. `i` and `j` are the entries settled so
far, `k` and `l` those the script has passed; a run before the last one ends at an
entry that is kept. -/
theorem settleSteps_spec [DecidableEq T] {wanted : List T} (steps : List Step) {i j k l : Nat}
    (hpath : Path (found.map (·.2)) wanted k l steps found.length wanted.length) (hi : i ≤ k)
    (hj : j ≤ l) {places : List (Placement T)} {plan : EntryPlan}
    (h : Settled found wanted render i j places plan slots)
    (hplaced : (i = 0 ∧ j = 0) ∨ places.filterMap Placement.row ≠ [])
    (hsteps : settleSteps (found.map (·.1)) wanted render steps
      (((found.map (·.1)).drop i).take (k - i)) ((wanted.drop j).take (l - j)) plan slots =
        .ok (plan', slots')) :
    ∃ places', Settled found wanted render found.length wanted.length places' plan' slots' ∧
      (found ≠ [] → wanted ≠ [] → places'.filterMap Placement.row ≠ []) ∧
      (∀ place ∈ places, place ∈ places') ∧ ∀ old new, .equal old new ∈ steps →
        ∃ row entry, found[old]? = some (row, entry) ∧ .kept row entry ∈ places' := by
  induction steps generalizing i j k l places plan slots with
  | nil =>
    cases hpath
    obtain ⟨more, hsettled, hrows⟩ := h.run hi hj hsteps
    refine ⟨_, hsettled, fun hfound hwanted hnil => ?_,
      fun place hmem => List.mem_append_left _ hmem, nofun⟩
    rw [filterMap_append, List.append_eq_nil_iff, hrows] at hnil
    rcases hplaced with ⟨rfl, rfl⟩ | hplaced
    · have hlen := congrArg List.length hnil.2
      have := List.length_pos_iff.mpr hfound
      have := List.length_pos_iff.mpr hwanted
      simp only [List.length_take, List.length_drop, List.length_map, List.length_nil] at hlen
      omega
    · exact hplaced hnil.1
  | cons step steps ih =>
    cases hpath with
    | delete hold rest =>
      rw [List.length_map] at hold
      have hrow : (found.map (·.1))[k]? = some (found[k]).1 := by simp [hold]
      rw [settleSteps, hrow, Option.toList_some, ← slice_snoc _ hi hrow] at hsteps
      obtain ⟨places', hsettled, hrows, hmore, hkept⟩ := ih rest (by omega) hj h hplaced hsteps
      exact ⟨places', hsettled, hrows, hmore, fun old new hmem => hkept old new (by simpa using hmem)⟩
    | insert hnew rest =>
      have hentry := List.getElem?_eq_getElem hnew
      rw [settleSteps, hentry, Option.toList_some, ← slice_snoc _ hj hentry] at hsteps
      obtain ⟨places', hsettled, hrows, hmore, hkept⟩ := ih rest hi (by omega) h hplaced hsteps
      exact ⟨places', hsettled, hrows, hmore, fun old new hmem => hkept old new (by simpa using hmem)⟩
    | equal t hold hnew rest =>
      rw [settleSteps] at hsteps
      obtain ⟨⟨plan₁, slots₁⟩, hrun, hsteps⟩ := ok_of_bind hsteps
      obtain ⟨more, hsettled, _⟩ := h.run hi hj hrun
      rw [List.getElem?_map, Option.map_eq_some_iff] at hold
      obtain ⟨⟨row, entry⟩, hfound, rfl⟩ := hold
      have hrow : (found.map (·.1))[k]? = some row := by simp [hfound]
      have hnext := hsettled.keep hfound hnew
      rw [hrow] at hsteps
      have hsteps' : settleSteps (found.map (·.1)) wanted render steps
          (((found.map (·.1)).drop (k + 1)).take (k + 1 - (k + 1)))
          ((wanted.drop (l + 1)).take (l + 1 - (l + 1))) plan₁ (slots₁ ++ [.line row]) =
            .ok (plan', slots') := by
        rw [Nat.sub_self, Nat.sub_self, List.take_zero, List.take_zero]
        exact hsteps
      obtain ⟨places', hsettled', hrows, hmore, hkept⟩ := ih rest (Nat.le_refl _) (Nat.le_refl _)
        hnext (.inr (by simp [Placement.row])) hsteps'
      refine ⟨places', hsettled', hrows, fun place hmem => hmore place (by simp [hmem]), ?_⟩
      intro old new hmem
      rcases mem_cons.mp hmem with heq | hmem
      · obtain ⟨rfl, rfl⟩ := Step.equal.inj heq
        exact ⟨row, entry, hfound, hmore _ (by simp)⟩
      · exact hkept old new hmem

end Settle

section Rows

variable {T : Type}

/-- The entry on a line. -/
def entryOf (parse : Text → Option T) (line : Line) : Option T :=
  if line.kind = .directive then parse line.raw else none

theorem entryRows_eq (lines : List Line) (parse : Text → Option T) :
    entryRows lines parse = lines.zipIdx.filterMap
      (fun place => (entryOf parse place.1).map (fun entry => (place.2, entry))) := by
  apply List.filterMap_congr
  intro ⟨line, row⟩ _
  by_cases hkind : line.kind = .directive
  all_goals simp [entryOf, hkind]

theorem mem_entryRows {lines : List Line} {parse : Text → Option T} {row : Nat} {entry : T} :
    (row, entry) ∈ entryRows lines parse ↔
      ∃ line, lines[row]? = some line ∧ entryOf parse line = some entry := by
  rw [entryRows_eq, List.mem_filterMap]
  constructor
  · intro ⟨⟨line, row'⟩, hmem, hentry⟩
    obtain ⟨entry', hparse, hsame⟩ := Option.map_eq_some_iff.mp hentry
    obtain ⟨rfl, rfl⟩ := Prod.mk.inj hsame
    exact ⟨line, List.mk_mem_zipIdx_iff_getElem?.mp hmem, hparse⟩
  · intro ⟨line, hline, hparse⟩
    exact ⟨(line, row), List.mk_mem_zipIdx_iff_getElem?.mpr hline, by simp [hparse]⟩

theorem zipIdx_increasing {α : Type} (xs : List α) (n : Nat) :
    (xs.zipIdx n).Pairwise (fun a b => a.2 < b.2) := by
  induction xs generalizing n with
  | nil => exact List.Pairwise.nil
  | cons x xs ih =>
    rw [List.zipIdx_cons, pairwise_cons]
    refine ⟨fun entry hmem => ?_, ih (n + 1)⟩
    have := List.le_snd_of_mem_zipIdx hmem
    simp only
    omega

theorem entryRows_increasing (lines : List Line) (parse : Text → Option T) :
    ((entryRows lines parse).map (·.1)).Pairwise (· < ·) := by
  rw [entryRows_eq, List.pairwise_map]
  refine (zipIdx_increasing lines 0).filterMap _ (fun a b hab x hx y hy => ?_)
  obtain ⟨_, _, rfl⟩ := Option.map_eq_some_iff.mp hx
  obtain ⟨_, _, rfl⟩ := Option.map_eq_some_iff.mp hy
  exact hab

end Rows

section Places

variable (lines : List Line) (opensSection : Text → Bool)

theorem retreat_le (start stop : Nat) : retreat lines start stop ≤ stop := by
  induction stop with
  | zero => exact Nat.le_refl 0
  | succ stop ih =>
    rw [retreat]
    by_cases h : stop + 1 > start ∧
        lines[stop]?.any (fun line => line.kind == .blank || line.kind == .comment) = true
    · rw [if_pos h]
      omega
    · rw [if_neg h]

theorem le_retreat {start stop : Nat} (hle : start ≤ stop) : start ≤ retreat lines start stop := by
  induction stop with
  | zero => exact hle
  | succ stop ih =>
    rw [retreat]
    by_cases h : stop + 1 > start ∧
        lines[stop]?.any (fun line => line.kind == .blank || line.kind == .comment) = true
    · rw [if_pos h]
      exact ih (by omega)
    · rw [if_neg h]
      exact hle

theorem sectionEnd_eq (lines : List Line) (start limit : Nat) (opensSection : Text → Bool) :
    sectionEnd lines start limit opensSection = retreat lines start
      ((((lines.zipIdx.take limit).drop start).find?
        (fun entry => opensSection entry.1.raw)).elim limit (·.2)) :=
  rfl

/-- The end of a section lies between its start and the limit. -/
theorem sectionEnd_bounds {start limit : Nat} (hle : start ≤ limit) :
    start ≤ sectionEnd lines start limit opensSection ∧
      sectionEnd lines start limit opensSection ≤ limit := by
  rw [sectionEnd_eq]
  cases hfind : ((lines.zipIdx.take limit).drop start).find?
      (fun entry => opensSection entry.1.raw) with
  | none => exact ⟨le_retreat lines hle, retreat_le lines start limit⟩
  | some entry =>
    have hmem := List.mem_of_find?_eq_some hfind
    obtain ⟨n, hn, hget⟩ := List.getElem_of_mem hmem
    have hrow : entry.2 = start + n := by
      rw [← hget]
      simp
    have hlimit : start + n < limit := by
      simp at hn
      omega
    have hretreat := retreat_le lines start entry.2
    simp only [Option.elim_some]
    exact ⟨le_retreat lines (by omega), by omega⟩

/-- The place of a new line before `slots`. -/
def here (slots : List Slot) (place : Option Nat) (raw : Text) : Nat :=
  match place with
  | some start =>
    if opensSection raw then sectionEnd lines start ((nextRow slots).getD lines.length) opensSection
    else start
  | none => (nextRow slots).getD lines.length

variable {T : Type}

/-- The placements with keys that order them through the document: a place on row
`n` has the key `2 * n + 1`, a line before that row `2 * n`. -/
def keyed : List (Placement T) → Option Nat → List (Nat × Placement T)
  | [], _ => []
  | .kept row entry :: places, _ =>
    (2 * row + 1, .kept row entry) :: keyed places (some (row + 1))
  | .rewritten row raw entry :: places, _ =>
    (2 * row + 1, .rewritten row raw entry) :: keyed places (some (row + 1))
  | .added raw entry :: places, place =>
    (2 * here lines opensSection (places.map Placement.slot) place raw, .added raw entry) ::
      keyed places (some (here lines opensSection (places.map Placement.slot) place raw))

/-- The insert of a keyed placement. -/
def insertOf : Nat × Placement T → Option (Nat × Text)
  | (_, .kept _ _) => none
  | (_, .rewritten _ _ _) => none
  | (key, .added raw _) => some (key / 2, raw)

theorem placeSlots_eq (places : List (Placement T)) (place : Option Nat)
    (insert : List (Nat × Text)) :
    placeSlots lines opensSection (places.map Placement.slot) place insert =
      insert ++ (keyed lines opensSection places place).filterMap insertOf := by
  induction places generalizing place insert with
  | nil => exact (List.append_nil insert).symm
  | cons head places ih =>
    cases head with
    | kept | rewritten =>
      rw [keyed, filterMap_cons_none rfl, ← ih]
      rfl
    | added raw entry =>
      have hkey : insertOf (2 * here lines opensSection (places.map Placement.slot) place raw,
          Placement.added raw entry) =
            some (here lines opensSection (places.map Placement.slot) place raw, raw) := by
        simp [insertOf]
      rw [keyed, List.filterMap_cons_some hkey, List.append_cons, ← ih]
      rfl

theorem keyed_places (places : List (Placement T)) (place : Option Nat) :
    (keyed lines opensSection places place).map (·.2) = places := by
  induction places generalizing place with
  | nil => rfl
  | cons head places ih =>
    cases head with
    | kept | rewritten | added => rw [keyed, List.map_cons, ih]

theorem keyed_key (places : List (Placement T)) (place : Option Nat) :
    ∀ x ∈ keyed lines opensSection places place,
      (∀ row, x.2.row = some row → x.1 = 2 * row + 1) ∧ (x.2.row = none → x.1 % 2 = 0) := by
  induction places generalizing place with
  | nil => simp [keyed]
  | cons head places ih =>
    intro x hmem
    cases head with
    | kept | rewritten | added =>
      rcases mem_cons.mp hmem with rfl | hmem
      · simp [Placement.row]
      · exact ih _ x hmem

theorem nextRow_mem {places : List (Placement T)} {row : Nat}
    (h : nextRow (places.map Placement.slot) = some row) :
    row ∈ places.filterMap Placement.row := by
  induction places with
  | nil => cases h
  | cons head places ih =>
    cases head with
    | kept row' entry | rewritten row' raw entry =>
      obtain rfl : row' = row := Option.some.inj h
      simp [Placement.row]
    | added raw entry =>
      rw [filterMap_cons_none rfl]
      exact ih h

theorem nextRow_le {places : List (Placement T)}
    (hrows : (places.filterMap Placement.row).Pairwise (· < ·)) {limit : Nat}
    (hlimit : ∀ row ∈ places.filterMap Placement.row, row < limit) :
    (nextRow (places.map Placement.slot)).getD limit ≤ limit ∧
      ∀ row ∈ places.filterMap Placement.row,
        (nextRow (places.map Placement.slot)).getD limit ≤ row := by
  induction places with
  | nil => exact ⟨Nat.le_refl _, by simp⟩
  | cons head places ih =>
    cases hhead : head.row with
    | some row =>
      have hnext : nextRow ((head :: places).map Placement.slot) = some row := by
        cases head <;> simp_all [Placement.row, Placement.slot, nextRow]
      rw [List.filterMap_cons_some hhead] at hrows hlimit ⊢
      rw [hnext]
      refine ⟨Nat.le_of_lt (hlimit row (by simp)), fun other hmem => ?_⟩
      rcases mem_cons.mp hmem with rfl | hmem
      · exact Nat.le_refl _
      · exact Nat.le_of_lt ((pairwise_cons.mp hrows).1 other hmem)
    | none =>
      have hnext : nextRow ((head :: places).map Placement.slot) =
          nextRow (places.map Placement.slot) := by
        cases head <;> simp_all [Placement.row, Placement.slot, nextRow]
      rw [filterMap_cons_none hhead] at hrows hlimit ⊢
      rw [hnext]
      exact ih hrows hlimit

theorem here_bounds {place : Option Nat} (raw : Text)
    (hle : place.getD 0 ≤ (nextRow slots).getD lines.length) :
    place.getD 0 ≤ here lines opensSection slots place raw ∧
      here lines opensSection slots place raw ≤ (nextRow slots).getD lines.length := by
  unfold here
  cases place with
  | none => exact ⟨Nat.zero_le _, Nat.le_refl _⟩
  | some start =>
    by_cases hopens : opensSection raw = true
    · simp only [hopens, if_true]
      exact sectionEnd_bounds lines opensSection hle
    · simp only [hopens]
      exact ⟨Nat.le_refl _, hle⟩

/-- What a place on a row adds to the keys after it. -/
theorem keyed_sorted_row {rest : List (Nat × Placement T)} {low row : Nat} (head : Placement T)
    (hrow : low ≤ row) (hend : row < lines.length)
    (h : rest.Pairwise (fun a b => a.1 ≤ b.1) ∧
      ∀ x ∈ rest, 2 * (row + 1) ≤ x.1 ∧ x.1 ≤ 2 * lines.length) :
    ((2 * row + 1, head) :: rest).Pairwise (fun a b => a.1 ≤ b.1) ∧
      ∀ x ∈ (2 * row + 1, head) :: rest, 2 * low ≤ x.1 ∧ x.1 ≤ 2 * lines.length := by
  constructor
  · refine pairwise_cons.mpr ⟨fun x hmem => ?_, h.1⟩
    have := h.2 x hmem
    simp only
    omega
  · intro x hmem
    rcases mem_cons.mp hmem with rfl | hmem
    · simp only
      omega
    · have := h.2 x hmem
      omega

/-- The keys run through the document in order, from the current place to its end. -/
theorem keyed_sorted (places : List (Placement T)) (place : Option Nat)
    (hrows : (places.filterMap Placement.row).Pairwise (· < ·))
    (hfrom : ∀ row ∈ places.filterMap Placement.row, place.getD 0 ≤ row)
    (hlen : ∀ row ∈ places.filterMap Placement.row, row < lines.length)
    (hplace : place.getD 0 ≤ lines.length) :
    (keyed lines opensSection places place).Pairwise (fun a b => a.1 ≤ b.1) ∧
      ∀ x ∈ keyed lines opensSection places place,
        2 * place.getD 0 ≤ x.1 ∧ x.1 ≤ 2 * lines.length := by
  induction places generalizing place with
  | nil => exact ⟨List.Pairwise.nil, by simp [keyed]⟩
  | cons head places ih =>
    cases head with
    | kept row | rewritten row =>
      simp only [List.filterMap_cons, Placement.row] at hrows hfrom hlen
      have hpair := pairwise_cons.mp hrows
      have hend := hlen row (by simp)
      exact keyed_sorted_row lines _ (hfrom row (by simp)) hend
        (ih (some (row + 1)) hpair.2 hpair.1 (fun other hmem => hlen other (by simp [hmem])) hend)
    | added raw entry =>
      rw [filterMap_cons_none rfl] at hrows hfrom hlen
      obtain ⟨hlimit, hnext⟩ := nextRow_le hrows hlen
      have hle : place.getD 0 ≤ (nextRow (places.map Placement.slot)).getD lines.length := by
        cases hrow : nextRow (places.map Placement.slot) with
        | none => exact hplace
        | some row => exact hfrom row (nextRow_mem hrow)
      obtain ⟨hlow, hhigh⟩ := here_bounds lines opensSection raw hle
      obtain ⟨hsorted, hbounds⟩ :=
        ih (some (here lines opensSection (places.map Placement.slot) place raw)) hrows
        (fun row hmem => Nat.le_trans hhigh (hnext row hmem)) hlen (Nat.le_trans hhigh hlimit)
      simp only [Option.getD_some] at hbounds
      rw [keyed]
      constructor
      · refine pairwise_cons.mpr ⟨fun x hmem => ?_, hsorted⟩
        exact (hbounds x hmem).1
      · intro x hmem
        rcases mem_cons.mp hmem with rfl | hmem
        · simp only
          omega
        · have := hbounds x hmem
          omega

end Places

section Plan

variable {T : Type} [DecidableEq T] {doc : Document} {wanted : List T} {parse : Text → Option T}
  {render : T → Except EditError Text} {opensSection : Text → Bool} {plan : EntryPlan}

/-- The places that make up a plan. -/
structure Planned (doc : Document) (wanted : List T) (parse : Text → Option T)
    (render : T → Except EditError Text) (opensSection : Text → Bool) (plan : EntryPlan)
    (places : List (Placement T)) : Prop where
  entries : places.map Placement.entry = wanted
  good : ∀ place ∈ places, place.Good (entryRows doc.lines parse) render
  increasing : (places.filterMap Placement.row).Pairwise (· < ·)
  all : (places.filterMap Placement.row ++ plan.remove).Perm ((entryRows doc.lines parse).map (·.1))
  replace : plan.replace = places.filterMap Placement.rewrite
  insert : plan.insert = (keyed doc.lines opensSection places none).filterMap insertOf
  placed : entryRows doc.lines parse ≠ [] → wanted ≠ [] → places.filterMap Placement.row ≠ []
  kept : ∀ old new, .equal old new ∈ alignOrReplace ((entryRows doc.lines parse).map (·.2)) wanted →
    ∃ row entry, (entryRows doc.lines parse)[old]? = some (row, entry) ∧ .kept row entry ∈ places

theorem planEntries_spec (h : doc.planEntries wanted parse render opensSection = .ok plan) :
    ∃ places, Planned doc wanted parse render opensSection plan places := by
  obtain ⟨⟨settled, slots⟩, hsteps, hplan⟩ := ok_of_bind h
  obtain rfl := Except.ok.inj hplan
  have hscript := alignOrReplace_script ((entryRows doc.lines parse).map (·.2)) wanted
  rw [Script, List.length_map] at hscript
  have hstart : Settled (entryRows doc.lines parse) wanted render 0 0 [] {} [] :=
    ⟨rfl, by simp, List.Sublist.refl _, List.Perm.refl _, rfl, rfl, rfl⟩
  obtain ⟨places, hsettled, hplaced, _, hkept⟩ := settleSteps_spec _ hscript (Nat.le_refl 0) (Nat.le_refl 0)
    hstart (.inl ⟨rfl, rfl⟩) hsteps
  have hall : ((entryRows doc.lines parse).map (·.1)).take (entryRows doc.lines parse).length =
      (entryRows doc.lines parse).map (·.1) := List.take_of_length_le (by simp)
  refine ⟨places, ⟨?_, hsettled.good, ?_, ?_, hsettled.replace, ?_, hplaced,
    hkept⟩⟩
  · rw [hsettled.entries, List.take_length]
  · refine List.Pairwise.sublist ?_ (entryRows_increasing doc.lines parse)
    rw [← hall]
    exact hsettled.rows
  · rw [← hall]
    exact hsettled.all
  · show placeSlots doc.lines opensSection slots none settled.insert = _
    rw [hsettled.slots, placeSlots_eq, hsettled.insert, List.nil_append]

omit [DecidableEq T] in
theorem rewrite_rows (places : List (Placement T)) :
    ((places.filterMap Placement.rewrite).map (·.1)).Sublist (places.filterMap Placement.row) := by
  induction places with
  | nil => exact List.Sublist.refl _
  | cons head places ih =>
    cases head with
    | kept row entry => exact ih.cons row
    | rewritten row raw entry => exact ih.cons_cons row
    | added raw entry => exact ih

/-- A planned edit rewrites or removes each line at most once. -/
theorem planEntries_atMostOne
    (h : doc.planEntries wanted parse render opensSection = .ok plan) : AtMostOne plan := by
  obtain ⟨places, hplanned⟩ := planEntries_spec h
  have hnodup : ((entryRows doc.lines parse).map (·.1)).Nodup :=
    (entryRows_increasing doc.lines parse).imp Nat.ne_of_lt
  have hall := hplanned.all.nodup_iff.mpr hnodup
  rw [AtMostOne, hplanned.replace]
  exact hall.sublist ((rewrite_rows places).append (List.Sublist.refl _))

end Plan

end Detent.Guarantees.EntryPlans
