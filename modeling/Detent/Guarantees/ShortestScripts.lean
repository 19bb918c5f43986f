import Detent.Guarantees.Alignment

/-!
# The alignment is minimal

On each diagonal of the edit grid, the point the search reaches with `dist` edits is
as far as any path with `dist` edits that stays inside the grid. So the first
distance that reaches both ends is the insert/delete edit distance of the two
lists, and the search gives up only where that distance is past the cap.
-/
namespace Detent.Guarantees.ShortestScripts
open Lib Source.Align Guarantees.Alignment

variable {T : Type} [DecidableEq T] {old new : List T} {offset : Nat}

/-- The slide along shared items goes on while there are any. -/
theorem furthest_extends {dist kidx a b : Nat} {t : T} (hd : dist ≤ offset)
    (hk : OnDiagonal offset dist kidx) (hold : old[a]? = some t) (hnew : new[b]? = some t)
    (hkidx : kidx + b = a + offset)
    (hreach : a ≤ furthest old new offset dist kidx) :
    a + 1 ≤ furthest old new offset dist kidx := by
  rcases Nat.lt_or_ge a (furthest old new offset dist kidx) with hlt | hge
  · exact hlt
  · exfalso
    have hstop : furthest old new offset dist kidx = a := Nat.le_antisymm hge hreach
    have hslide := furthest_eq old new offset dist kidx
    have hinside := kidx_le_edited old new offset dist kidx hd hk
    generalize edited old new offset dist kidx = start at hslide hinside
    rw [hstop] at hslide
    have hplace : start + offset - kidx +
        commonPrefix (old.drop start) (new.drop (start + offset - kidx)) = b := by omega
    apply not_shared_commonPrefix (old.drop start) (new.drop (start + offset - kidx))
    · rw [List.getElem?_drop, ← hslide]
      exact hold
    · rw [List.getElem?_drop, hplace]
      exact hnew

/-- No path with `dist` edits inside the grid ends further than the search. -/
theorem path_le_furthest {steps : List Step} {k l kidx : Nat} (h : Path old new 0 0 steps k l)
    (hoffset : edits steps ≤ offset) (hkidx : kidx + l = k + offset) :
    k ≤ furthest old new offset (edits steps) kidx := by
  induction steps using List.reverseRecOn generalizing k l kidx with
  | nil =>
    cases h
    exact Nat.zero_le _
  | append_singleton steps step ih =>
    obtain ⟨i, j, hfirst, hlast⟩ := h.split
    have hdrift := hfirst.drift
    cases hlast with
    | equal t hold hnew rest =>
      cases rest
      have hedits : edits (steps ++ [.equal i j]) = edits steps := by simp [Step.isEdit]
      rw [hedits] at hoffset ⊢
      have hdiagonal : OnDiagonal offset (edits steps) kidx := ⟨by omega, by omega, by omega⟩
      exact furthest_extends hoffset hdiagonal hold hnew (by omega) (ih hfirst hoffset (by omega))
    | delete hold rest =>
      cases rest
      have hedits : edits (steps ++ [.delete i]) = edits steps + 1 := by simp [Step.isEdit]
      rw [hedits] at hoffset ⊢
      have hprev := @ih _ _ (kidx - 1) hfirst (by omega) (by omega)
      have hright := furthest_right_le old new offset (edits steps) kidx (by omega)
      omega
    | insert hnew rest =>
      cases rest
      have hedits : edits (steps ++ [.insert j]) = edits steps + 1 := by simp [Step.isEdit]
      rw [hedits] at hoffset ⊢
      have hprev := @ih _ _ (kidx + 1) hfirst (by omega) (by omega)
      have hdown := furthest_down_le old new offset (edits steps) kidx (by omega)
      omega

/-- A script within the cap is found, or a shorter one. -/
theorem align_finds {steps : List Step} (h : Script old new steps)
    (hcap : edits steps ≤ min (old.length + new.length) maxEditDistance) :
    ∃ found, align old new = some found ∧ edits found ≤ edits steps := by
  have hdrift := h.drift
  have hkidx : min (old.length + new.length) maxEditDistance + old.length - new.length + new.length =
      old.length + min (old.length + new.length) maxEditDistance := by omega
  have hreach := path_le_furthest h hcap hkidx
  exact align_spec.2 _ _ hcap ⟨by omega, by omega, by omega⟩ ⟨hreach, by omega⟩

omit [DecidableEq T] in
theorem edits_replaceAll (m n : Nat) : edits (replaceAll m n) = m + n := by
  have hdelete : ∀ l : List Nat, edits (l.map Step.delete) = l.length := by
    intro l
    induction l with
    | nil => rfl
    | cons i l ih => simp [ih, Step.isEdit]
  have hinsert : ∀ l : List Nat, edits (l.map Step.insert) = l.length := by
    intro l
    induction l with
    | nil => rfl
    | cons i l ih => simp [ih, Step.isEdit]
  rw [replaceAll, edits_append, hdelete, hinsert, List.length_range, List.length_range]

omit [DecidableEq T] in
theorem editDistance_le_lengths (old new : List T) :
    editDistance old new ≤ old.length + new.length := by
  have hscript : Script old new (replaceAll old.length new.length) := replaceAll_script
  have hle := hscript.editDistance_le
  rwa [edits_replaceAll] at hle

variable (old new) in
/-- What the steps of an alignment say about the two lists. -/
structure Aligns (steps : List Step) : Prop where
  consumed : steps.filterMap Step.old? = List.range old.length
  produced : steps.filterMap Step.new? = List.range new.length
  shared : ∀ i j, .equal i j ∈ steps → ∃ t, old[i]? = some t ∧ new[j]? = some t
  shortest : edits steps = editDistance old new

omit [DecidableEq T] in
theorem aligns_of_script {steps : List Step} (h : Script old new steps)
    (hedits : edits steps = editDistance old new) : Aligns old new steps where
  consumed := by rw [h.old_indices, Nat.sub_zero, List.range_eq_range']
  produced := by rw [h.new_indices, Nat.sub_zero, List.range_eq_range']
  shared _ _ hmem := h.shared hmem
  shortest := hedits

/-- `align` answers exactly within the cap on the edit distance, and then with a
shortest alignment. -/
theorem align_shortest (old new : List T) :
    ((align old new).isSome = true ↔ editDistance old new ≤ maxEditDistance) ∧
      ∀ steps, align old new = some steps → Aligns old new steps := by
  have hscript : Script old new (replaceAll old.length new.length) := replaceAll_script
  obtain ⟨shortest, hshortest, hdistance⟩ := hscript.exists_shortest
  have hlengths := editDistance_le_lengths old new
  refine ⟨⟨fun hsome => ?_, fun hcap => ?_⟩, fun steps hsteps => ?_⟩
  · obtain ⟨steps, hsteps⟩ := Option.isSome_iff_exists.mp hsome
    obtain ⟨hscript, hcap⟩ := align_spec.1 steps hsteps
    have hle := hscript.editDistance_le
    omega
  · obtain ⟨found, hfound, -⟩ := align_finds hshortest (by omega)
    rw [hfound]
    rfl
  · obtain ⟨hscript, hcap⟩ := align_spec.1 steps hsteps
    have hle := hscript.editDistance_le
    obtain ⟨found, hfound, hshort⟩ := align_finds hshortest (by omega)
    obtain rfl : steps = found := Option.some.inj (hsteps.symm.trans hfound)
    exact aligns_of_script hscript (by omega)

omit [DecidableEq T] in
theorem path_equals (i n : Nat) (h : i + n = old.length) :
    Path old old i i (equals i i n) (i + n) (i + n) := by
  induction n generalizing i with
  | zero => exact .nil i i
  | succ n ih =>
    have hitem := List.getElem?_eq_getElem (show i < old.length by omega)
    rw [show i + (n + 1) = i + 1 + n by omega]
    exact .equal _ hitem hitem (ih (i + 1) (by omega))

/-- A list is aligned with itself item by item. -/
theorem alignOrReplace_self (old : List T) :
    alignOrReplace old old = equals 0 0 old.length := by
  have hpath : Path old old 0 0 (equals 0 0 old.length) (0 + old.length) (0 + old.length) :=
    path_equals 0 old.length (by omega)
  rw [Nat.zero_add] at hpath
  have hzero := edits_equals 0 0 old.length
  obtain ⟨found, hfound, hedits⟩ := align_finds hpath (by omega)
  obtain ⟨n, hn, _, rfl⟩ := (align_script hfound).of_edits_zero (by omega)
  rw [alignOrReplace, hfound, Option.getD_some, show n = old.length by omega]

end Detent.Guarantees.ShortestScripts
