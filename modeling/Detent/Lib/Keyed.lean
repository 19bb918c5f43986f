import Mathlib.Data.List.Basic
import Mathlib.Data.List.Nodup
import Mathlib.Tactic.Common

/-!
# Lists with one entry for each key

A map as a list of its entries: the value of a key, an entry set in front of the others, the
entries that satisfy a condition, and the entry of least rank, the first one in the order in
which somebody goes through the map.
-/
namespace Detent.Lib.Keyed

variable {κ β : Type} [DecidableEq κ] {entries : List (κ × β)} {key other : κ} {b c : β}

/-- The value of `key`. -/
def value (entries : List (κ × β)) (key : κ) : Option β :=
  (entries.find? (fun x => x.1 = key)).map Prod.snd

/-- The entries without the one of `key`. -/
def erase (entries : List (κ × β)) (key : κ) : List (κ × β) := entries.filter (fun x => x.1 ≠ key)

/-- The entries with `b` as the value of `key`. -/
def set (entries : List (κ × β)) (key : κ) (b : β) : List (κ × β) := (key, b) :: erase entries key

/-- No key has two entries. -/
def Unique (entries : List (κ × β)) : Prop := (entries.map Prod.fst).Nodup

omit [DecidableEq κ] in
theorem Unique.filter (h : Unique entries) (p : κ × β → Bool) : Unique (entries.filter p) :=
  List.Nodup.sublist (List.filter_sublist.map _) h

theorem unique_set (h : Unique entries) (key : κ) (b : β) : Unique (set entries key b) := by
  refine List.nodup_cons.mpr ⟨?_, h.filter _⟩
  intro hmem
  obtain ⟨x, hx, hkey⟩ := List.mem_map.mp hmem
  have hne := (List.mem_filter.mp hx).2
  simp [hkey] at hne

theorem mem_of_value (h : value entries key = some b) : (key, b) ∈ entries := by
  obtain ⟨x, hx, rfl⟩ := Option.map_eq_some_iff.mp h
  have hkey : x.1 = key := by simpa using List.find?_some hx
  have hmem := List.mem_of_find?_eq_some hx
  rwa [← hkey]

theorem Unique.value_of_mem (h : Unique entries) (hmem : (key, b) ∈ entries) :
    value entries key = some b := by
  induction entries with
  | nil => cases hmem
  | cons first rest ih =>
    obtain ⟨hfresh, hrest⟩ := List.nodup_cons.mp h
    rcases List.mem_cons.mp hmem with rfl | hmem
    · simp [value]
    · have hne : first.1 ≠ key := by
        intro heq
        exact hfresh (heq ▸ List.mem_map_of_mem hmem)
      have hvalue := ih hrest hmem
      unfold value at hvalue ⊢
      rwa [List.find?_cons_of_neg (by simpa using hne)]

theorem Unique.value_eq_some (h : Unique entries) :
    value entries key = some b ↔ (key, b) ∈ entries :=
  ⟨mem_of_value, h.value_of_mem⟩

omit [DecidableEq κ] in
theorem Unique.sublist {others : List (κ × β)} (h : Unique entries) (hsub : others.Sublist entries) :
    Unique others :=
  List.Nodup.sublist (hsub.map _) h

theorem Unique.value_of_sublist {others : List (κ × β)} (h : Unique entries)
    (hsub : others.Sublist entries) (hvalue : value others key = some b) :
    value entries key = some b :=
  h.value_of_mem (hsub.subset (mem_of_value hvalue))

/-- What is left under a key when the entries are filtered. -/
theorem Unique.value_filter (h : Unique entries) (p : κ × β → Bool) :
    value (entries.filter p) key = (value entries key).filter (fun b => p (key, b)) := by
  ext b
  rw [(h.filter p).value_eq_some, Option.filter_eq_some_iff, h.value_eq_some, List.mem_filter]

theorem value_erase (entries : List (κ × β)) (key : κ) : value (erase entries key) key = none := by
  have hgone : (erase entries key).find? (fun x => x.1 = key) = none := by
    refine List.find?_eq_none.mpr (fun x hx => ?_)
    simpa using (List.mem_filter.mp hx).2
  rw [value, hgone, Option.map_none]

theorem value_erase_of_ne (hne : other ≠ key) :
    value (erase entries key) other = value entries other := by
  have hsame : (fun x : κ × β => decide (decide (x.1 ≠ key) = true ∧ decide (x.1 = other) = true)) =
      fun x => decide (x.1 = other) := by
    funext x
    by_cases hx : x.1 = other
    · simp [hx, hne]
    · simp [hx]
  rw [value, erase, List.find?_filter, hsame, value]

@[simp] theorem value_set_self : value (set entries key b) key = some b := by
  simp [value, set]

theorem value_set_of_ne (hne : other ≠ key) :
    value (set entries key b) other = value entries other := by
  rw [value, set, List.find?_cons_of_neg (by simpa using hne.symm)]
  exact value_erase_of_ne hne

theorem length_set_le : (set entries key b).length ≤ entries.length + 1 := by
  have hle := List.length_filter_le (fun x => decide (x.1 ≠ key)) entries
  rw [set, erase, List.length_cons]
  omega

theorem length_erase_lt {x : κ × β} (h : x ∈ entries) : (erase entries x.1).length < entries.length := by
  refine List.length_filter_lt_length_iff_exists.mpr ⟨x, h, ?_⟩
  simp

theorem Unique.length_erase (h : Unique entries) (hmem : (key, b) ∈ entries) :
    (erase entries key).length + 1 = entries.length := by
  have hkey : key ∈ entries.map Prod.fst := List.mem_map_of_mem hmem
  have hkeys : (erase entries key).map Prod.fst = (entries.map Prod.fst).erase key := by
    rw [List.Nodup.erase_eq_filter h, erase, List.filter_map]
    exact congrArg _ (List.filter_congr (fun x _ => decide_not))
  have hlength := congrArg List.length hkeys
  rw [List.length_map, List.length_erase_of_mem hkey, List.length_map] at hlength
  rw [hlength, Nat.sub_add_cancel (List.length_pos_of_mem hmem)]

/-- A value that replaces another adds no entry. -/
theorem length_set_of_value (h : value entries key = some c) :
    (set entries key b).length ≤ entries.length := by
  have hlt := length_erase_lt (mem_of_value h)
  rw [set, List.length_cons]
  exact hlt

/-- The first entry of least rank. -/
def least (rank : β → Nat) : List (κ × β) → Option (κ × β)
  | [] => none
  | x :: rest =>
    match least rank rest with
    | none => some x
    | some y => if rank y.2 < rank x.2 then some y else some x

variable {rank : β → Nat} {x : κ × β}

omit [DecidableEq κ] in
theorem least_mem (h : least rank entries = some x) : x ∈ entries := by
  induction entries with
  | nil => cases h
  | cons first rest ih =>
    unfold least at h
    split at h
    · obtain rfl := Option.some.inj h
      exact List.mem_cons_self
    · rename_i y hy
      split at h
      · obtain rfl := Option.some.inj h
        exact List.mem_cons_of_mem _ (ih hy)
      · obtain rfl := Option.some.inj h
        exact List.mem_cons_self

omit [DecidableEq κ] in
theorem least_eq_none : least rank entries = none ↔ entries = [] := by
  cases entries with
  | nil => simp [least]
  | cons first rest =>
    unfold least
    split
    · simp
    · split <;> simp

omit [DecidableEq κ] in
theorem least_le (h : least rank entries = some x) : ∀ y ∈ entries, rank x.2 ≤ rank y.2 := by
  induction entries generalizing x with
  | nil => cases h
  | cons first rest ih =>
    unfold least at h
    split at h
    · rename_i hnone
      obtain rfl := Option.some.inj h
      rw [least_eq_none.mp hnone]
      simp
    · rename_i y hy
      have hrest := ih hy
      split at h
      · rename_i hlt
        obtain rfl := Option.some.inj h
        exact List.forall_mem_cons.mpr ⟨Nat.le_of_lt hlt, hrest⟩
      · rename_i hge
        obtain rfl := Option.some.inj h
        refine List.forall_mem_cons.mpr ⟨Nat.le_refl _, fun z hz => ?_⟩
        exact Nat.le_trans (Nat.le_of_not_lt hge) (hrest z hz)

/-- The order in which an iteration goes through the entries of a map. -/
structure Iteration (κ β : Type) where
  order : List (κ × β) → List (κ × β)
  rearranges : ∀ entries, (order entries).Perm entries

namespace Iteration

/-- From the first entry of the list to the last one. -/
def asListed (κ β : Type) : Iteration κ β := ⟨id, .refl⟩

variable (iteration : Iteration κ β)

/-- The least entry that the iteration comes to first. -/
def least (rank : β → Nat) (entries : List (κ × β)) : Option (κ × β) :=
  Keyed.least rank (iteration.order entries)

variable {iteration}

omit [DecidableEq κ] in
theorem least_mem (h : iteration.least rank entries = some x) : x ∈ entries :=
  (iteration.rearranges entries).subset (Keyed.least_mem h)

omit [DecidableEq κ] in
theorem least_eq_none : iteration.least rank entries = none ↔ entries = [] := by
  rw [least, Keyed.least_eq_none, ← List.length_eq_zero_iff, (iteration.rearranges entries).length_eq,
    List.length_eq_zero_iff]

omit [DecidableEq κ] in
theorem least_le (h : iteration.least rank entries = some x) : ∀ y ∈ entries, rank x.2 ≤ rank y.2 :=
  fun y hy => Keyed.least_le h y ((iteration.rearranges entries).symm.subset hy)

end Iteration

end Detent.Lib.Keyed
