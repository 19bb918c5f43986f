import Mathlib.Algebra.Group.Nat.Defs
import Mathlib.Data.Nat.Log
import Mathlib.Tactic.Common

/-!
# Merkle trees over any number of leaves

The tree hash and the audit path of a list of leaf hashes, where a list of more than
one leaf is split at the largest power of two below its length. A proof is checked by
walking the path from its end; over values on which the hash of an inner node is
injective, only the leaf at the index and its own audit path reach the tree hash.
-/
namespace Detent.Lib.MerkleTree

/-- The largest power of two below `n`, from two on. -/
def splitPoint (n : Nat) : Nat := 2 ^ (n - 1).log2

theorem splitPoint_lt {n : Nat} (h : 2 ≤ n) : splitPoint n < n := by
  have hle := Nat.log2_self_le (by omega : n - 1 ≠ 0)
  unfold splitPoint
  omega

theorem splitPoint_pos (n : Nat) : 0 < splitPoint n := Nat.two_pow_pos _

variable {H : Type} (node : H → H → H) (empty : H)

/-- The tree hash. -/
def treeHash (leaves : List H) : H :=
  if _h : 2 ≤ leaves.length then
    node (treeHash (leaves.take (splitPoint leaves.length)))
      (treeHash (leaves.drop (splitPoint leaves.length)))
  else leaves.headD empty
  termination_by leaves.length
  decreasing_by
    all_goals
      have hlt := splitPoint_lt _h
      have hpos := splitPoint_pos leaves.length
      simp only [List.length_take, List.length_drop]
      omega

/-- The audit path of the leaf at `index`, the sibling of the leaf first. -/
def auditPath (index : Nat) (leaves : List H) : List H :=
  if _h : 2 ≤ leaves.length then
    if index < splitPoint leaves.length then
      auditPath index (leaves.take (splitPoint leaves.length)) ++
        [treeHash node empty (leaves.drop (splitPoint leaves.length))]
    else
      auditPath (index - splitPoint leaves.length) (leaves.drop (splitPoint leaves.length)) ++
        [treeHash node empty (leaves.take (splitPoint leaves.length))]
  else []
  termination_by leaves.length
  decreasing_by
    all_goals
      have hlt := splitPoint_lt _h
      have hpos := splitPoint_pos leaves.length
      simp only [List.length_take, List.length_drop]
      omega

/-- The root that a path, taken from its end, gives for a leaf of a tree of `size`
leaves. -/
def rootFrom (index size : Nat) (leaf : H) : List H → Option H
  | [] => if size = 1 ∧ index < size then some leaf else none
  | head :: rest =>
    if size < 2 ∨ size ≤ index then none
    else if index < splitPoint size then
      (rootFrom index (splitPoint size) leaf rest).map (fun sub => node sub head)
    else
      (rootFrom (index - splitPoint size) (size - splitPoint size) leaf rest).map
        (fun sub => node head sub)

section Split

variable {node empty} {leaves : List H}

theorem treeHash_split (h : 2 ≤ leaves.length) : treeHash node empty leaves =
    node (treeHash node empty (leaves.take (splitPoint leaves.length)))
      (treeHash node empty (leaves.drop (splitPoint leaves.length))) := by
  rw [treeHash, dif_pos h]

theorem treeHash_single (leaf : H) : treeHash node empty [leaf] = leaf := by
  rw [treeHash, dif_neg (by simp)]
  rfl

theorem auditPath_single (index : Nat) (leaf : H) : auditPath node empty index [leaf] = [] := by
  rw [auditPath, dif_neg (by simp)]

theorem auditPath_left {index : Nat} (h : 2 ≤ leaves.length)
    (hindex : index < splitPoint leaves.length) : auditPath node empty index leaves =
    auditPath node empty index (leaves.take (splitPoint leaves.length)) ++
      [treeHash node empty (leaves.drop (splitPoint leaves.length))] := by
  rw [auditPath, dif_pos h, if_pos hindex]

theorem auditPath_right {index : Nat} (h : 2 ≤ leaves.length)
    (hindex : ¬ index < splitPoint leaves.length) : auditPath node empty index leaves =
    auditPath node empty (index - splitPoint leaves.length)
        (leaves.drop (splitPoint leaves.length)) ++
      [treeHash node empty (leaves.take (splitPoint leaves.length))] := by
  rw [auditPath, dif_pos h, if_neg hindex]

theorem length_take_split (h : 2 ≤ leaves.length) :
    (leaves.take (splitPoint leaves.length)).length = splitPoint leaves.length := by
  have hlt := splitPoint_lt h
  rw [List.length_take]
  omega

end Split

/-- The audit path of a leaf gives the tree hash. -/
theorem rootFrom_auditPath (index : Nat) (leaves : List H) {leaf : H}
    (hleaf : leaves[index]? = some leaf) :
    rootFrom node index leaves.length leaf (auditPath node empty index leaves).reverse =
      some (treeHash node empty leaves) := by
  have hindex := (List.getElem?_eq_some_iff.mp hleaf).1
  by_cases h : 2 ≤ leaves.length
  · have hlt := splitPoint_lt h
    have hpos := splitPoint_pos leaves.length
    have hlength := length_take_split h
    rw [treeHash_split h]
    by_cases hleft : index < splitPoint leaves.length
    · have hat : (leaves.take (splitPoint leaves.length))[index]? = some leaf := by
        rw [List.getElem?_take_of_lt hleft]
        exact hleaf
      have hsub := rootFrom_auditPath index (leaves.take (splitPoint leaves.length)) hat
      rw [auditPath_left h hleft, List.reverse_append, List.reverse_singleton, List.singleton_append,
        rootFrom, if_neg (by omega), if_pos hleft]
      rw [hlength] at hsub
      rw [hsub, Option.map_some]
    · have hat : (leaves.drop (splitPoint leaves.length))[index - splitPoint leaves.length]? =
          some leaf := by
        rw [List.getElem?_drop, Nat.add_sub_cancel' (Nat.le_of_not_lt hleft)]
        exact hleaf
      have hsub := rootFrom_auditPath (index - splitPoint leaves.length)
        (leaves.drop (splitPoint leaves.length)) hat
      rw [auditPath_right h hleft, List.reverse_append, List.reverse_singleton,
        List.singleton_append, rootFrom, if_neg (by omega), if_neg hleft]
      rw [List.length_drop] at hsub
      rw [hsub, Option.map_some]
  · obtain ⟨only, rfl⟩ : ∃ only, leaves = [only] := List.length_eq_one_iff.mp (by omega)
    obtain rfl : index = 0 := by simpa using hindex
    obtain rfl : only = leaf := by simpa using hleaf
    rw [auditPath_single, treeHash_single, List.reverse_nil, rootFrom, if_pos (by simp)]
  termination_by leaves.length
  decreasing_by
    all_goals
      simp only [List.length_take, List.length_drop]
      omega

/-- The hash of an inner node stays among the values of `s` and is injective there. -/
structure InjectiveOn (s : Set H) : Prop where
  closed : ∀ l ∈ s, ∀ r ∈ s, node l r ∈ s
  injective : ∀ l ∈ s, ∀ r ∈ s, ∀ l' ∈ s, ∀ r' ∈ s, node l r = node l' r' → l = l' ∧ r = r'

variable {node empty} {s : Set H}

theorem treeHash_mem (hs : InjectiveOn node s) (leaves : List H) (hne : 1 ≤ leaves.length)
    (hleaves : ∀ leaf ∈ leaves, leaf ∈ s) : treeHash node empty leaves ∈ s := by
  by_cases h : 2 ≤ leaves.length
  · have hlt := splitPoint_lt h
    have hpos := splitPoint_pos leaves.length
    rw [treeHash_split h]
    apply hs.closed
    · exact treeHash_mem hs _ (by rw [List.length_take]; omega)
        (fun leaf hleaf => hleaves leaf (List.mem_of_mem_take hleaf))
    · exact treeHash_mem hs _ (by rw [List.length_drop]; omega)
        (fun leaf hleaf => hleaves leaf (List.mem_of_mem_drop hleaf))
  · obtain ⟨only, rfl⟩ : ∃ only, leaves = [only] := List.length_eq_one_iff.mp (by omega)
    rw [treeHash_single]
    exact hleaves only List.mem_cons_self
  termination_by leaves.length
  decreasing_by
    all_goals
      simp only [List.length_take, List.length_drop]
      omega

theorem rootFrom_mem (hs : InjectiveOn node s) {path : List H} {index size : Nat} {leaf root : H}
    (hleaf : leaf ∈ s) (hpath : ∀ hash ∈ path, hash ∈ s)
    (h : rootFrom node index size leaf path = some root) : root ∈ s := by
  induction path generalizing index size root with
  | nil =>
    rw [rootFrom] at h
    split at h
    · cases h
      exact hleaf
    · cases h
  | cons head rest ih =>
    have hhead := hpath head List.mem_cons_self
    have hrest : ∀ hash ∈ rest, hash ∈ s := fun hash hmem => hpath hash (List.mem_cons_of_mem _ hmem)
    rw [rootFrom] at h
    split at h
    · cases h
    · split at h
      · obtain ⟨sub, hsub, rfl⟩ := Option.map_eq_some_iff.mp h
        exact hs.closed sub (ih hrest hsub) head hhead
      · obtain ⟨sub, hsub, rfl⟩ := Option.map_eq_some_iff.mp h
        exact hs.closed head hhead sub (ih hrest hsub)

/-- Only the leaf at the index and its audit path reach the tree hash. -/
theorem auditPath_of_rootFrom (hs : InjectiveOn node s) {path : List H} {index : Nat} {leaf : H}
    {leaves : List H} (hne : 1 ≤ leaves.length) (hleaves : ∀ leaf ∈ leaves, leaf ∈ s)
    (hleaf : leaf ∈ s) (hpath : ∀ hash ∈ path, hash ∈ s)
    (h : rootFrom node index leaves.length leaf path = some (treeHash node empty leaves)) :
    leaves[index]? = some leaf ∧ path.reverse = auditPath node empty index leaves := by
  induction path generalizing index leaves with
  | nil =>
    rw [rootFrom] at h
    split at h
    · next hone =>
      obtain ⟨only, rfl⟩ : ∃ only, leaves = [only] := List.length_eq_one_iff.mp hone.1
      obtain rfl : index = 0 := by simpa using hone.2
      rw [treeHash_single] at h
      obtain rfl := Option.some.inj h
      exact ⟨rfl, (auditPath_single 0 leaf).symm⟩
    · cases h
  | cons head rest ih =>
    have hhead := hpath head List.mem_cons_self
    have hrest : ∀ hash ∈ rest, hash ∈ s := fun hash hmem => hpath hash (List.mem_cons_of_mem _ hmem)
    rw [rootFrom] at h
    split at h
    · cases h
    · next hsize =>
      have htwo : 2 ≤ leaves.length := by omega
      have hlt := splitPoint_lt htwo
      have hpos := splitPoint_pos leaves.length
      have htake : ∀ leaf ∈ leaves.take (splitPoint leaves.length), leaf ∈ s :=
        fun leaf hleaf => hleaves leaf (List.mem_of_mem_take hleaf)
      have hdrop : ∀ leaf ∈ leaves.drop (splitPoint leaves.length), leaf ∈ s :=
        fun leaf hleaf => hleaves leaf (List.mem_of_mem_drop hleaf)
      have hlength := length_take_split htwo
      have hleftMem : treeHash node empty (leaves.take (splitPoint leaves.length)) ∈ s :=
        treeHash_mem hs _ (by omega) htake
      have hrightMem : treeHash node empty (leaves.drop (splitPoint leaves.length)) ∈ s :=
        treeHash_mem hs _ (by rw [List.length_drop]; omega) hdrop
      rw [treeHash_split htwo] at h
      split at h
      · next hleft =>
        obtain ⟨sub, hsub, heq⟩ := Option.map_eq_some_iff.mp h
        obtain ⟨rfl, rfl⟩ := hs.injective _ (rootFrom_mem hs hleaf hrest hsub) _ hhead _ hleftMem _
          hrightMem heq
        have hsub' : rootFrom node index (leaves.take (splitPoint leaves.length)).length leaf rest =
            some (treeHash node empty (leaves.take (splitPoint leaves.length))) := by
          rw [hlength]
          exact hsub
        obtain ⟨hat, hsame⟩ := ih (by omega) htake hrest hsub'
        rw [List.getElem?_take_of_lt hleft] at hat
        exact ⟨hat, by rw [auditPath_left htwo hleft, List.reverse_cons, hsame]⟩
      · next hright =>
        obtain ⟨sub, hsub, heq⟩ := Option.map_eq_some_iff.mp h
        obtain ⟨rfl, rfl⟩ := hs.injective _ hhead _ (rootFrom_mem hs hleaf hrest hsub) _ hleftMem _
          hrightMem heq
        rw [← List.length_drop] at hsub
        obtain ⟨hat, hsame⟩ := ih (by rw [List.length_drop]; omega) hdrop hrest hsub
        rw [List.getElem?_drop, Nat.add_sub_cancel' (Nat.le_of_not_lt hright)] at hat
        exact ⟨hat, by rw [auditPath_right htwo hright, List.reverse_cons, hsame]⟩

end Detent.Lib.MerkleTree
