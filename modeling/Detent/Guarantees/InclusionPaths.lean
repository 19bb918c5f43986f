import Detent.Guarantees.EntryBinding
import Detent.Lib.MerkleTree

/-!
# Inclusion paths

`root_from_path` is the walk of `Lib.MerkleTree` up to trees of `2^63` leaves, so it
accepts exactly the leaf at the index with its audit path. Past that size the next
power of two is no `u64`, and the walk stops the process at its first step.
-/
namespace Detent.Guarantees.InclusionPaths
open Lib Lib.MerkleTree Source Source.Verify
open EntryBinding

section Paths

variable (x : Libraries)

/-- The hash of an inner node. -/
def nodeHash (left right : Bytes) : Bytes := x.sha256 (0x01 :: left ++ right)

/-- `MTH`, over leaf hashes. -/
def mth (leaves : List Bytes) : Bytes := treeHash (nodeHash x) (x.sha256 []) leaves

/-- `PATH`. -/
def auditPathOf (index : Nat) (leaves : List Bytes) : List Bytes :=
  auditPath (nodeHash x) (x.sha256 []) index leaves

/-- The walk does not overflow, gives the tree hash for a leaf of a list and its audit
path, and for nothing else. `digests` stands for the values of `[u8; 32]`. -/
structure ChecksExactly (digests : Set Bytes) (index size : Nat) (leaf : Bytes) (path : List Bytes) :
    Prop where
  total : rootFromPath x index size leaf path ≠ .error .overflow
  complete : ∀ leaves : List Bytes, leaves.length = size → leaves[index]? = some leaf →
    path = auditPathOf x index leaves → rootFromPath x index size leaf path = .ok (mth x leaves)
  sound : ∀ leaves : List Bytes, leaves.length = size → (∀ hash ∈ leaves, hash ∈ digests) →
    rootFromPath x index size leaf path = .ok (mth x leaves) →
      leaves[index]? = some leaf ∧ path = auditPathOf x index leaves

variable {x}

theorem nextPowerOfTwo_eq {size : Nat} (hlow : 2 ≤ size) (hhigh : size ≤ 2 ^ 63) :
    nextPowerOfTwo size = .ok (2 * splitPoint size) := by
  have hpower : 2 ^ ((size - 1).log2 + 1) = 2 * splitPoint size := by
    rw [Nat.pow_succ, Nat.mul_comm]
    rfl
  have hlt := splitPoint_lt hlow
  simp only [nextPowerOfTwo, if_neg (by omega : ¬ size ≤ 1), hpower]
  rw [if_pos (by omega)]

theorem nextPowerOfTwo_overflows {size : Nat} (h : 2 ^ 63 < size) :
    nextPowerOfTwo size = .error .overflow := by
  have hpower : 2 ^ ((size - 1).log2 + 1) = 2 * splitPoint size := by
    rw [Nat.pow_succ, Nat.mul_comm]
    rfl
  have hlog : 63 ≤ (size - 1).log2 := (Nat.le_log2 (by omega)).mpr (by omega)
  have hsplit : 2 ^ 63 ≤ splitPoint size := Nat.pow_le_pow_right (by omega) hlog
  simp only [nextPowerOfTwo, if_neg (by omega : ¬ size ≤ 1), hpower]
  rw [if_neg (by omega)]

/-- Up to `2^63` leaves the walk is that of the tree; each split is smaller still. -/
theorem rootFromReversed_eq (path : List Bytes) {index size : Nat} {leaf : Bytes}
    (hsize : size ≤ 2 ^ 63) : rootFromReversed x index size leaf path =
      orRefuse .setInvalid (rootFrom (nodeHash x) index size leaf path) := by
  induction path generalizing index size with
  | nil =>
    rw [rootFromReversed, rootFrom]
    by_cases hone : size = 1 ∧ index < size
    · rw [if_pos hone, if_neg (by omega), if_pos hone.1]
      rfl
    · rw [if_neg hone]
      by_cases hrange : size = 0 ∨ index ≥ size
      · rw [if_pos hrange]
        rfl
      · rw [if_neg hrange, if_neg (by omega)]
        rfl
  | cons head rest ih =>
    rw [rootFromReversed, rootFrom]
    by_cases hrange : size = 0 ∨ index ≥ size
    · rw [if_pos hrange, if_pos (by omega)]
      rfl
    · by_cases hone : size = 1
      · rw [if_neg hrange, if_pos hone, if_pos (by omega)]
        rfl
      · have hlt := splitPoint_lt (by omega : 2 ≤ size)
        rw [if_neg hrange, if_neg hone, if_neg (by omega), nextPowerOfTwo_eq (by omega) hsize]
        have hhalf : 2 * splitPoint size / 2 = splitPoint size := by omega
        simp only [bind, Except.bind, hhalf]
        by_cases hleft : index < splitPoint size
        · rw [if_pos hleft, if_pos hleft, ih (by omega)]
          cases rootFrom (nodeHash x) index (splitPoint size) leaf rest <;> rfl
        · rw [if_neg hleft, if_neg hleft, ih (by omega)]
          cases rootFrom (nodeHash x) (index - splitPoint size) (size - splitPoint size) leaf rest <;>
            rfl

theorem orRefuse_eq_ok {α : Type} {err : VerificationError} {o : Option α} {a : α} :
    orRefuse err o = .ok a ↔ o = some a := by
  cases o <;> simp [orRefuse, refuse]

theorem orRefuse_ne_overflow {α : Type} (err : VerificationError) (o : Option α) :
    orRefuse err o ≠ .error .overflow := by
  cases o <;> simp [orRefuse, refuse]

/-- A tree of more than one leaf has a path of at least one hash. -/
theorem auditPathOf_ne_nil {index : Nat} {leaves : List Bytes} (h : 2 ≤ leaves.length) :
    auditPathOf x index leaves ≠ [] := by
  unfold auditPathOf
  by_cases hleft : index < splitPoint leaves.length
  · rw [auditPath_left h hleft]
    simp
  · rw [auditPath_right h hleft]
    simp

variable {digests : Set Bytes} {index size : Nat} {leaf : Bytes} {path : List Bytes}

theorem checksExactly_of_small (hinj : InjectiveOn (nodeHash x) digests) (hindex : index < size)
    (hleaf : leaf ∈ digests) (hpath : ∀ hash ∈ path, hash ∈ digests) (hsize : size ≤ 2 ^ 63) :
    ChecksExactly x digests index size leaf path := by
  have hwalk : rootFromPath x index size leaf path =
      orRefuse .setInvalid (rootFrom (nodeHash x) index size leaf path.reverse) :=
    rootFromReversed_eq path.reverse hsize
  constructor
  · rw [hwalk]
    exact orRefuse_ne_overflow _ _
  · rintro leaves rfl hat rfl
    rw [hwalk, orRefuse_eq_ok]
    exact rootFrom_auditPath (nodeHash x) (x.sha256 []) index leaves hat
  · rintro leaves rfl hleaves hroot
    rw [hwalk, orRefuse_eq_ok] at hroot
    have hreversed : ∀ hash ∈ path.reverse, hash ∈ digests :=
      fun hash hmem => hpath hash (List.mem_reverse.mp hmem)
    obtain ⟨hat, hsame⟩ := auditPath_of_rootFrom hinj (by omega) hleaves hleaf hreversed hroot
    rw [List.reverse_reverse] at hsame
    exact ⟨hat, hsame⟩

/-- Without a hash on the path the walk stops before it splits the tree. -/
theorem checksExactly_of_nil (hindex : index < size) (hsize : 2 ^ 63 < size) :
    ChecksExactly x digests index size leaf [] := by
  have hrefused : rootFromPath x index size leaf [] = refuse .setInvalid := by
    rw [rootFromPath, List.reverse_nil, rootFromReversed, if_neg (by omega), if_neg (by omega)]
  constructor
  · rw [hrefused]
    simp [refuse]
  · rintro leaves rfl hat hpath
    exact absurd hpath.symm (auditPathOf_ne_nil (by omega))
  · intro leaves _ _ hroot
    rw [hrefused] at hroot
    cases hroot

theorem rootFromPath_overflows (hindex : index < size) (hsize : 2 ^ 63 < size) (hpath : path ≠ []) :
    rootFromPath x index size leaf path = .error .overflow := by
  obtain ⟨head, rest, hreverse⟩ : ∃ head rest, path.reverse = head :: rest := by
    cases hcases : path.reverse with
    | nil => exact absurd (List.reverse_eq_nil_iff.mp hcases) hpath
    | cons head rest => exact ⟨head, rest, rfl⟩
  rw [rootFromPath, hreverse, rootFromReversed, if_neg (by omega), if_neg (by omega),
    nextPowerOfTwo_overflows hsize]
  rfl

/-- With SHA-256 injective on the inner nodes, inclusion paths are checked exactly up to
`2^63` leaves, and past that only where the path is empty. -/
theorem paths_checked_iff (hinj : InjectiveOn (nodeHash x) digests) (hindex : index < size)
    (_hsize : size < 2 ^ 64) (hleaf : leaf ∈ digests) (hpath : ∀ hash ∈ path, hash ∈ digests) :
    ChecksExactly x digests index size leaf path ↔ size ≤ 2 ^ 63 ∨ path = [] := by
  constructor
  · intro hexact
    by_contra hlarge
    rw [not_or] at hlarge
    exact hexact.total (rootFromPath_overflows hindex (by omega) hlarge.2)
  · rintro (hsmall | rfl)
    · exact checksExactly_of_small hinj hindex hleaf hpath hsmall
    · by_cases hsmall : size ≤ 2 ^ 63
      · exact checksExactly_of_small hinj hindex hleaf hpath hsmall
      · exact checksExactly_of_nil hindex (by omega)

end Paths

/-- Hashes that keep what they hash: a leaf of 32 bytes, or an inner node. -/
inductive Kept : Bytes → Prop
  | leaf (rest : Bytes) (h : rest.length = 31) : Kept (0 :: rest)
  | node (left right : Bytes) (hleft : Kept left) (hright : Kept right) :
      Kept (0x01 :: left ++ right)

/-- No kept hash starts another one. -/
theorem Kept.unique {left left' right right' : Bytes} (h : Kept left) (h' : Kept left')
    (hsame : left ++ right = left' ++ right') : left = left' ∧ right = right' := by
  induction h generalizing left' right right' with
  | leaf rest hlength =>
    cases h' with
    | leaf rest' hlength' =>
      rw [List.cons_append, List.cons_append, List.cons.injEq] at hsame
      obtain ⟨rfl, rfl⟩ := List.append_inj hsame.2 (hlength.trans hlength'.symm)
      exact ⟨rfl, rfl⟩
    | node => cases hsame
  | node a b _ _ iha ihb =>
    cases h' with
    | leaf => cases hsame
    | node a' b' ha' hb' =>
      rw [List.append_assoc, List.append_assoc, List.cons_append, List.cons_append,
        List.cons.injEq] at hsame
      obtain ⟨rfl, hrest⟩ := iha ha' hsame.2
      obtain ⟨rfl, rfl⟩ := ihb hb' hrest
      exact ⟨rfl, rfl⟩

def keptHashes : Set Bytes := {hash | Kept hash}

theorem kept_injective : InjectiveOn (nodeHash DsseSample.libraries) keptHashes where
  closed left hleft right hright := Kept.node left right hleft hright
  injective left hleft right _ left' hleft' right' _ hsame := by
    have hbodies : left ++ right = left' ++ right' := (List.cons.inj hsame).2
    exact Kept.unique hleft hleft' hbodies

/-- A leaf hash. -/
def zeroHash : Bytes := 0 :: List.replicate 31 0

theorem zeroHash_kept : zeroHash ∈ keptHashes := Kept.leaf _ List.length_replicate

/-- A tree of two leaves. -/
theorem two_leaves_checked :
    ChecksExactly DsseSample.libraries keptHashes 0 2 zeroHash [zeroHash] ↔
      2 ≤ 2 ^ 63 ∨ [zeroHash] = [] := by
  refine paths_checked_iff kept_injective (by omega) (by omega) zeroHash_kept ?_
  intro hash hmem
  obtain rfl := List.mem_singleton.mp hmem
  exact zeroHash_kept

/-- The smallest size past the limit, with a path of one hash. -/
theorem large_tree_overflows :
    rootFromPath DsseSample.libraries 0 (2 ^ 63 + 1) zeroHash [zeroHash] = .error .overflow ∧
      ¬ ChecksExactly DsseSample.libraries keptHashes 0 (2 ^ 63 + 1) zeroHash [zeroHash] := by
  have hoverflow : rootFromPath DsseSample.libraries 0 (2 ^ 63 + 1) zeroHash [zeroHash] =
      .error .overflow := by decide +kernel
  exact ⟨hoverflow, fun hexact => hexact.total hoverflow⟩

end Detent.Guarantees.InclusionPaths
