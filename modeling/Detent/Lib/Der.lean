import Mathlib.Data.List.Basic
import Mathlib.Tactic.Common

/-!
# DER fields

Fields with a tag of one byte and a length of minimal form, for contents below 2^24 bytes.
-/
namespace Detent.Lib.Der

/-- The length octets of minimal form: the short form below 128, else the count of the
octets that follow and these octets, the highest first. -/
def lengthBytes (n : Nat) : List UInt8 :=
  if n < 0x80 then [UInt8.ofNat n]
  else if n < 0x100 then [0x81, UInt8.ofNat n]
  else if n < 0x10000 then [0x82, UInt8.ofNat (n / 256), UInt8.ofNat n]
  else [0x83, UInt8.ofNat (n / 65536), UInt8.ofNat (n / 256), UInt8.ofNat n]

/-- A field: its tag, its length and its contents. -/
def tlv (tag : UInt8) (content : List UInt8) : List UInt8 :=
  tag :: lengthBytes content.length ++ content

theorem length_tlv (tag : UInt8) (content : List UInt8) :
    (tlv tag content).length = 1 + (lengthBytes content.length).length + content.length := by
  simp only [tlv, List.length_append, List.length_cons]
  omega

theorem length_content_lt (tag : UInt8) (content : List UInt8) :
    content.length < (tlv tag content).length := by
  rw [length_tlv]
  omega

theorem lengthBytes_mono {m n : Nat} (h : m ≤ n) :
    (lengthBytes m).length ≤ (lengthBytes n).length := by
  simp only [lengthBytes]
  repeat' split
  all_goals first | (simp; done) | omega

/-- Shorter contents make a shorter field. -/
theorem length_tlv_mono (tag : UInt8) {content other : List UInt8}
    (h : content.length ≤ other.length) : (tlv tag content).length ≤ (tlv tag other).length := by
  have hlength := lengthBytes_mono h
  rw [length_tlv, length_tlv]
  omega

/-- The fields of a list one after the other are no fewer bytes than fields. -/
theorem length_le_flatMap {α : Type} {encode : α → List UInt8} (items : List α)
    (h : ∀ item ∈ items, 0 < (encode item).length) :
    items.length ≤ (items.flatMap encode).length := by
  induction items with
  | nil => exact Nat.le_refl 0
  | cons item items ih =>
    have hfirst := h item (by simp)
    have hrest := ih fun other hmem => h other (by simp [hmem])
    rw [List.flatMap_cons, List.length_cons, List.length_append]
    omega

theorem length_encode_le {α : Type} {encode : α → List UInt8} {items : List α} {item : α}
    (h : item ∈ items) : (encode item).length ≤ (items.flatMap encode).length := by
  induction items with
  | nil => cases h
  | cons first items ih =>
    rw [List.flatMap_cons, List.length_append]
    rcases List.mem_cons.mp h with rfl | h
    · omega
    · have hrest := ih h
      omega

/-- Lists of items whose bytes tell them apart, followed by bytes that start no item, are
told apart by their bytes. -/
theorem flatMap_append_inj {α : Type} {encode : α → List UInt8} {ok : α → Prop}
    {tail tail' : List UInt8}
    (hread : ∀ a b rest rest', ok a → ok b → encode a ++ rest = encode b ++ rest' →
      a = b ∧ rest = rest')
    (hstop : ∀ a rest, ok a → encode a ++ rest ≠ tail)
    (hstop' : ∀ a rest, ok a → encode a ++ rest ≠ tail') {items others : List α}
    (hitems : ∀ item ∈ items, ok item) (hothers : ∀ item ∈ others, ok item)
    (h : items.flatMap encode ++ tail = others.flatMap encode ++ tail') :
    items = others ∧ tail = tail' := by
  induction items generalizing others with
  | nil =>
    cases others with
    | nil => exact ⟨rfl, h⟩
    | cons other others =>
      rw [List.flatMap_cons, List.append_assoc] at h
      exact absurd h.symm (hstop other _ (hothers other (by simp)))
  | cons item items ih =>
    obtain ⟨hfirst, hrest⟩ := List.forall_mem_cons.mp hitems
    cases others with
    | nil =>
      rw [List.flatMap_cons, List.append_assoc] at h
      exact absurd h (hstop' item _ hfirst)
    | cons other others =>
      obtain ⟨hfirst', hrest'⟩ := List.forall_mem_cons.mp hothers
      rw [List.flatMap_cons, List.flatMap_cons, List.append_assoc, List.append_assoc] at h
      obtain ⟨rfl, hmore⟩ := hread _ _ _ _ hfirst hfirst' h
      obtain ⟨rfl, htail⟩ := ih hrest hrest' hmore
      exact ⟨rfl, htail⟩

end Detent.Lib.Der
