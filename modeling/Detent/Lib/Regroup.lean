import Mathlib.Data.Nat.Digits.Lemmas

/-!
# Digits of another width

A number written in digits of `w` bits, the highest first, is written again in digits of `v` bits.
A regrouping takes the digits one by one into a buffer and emits a digit as soon as the buffer
holds enough bits. Padded with zero bits to a whole digit, the result determines its input.
-/
namespace Detent.Lib.Regroup

/-- The number that digits of `width` bits write. -/
def number (width : Nat) (digits : List Nat) : Nat := Nat.ofDigits (2 ^ width) digits.reverse

theorem number_snoc (width : Nat) (digits : List Nat) (digit : Nat) :
    number width (digits ++ [digit]) = number width digits * 2 ^ width + digit := by
  rw [number, List.reverse_concat, Nat.ofDigits_cons, Nat.mul_comm, Nat.add_comm]
  rfl

/-- As many digits that write the same number are the same. -/
theorem number_inj {width : Nat} (hwidth : 0 < width) {a b : List Nat}
    (hlength : a.length = b.length) (ha : ∀ d ∈ a, d < 2 ^ width) (hb : ∀ d ∈ b, d < 2 ^ width)
    (h : number width a = number width b) : a = b := by
  have hbase : 1 < 2 ^ width := Nat.one_lt_two_pow (by omega)
  refine List.reverse_inj.mp (Nat.ofDigits_inj_of_len_eq hbase (by simpa using hlength) ?_ ?_ h)
  · exact fun d hd => ha d (List.mem_reverse.mp hd)
  · exact fun d hd => hb d (List.mem_reverse.mp hd)

/-- Digits of `w` bits that were read as digits of `v` bits and `bits` more bits, which spell
`pending`. -/
structure Regrouped (w v : Nat) (input output : List Nat) (bits pending : Nat) : Prop where
  count : w * input.length = v * output.length + bits
  number_eq : number w input = number v output * 2 ^ bits + pending
  low : pending < 2 ^ bits
  digits : ∀ d ∈ output, d < 2 ^ v

section Steps

variable {w v : Nat} {input output : List Nat} {bits pending : Nat}

theorem regrouped_start (w v : Nat) : Regrouped w v [] [] 0 0 where
  count := rfl
  number_eq := rfl
  low := Nat.one_pos
  digits _ hd := absurd hd List.not_mem_nil

/-- A digit comes into the buffer. -/
theorem Regrouped.feed (h : Regrouped w v input output bits pending) {digit : Nat}
    (hdigit : digit < 2 ^ w) :
    Regrouped w v (input ++ [digit]) output (bits + w) (pending * 2 ^ w + digit) where
  count := by
    have := h.count
    rw [List.length_append, List.length_singleton, Nat.mul_add, Nat.mul_one]
    omega
  number_eq := by
    rw [number_snoc, h.number_eq, Nat.pow_add, Nat.add_mul, Nat.mul_assoc, Nat.add_assoc]
  low := by
    have := h.low
    rw [Nat.pow_add]
    calc pending * 2 ^ w + digit < pending * 2 ^ w + 2 ^ w := by omega
      _ = (pending + 1) * 2 ^ w := by rw [Nat.add_mul, Nat.one_mul]
      _ ≤ 2 ^ bits * 2 ^ w := Nat.mul_le_mul_right _ h.low
  digits := h.digits

/-- A digit leaves it. -/
theorem Regrouped.emit (h : Regrouped w v input output (bits + v) pending) :
    Regrouped w v input (output ++ [pending / 2 ^ bits]) bits (pending % 2 ^ bits) where
  count := by
    have := h.count
    rw [List.length_append, List.length_singleton, Nat.mul_add, Nat.mul_one]
    omega
  number_eq := by
    have hsplit := Nat.div_add_mod pending (2 ^ bits)
    rw [h.number_eq, number_snoc, Nat.pow_add, Nat.add_mul, Nat.add_assoc]
    congr 1
    · rw [Nat.mul_assoc, Nat.mul_comm (2 ^ v)]
    · rw [Nat.mul_comm, hsplit]
  low := Nat.mod_lt _ (Nat.two_pow_pos bits)
  digits := by
    intro d hd
    rcases List.mem_append.mp hd with hd | hd
    · exact h.digits d hd
    · rw [List.mem_singleton.mp hd]
      refine Nat.div_lt_of_lt_mul ?_
      rw [← Nat.pow_add]
      exact h.low

end Steps

theorem le_of_mul_lt {k a b : Nat} (h : k * a < k * b + k) : a ≤ b := by
  rw [← Nat.mul_succ] at h
  exact Nat.le_of_lt_succ (Nat.lt_of_mul_lt_mul_left h)

/-- `packed` writes the input, padded with zero bits to a whole digit. -/
structure Packs (w v : Nat) (input packed : List Nat) : Prop where
  digits : ∀ d ∈ packed, d < 2 ^ v
  enough : w * input.length ≤ v * packed.length
  short : v * packed.length < w * input.length + v
  number_eq : number v packed = number w input * 2 ^ (v * packed.length - w * input.length)

section Packs

variable {w v : Nat} {input output packed : List Nat} {bits pending : Nat}

/-- A regrouping that leaves no bits over. -/
theorem Regrouped.packs (h : Regrouped w v input output 0 pending) (hv : 0 < v) :
    Packs w v input output where
  digits := h.digits
  enough := h.count.le
  short := by
    have := h.count
    omega
  number_eq := by
    have hlow := h.low
    have hnumber := h.number_eq
    have hcount : v * output.length - w * input.length = 0 := by
      have := h.count
      omega
    rw [hcount, hnumber]
    simp only [Nat.pow_zero] at hlow ⊢
    omega

/-- The bits left over, padded to a digit. -/
theorem Regrouped.packs_pad (h : Regrouped w v input output bits pending) (hbits : 0 < bits)
    (hv : bits < v) : Packs w v input (output ++ [pending * 2 ^ (v - bits)]) where
  digits := by
    intro d hd
    rcases List.mem_append.mp hd with hd | hd
    · exact h.digits d hd
    · rw [List.mem_singleton.mp hd]
      calc pending * 2 ^ (v - bits) < 2 ^ bits * 2 ^ (v - bits) :=
            Nat.mul_lt_mul_of_pos_right h.low (Nat.two_pow_pos _)
        _ = 2 ^ v := by rw [← Nat.pow_add, Nat.add_sub_cancel' hv.le]
  enough := by
    have := h.count
    rw [List.length_append, List.length_singleton, Nat.mul_add, Nat.mul_one]
    omega
  short := by
    have := h.count
    rw [List.length_append, List.length_singleton, Nat.mul_add, Nat.mul_one]
    omega
  number_eq := by
    have hcount := h.count
    have hpad : v * (output ++ [pending * 2 ^ (v - bits)]).length - w * input.length =
        v - bits := by
      rw [List.length_append, List.length_singleton, Nat.mul_add, Nat.mul_one]
      omega
    rw [hpad, number_snoc, h.number_eq, Nat.add_mul, Nat.mul_assoc, ← Nat.pow_add,
      Nat.add_sub_cancel' hv.le]

/-- Digits that are regrouped back, with zero bits left over. -/
theorem Regrouped.packs_back (h : Regrouped v w packed output bits 0) (hbits : bits < v)
    (hdigits : ∀ d ∈ packed, d < 2 ^ v) : Packs w v output packed := by
  have hcount := h.count
  have hpad : v * packed.length - w * output.length = bits := by omega
  refine ⟨hdigits, by omega, by omega, ?_⟩
  rw [hpad, h.number_eq, Nat.add_zero]

/-- The digits of an input. -/
theorem Packs.unique {packed' : List Nat} (hv : 0 < v) (h : Packs w v input packed)
    (h' : Packs w v input packed') : packed = packed' := by
  have hlength : packed.length = packed'.length := by
    have henough := h.enough
    have hshort := h.short
    have henough' := h'.enough
    have hshort' := h'.short
    exact Nat.le_antisymm (le_of_mul_lt (k := v) (by omega)) (le_of_mul_lt (k := v) (by omega))
  have hnumber := h.number_eq
  rw [hlength, ← h'.number_eq] at hnumber
  exact number_inj hv hlength h.digits h'.digits hnumber

/-- A regrouping back of an input's digits ends with the input and zero bits. -/
theorem Packs.back (h : Packs w v input packed) (hv : v ≤ w) (hw : 0 < w)
    (hinput : ∀ d ∈ input, d < 2 ^ w) (hback : Regrouped v w packed output bits pending)
    (hbits : bits < w) : output = input ∧ bits < v ∧ pending = 0 := by
  have henough := h.enough
  have hshort := h.short
  have hcount := hback.count
  have hlength : output.length = input.length := by
    exact Nat.le_antisymm (le_of_mul_lt (k := w) (by omega)) (le_of_mul_lt (k := w) (by omega))
  have hpad : v * packed.length - w * input.length = bits := by
    rw [hlength] at hcount
    omega
  have hnumber := h.number_eq
  rw [hpad, hback.number_eq] at hnumber
  have hlow := hback.low
  have hpending : pending = 0 := by
    have hmod := congrArg (· % 2 ^ bits) hnumber
    simp only [Nat.mul_add_mod_self_right, Nat.mul_mod_left, Nat.mod_eq_of_lt hlow] at hmod
    exact hmod
  rw [hpending, Nat.add_zero] at hnumber
  refine ⟨?_, by omega, hpending⟩
  exact number_inj hw hlength hback.digits hinput
    (Nat.eq_of_mul_eq_mul_right (Nat.two_pow_pos bits) hnumber)

end Packs

end Detent.Lib.Regroup
