import Mathlib.Tactic.Common

/-!
# Text codecs

A codec writes a value as characters and reads one back from the front of a
text. It is exact when reading what was written returns the value and the rest
of the text, for every rest the codec's stop condition admits: a decimal number
must not be followed by a digit, an optional field not by its own key.
-/
namespace Detent.Lib

variable {α β : Type}

/-- A writer and the reader that undoes it. -/
structure Codec (α : Type) where
  write : α → List Char
  read : List Char → Option (α × List Char)

namespace Codec

/-- Reading what was written returns the value and leaves the rest. -/
def ExactOn (c : Codec α) (stop : List Char → Prop) : Prop :=
  ∀ a rest, stop rest → c.read (c.write a ++ rest) = some (a, rest)

/-- Any text may follow. -/
def anything (_ : List Char) : Prop := True

/-- The texts that do not go on with a digit. -/
def notDigit (rest : List Char) : Prop := ∀ c, rest.head? = some c → c.isDigit = false

variable {stop : List Char → Prop}

theorem ExactOn.weaken {c : Codec α} {stop' : List Char → Prop} (h : c.ExactOn stop)
    (hsub : ∀ rest, stop' rest → stop rest) : c.ExactOn stop' :=
  fun a rest hrest => h a rest (hsub rest hrest)

/-- The text after `key`, when the text starts with it. -/
def strip : (key text : List Char) → Option (List Char)
  | [], text => some text
  | _ :: _, [] => none
  | k :: key, c :: text => if k = c then strip key text else none

@[simp] theorem strip_append (key rest : List Char) : strip key (key ++ rest) = some rest := by
  induction key with
  | nil => rfl
  | cons k key ih => simp [strip, ih]

/-- A value after a fixed key. -/
def keyed (key : List Char) (c : Codec α) : Codec α where
  write a := key ++ c.write a
  read text := (strip key text).bind c.read

theorem keyed_exact (key : List Char) {c : Codec α} (h : c.ExactOn stop) :
    (keyed key c).ExactOn stop := by
  intro a rest hrest
  simp only [keyed, List.append_assoc, strip_append, Option.bind_some]
  exact h a rest hrest

/-- A value after its key, or nothing at all. -/
def optional (key : List Char) (c : Codec α) : Codec (Option α) where
  write
    | none => []
    | some a => key ++ c.write a
  read text :=
    match strip key text with
    | none => some (none, text)
    | some text => (c.read text).map (fun p => (some p.1, p.2))

theorem optional_exact (key : List Char) {c : Codec α} (h : c.ExactOn stop) :
    (optional key c).ExactOn (fun rest => stop rest ∧ strip key rest = none) := by
  rintro (_ | a) rest ⟨hstop, hkey⟩
  · simp [optional, hkey]
  · simp [optional, h a rest hstop]

/-- Two values, one after the other. -/
def pair (c : Codec α) (d : Codec β) : Codec (α × β) where
  write p := c.write p.1 ++ d.write p.2
  read text := (c.read text).bind (fun p => (d.read p.2).map (fun q => ((p.1, q.1), q.2)))

theorem pair_exact {c : Codec α} {d : Codec β} {stop' : List Char → Prop} (hc : c.ExactOn stop)
    (hd : d.ExactOn stop') (hmeet : ∀ b rest, stop' rest → stop (d.write b ++ rest)) :
    (pair c d).ExactOn stop' := by
  rintro ⟨a, b⟩ rest hrest
  simp only [pair, List.append_assoc, hc a _ (hmeet b rest hrest), Option.bind_some,
    hd b rest hrest, Option.map_some]

/-- A codec for a type through another one. -/
def through (c : Codec α) (enc : β → α) (dec : α → Option β) : Codec β where
  write b := c.write (enc b)
  read text := (c.read text).bind (fun p => (dec p.1).map (fun b => (b, p.2)))

theorem through_exact {c : Codec α} {enc : β → α} {dec : α → Option β} (hc : c.ExactOn stop)
    (hdec : ∀ b, dec (enc b) = some b) : (through c enc dec).ExactOn stop := by
  intro b rest hrest
  simp only [through, hc (enc b) rest hrest, Option.bind_some, hdec, Option.map_some]

/-- A value followed by a fixed text. -/
def closed (c : Codec α) (close : List Char) : Codec α where
  write a := c.write a ++ close
  read text := (c.read text).bind (fun p => (strip close p.2).map (fun rest => (p.1, rest)))

theorem closed_exact {c : Codec α} {close : List Char} (hc : c.ExactOn stop)
    (hmeet : ∀ rest, stop (close ++ rest)) : (closed c close).ExactOn anything := by
  intro a rest _
  simp only [closed, List.append_assoc, hc a _ (hmeet rest), Option.bind_some, strip_append,
    Option.map_some]

/-- A decimal number. -/
def nat : Codec Nat where
  write n := Nat.toDigits 10 n
  read text :=
    let digits := text.takeWhile Char.isDigit
    if digits = [] then none
    else some (Nat.ofDigitChars 10 digits 0, text.dropWhile Char.isDigit)

theorem nat_exact : nat.ExactOn notDigit := by
  intro n rest hrest
  have hall : ∀ c ∈ Nat.toDigits 10 n, c.isDigit = true :=
    fun c hc => Nat.isDigit_of_mem_toDigits (by decide) (by decide) hc
  have htake : rest.takeWhile Char.isDigit = [] := by
    cases rest with
    | nil => rfl
    | cons c rest => simp [hrest c rfl]
  have hdrop : rest.dropWhile Char.isDigit = rest := by
    cases rest with
    | nil => rfl
    | cons c rest => simp [hrest c rfl]
  have hne : Nat.toDigits 10 n ≠ [] := Nat.toDigits_ne_nil
  simp only [nat, List.takeWhile_append_of_pos hall, List.dropWhile_append_of_pos hall, htake,
    hdrop, List.append_nil, hne, if_false, Nat.ofDigitChars_ten_toDigits]

/-- A number below a bound. -/
def fin (n : Nat) : Codec (Fin n) :=
  through nat Fin.val (fun v => if h : v < n then some ⟨v, h⟩ else none)

theorem fin_exact (n : Nat) : (fin n).ExactOn notDigit :=
  through_exact nat_exact (fun b => by simp [b.isLt])

/-- No text the codec writes holds the character. -/
def Avoids (c : Codec α) (x : Char) : Prop := ∀ a, x ∉ c.write a

variable {x : Char}

theorem keyed_avoids {key : List Char} {c : Codec α} (hkey : x ∉ key) (h : c.Avoids x) :
    (keyed key c).Avoids x := by
  intro a
  simp only [keyed, List.mem_append, not_or]
  exact ⟨hkey, h a⟩

theorem optional_avoids {key : List Char} {c : Codec α} (hkey : x ∉ key) (h : c.Avoids x) :
    (optional key c).Avoids x := by
  rintro (_ | a)
  · exact List.not_mem_nil
  · exact keyed_avoids hkey h a

theorem pair_avoids {c : Codec α} {d : Codec β} (hc : c.Avoids x) (hd : d.Avoids x) :
    (pair c d).Avoids x := by
  rintro ⟨a, b⟩
  simp only [pair, List.mem_append, not_or]
  exact ⟨hc a, hd b⟩

theorem through_avoids {c : Codec α} {enc : β → α} {dec : α → Option β} (hc : c.Avoids x) :
    (through c enc dec).Avoids x :=
  fun b => hc (enc b)

theorem closed_avoids {c : Codec α} {close : List Char} (hc : c.Avoids x) (hclose : x ∉ close) :
    (closed c close).Avoids x := by
  intro a
  simp only [closed, List.mem_append, not_or]
  exact ⟨hc a, hclose⟩

theorem nat_avoids (hx : x.isDigit = false) : nat.Avoids x := by
  intro n hmem
  have := Nat.isDigit_of_mem_toDigits (by decide) (by decide) hmem
  simp [hx] at this

end Codec

end Detent.Lib
