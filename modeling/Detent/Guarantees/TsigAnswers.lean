import Detent.Guarantees.TsigBinding

/-!
# Signed answers are accepted

What a server signs as an answer to a request passes the check of that request: the
record is found behind the message, its fields are read as they were written, and the
bytes its MAC is taken of are built again.
-/
namespace Detent.Guarantees.TsigAnswers
open Lib Source.Tsig TsigSkips TsigBinding
open List (append_assoc flatMap_cons length_append length_cons length_nil)
open UInt8 (ofNat)

/-- The bytes hold `piece` from an offset on. -/
def Holds (bytes : ByteList) (at_ : Nat) (piece : ByteList) : Prop :=
  ∃ before after, bytes = before ++ piece ++ after ∧ before.length = at_

section Pieces
variable {bytes first second piece : ByteList} {at_ n : Nat}

theorem Holds.left (h : Holds bytes at_ (first ++ second)) : Holds bytes at_ first := by
  obtain ⟨before, after, rfl, rfl⟩ := h
  exact ⟨before, second ++ after, by simp, rfl⟩

theorem Holds.right (h : Holds bytes at_ (first ++ second)) :
    Holds bytes (at_ + first.length) second := by
  obtain ⟨before, after, rfl, rfl⟩ := h
  exact ⟨before ++ first, after, by simp, by simp⟩

theorem Holds.length (h : Holds bytes at_ piece) : at_ + piece.length ≤ bytes.length := by
  obtain ⟨before, after, rfl, rfl⟩ := h
  simp only [length_append]
  omega

theorem Holds.slice (h : Holds bytes at_ piece) : slice bytes at_ piece.length = .ok piece := by
  have hle := h.length
  obtain ⟨before, after, rfl, rfl⟩ := h
  unfold Source.Tsig.slice
  rw [if_pos hle, append_assoc, List.drop_left, List.take_left]

theorem Holds.head {byte : UInt8} (h : Holds bytes at_ (byte :: piece)) :
    bytes[at_]? = some byte := by
  obtain ⟨before, after, rfl, rfl⟩ := h
  simp

theorem Holds.u16At (h : Holds bytes at_ (u16Bytes n)) (hn : n < 65536) :
    u16At bytes at_ = .ok n := by
  have hboth : Holds bytes at_ ([ofNat (n / 256)] ++ [ofNat n]) := h
  have hlow : Holds bytes (at_ + 1) [ofNat n] := hboth.right
  exact u16At_of_bytes hn h.head hlow.head

theorem Holds.u48At (h : Holds bytes at_ (u48Bytes n)) (hn : n < 281474976710656) :
    u48At bytes at_ = .ok n := by
  have hslice : Source.Tsig.slice bytes at_ 6 = .ok (u48Bytes n) := h.slice
  simp only [Source.Tsig.u48At, hslice, Except.map]
  simp [beNumber, u48Bytes, u16Bytes]
  omega

end Pieces

def labelBytes (label : ByteList) : ByteList := ofNat label.length :: label

theorem length_label (label rest : ByteList) :
    (labelBytes label ++ rest).length = 1 + label.length + rest.length := by
  simp only [labelBytes, length_append, length_cons]
  omega

/-- No label is empty and none is longer than 63 bytes. -/
def LabelsFit (labels : List ByteList) : Prop :=
  ∀ label ∈ labels, 0 < label.length ∧ label.length < 64

/-- What ends a name: the root, or a pointer. -/
def endingBytes : Option (UInt8 × UInt8) → ByteList
  | none => [0]
  | some (high, low) => [high, low]

/-- A name of a message. -/
structure WireName where
  labels : List ByteList
  fit : LabelsFit labels
  pointer : Option (UInt8 × UInt8)
  points : ∀ p, pointer = some p → 0xc0 ≤ p.1

def WireName.bytes (name : WireName) : ByteList :=
  name.labels.flatMap labelBytes ++ endingBytes name.pointer

/-- A length byte is neither the end of a name nor a pointer. -/
theorem length_byte {n : Nat} (hpos : 0 < n) (hlt : n < 64) :
    ofNat n ≠ 0 ∧ ¬ 0xc0 ≤ ofNat n ∧ ¬ 0x40 ≤ ofNat n ∧
      (ofNat n).toNat = n := by
  have hvalue : (ofNat n).toNat = n := toNat_ofNat_of_lt (by omega)
  simp only [UInt8.le_iff_toNat_le, hvalue, ne_eq, ← UInt8.toNat_inj]
  simp
  omega

theorem LabelsFit.tail {label : ByteList} {labels : List ByteList}
    (h : LabelsFit (label :: labels)) : LabelsFit labels :=
  fun next hnext => h next (List.mem_cons_of_mem _ hnext)

theorem skipLabels_holds (labels : List ByteList) {pointer : Option (UInt8 × UInt8)}
    (hfit : LabelsFit labels) (hpoints : ∀ p, pointer = some p → 0xc0 ≤ p.1) {bytes : ByteList}
    {at_ fuel : Nat} (h : Holds bytes at_ (labels.flatMap labelBytes ++ endingBytes pointer))
    (hfuel : labels.length < fuel) :
    skipLabels bytes fuel at_ =
      .ok (at_ + (labels.flatMap labelBytes ++ endingBytes pointer).length) := by
  induction labels generalizing at_ fuel with
  | nil =>
    obtain ⟨more, rfl⟩ : ∃ more, fuel = more + 1 := ⟨fuel - 1, by simp at hfuel; omega⟩
    cases pointer with
    | none =>
      have hbyte : bytes[at_]? = some 0 := Holds.head h
      simp [skipLabels, hbyte, endingBytes]
    | some p =>
      have hhigh := hpoints p rfl
      have hzero : p.1 ≠ 0 := by
        intro hzero
        rw [hzero] at hhigh
        exact absurd hhigh (by decide)
      have hbyte : bytes[at_]? = some p.1 := Holds.head h
      have hslice : slice bytes at_ 2 = .ok [p.1, p.2] := Holds.slice h
      simp [skipLabels, hbyte, endingBytes, hzero, hhigh, hslice,
        Except.map]
  | cons label labels ih =>
    obtain ⟨more, rfl⟩ : ∃ more, fuel = more + 1 := ⟨fuel - 1, by simp at hfuel; omega⟩
    obtain ⟨hzero, hpointer, hlabel, hvalue⟩ := length_byte (hfit label (by simp)).1
      (hfit label (by simp)).2
    rw [flatMap_cons, append_assoc] at h ⊢
    have hrest := ih hfit.tail h.right (by simp at hfuel; omega : labels.length < more)
    have hhead : bytes[at_]? = some (ofNat label.length) :=
      Holds.head h.left
    have hnext : at_ + (labelBytes label).length = at_ + 1 + label.length := by
      simp only [labelBytes, length_cons]
      omega
    rw [hnext] at hrest
    simp only [skipLabels, hhead, if_neg hzero, if_neg hpointer, if_neg hlabel, hvalue, hrest,
      length_label]
    congr 1
    omega

theorem length_le_flatMap (labels : List ByteList) :
    labels.length ≤ (labels.flatMap labelBytes).length := by
  induction labels with
  | nil => simp
  | cons label labels ih =>
    simp only [flatMap_cons, length_append, length_cons, labelBytes] at ih ⊢
    omega

theorem skipName_holds {name : WireName} {bytes : ByteList} {at_ : Nat}
    (h : Holds bytes at_ name.bytes) : skipName bytes at_ = .ok (at_ + name.bytes.length) := by
  have hinside := h.length
  have hmany := length_le_flatMap name.labels
  refine skipLabels_holds name.labels name.fit name.points h ?_
  simp only [WireName.bytes, length_append] at hinside
  omega

/-- The bytes of a name that is not shortened. -/
def nameBytes (name : Text) : ByteList :=
  ((name.splitOn '.').map utf8).flatMap labelBytes ++ [0]

def NameFits (name : Text) : Prop := LabelsFit ((name.splitOn '.').map utf8)

theorem encodeLabels_fits (name : Text) (labels : List Text) (hfit : LabelsFit (labels.map utf8)) :
    encodeLabels name labels = .ok ((labels.map utf8).flatMap labelBytes ++ [0]) := by
  induction labels with
  | nil => rfl
  | cons label labels ih =>
    have hlabel := (hfit (utf8 label) (by simp)).2
    simp only [encodeLabels, if_neg (by omega : ¬ 256 ≤ (utf8 label).length), ih hfit.tail, bind,
      Except.bind]
    simp [labelBytes]

theorem encodeName_fits {name : Text} (hfit : NameFits name) :
    encodeName name = .ok (nameBytes name) :=
  encodeLabels_fits name _ hfit

theorem readLabels_holds (labels : List Text) (hfit : LabelsFit (labels.map utf8))
    {bytes : ByteList} {at_ fuel : Nat} {seen : List Text}
    (h : Holds bytes at_ ((labels.map utf8).flatMap labelBytes ++ [0]))
    (hfuel : labels.length < fuel) :
    readLabels bytes fuel at_ none seen = .ok (Text.join ['.'] (seen ++ labels),
      at_ + ((labels.map utf8).flatMap labelBytes ++ [0]).length) := by
  induction labels generalizing at_ fuel seen with
  | nil =>
    obtain ⟨more, rfl⟩ : ∃ more, fuel = more + 1 := ⟨fuel - 1, by simp at hfuel; omega⟩
    have hbyte : bytes[at_]? = some 0 := Holds.head h
    simp [readLabels, hbyte]
  | cons label labels ih =>
    obtain ⟨more, rfl⟩ : ∃ more, fuel = more + 1 := ⟨fuel - 1, by simp at hfuel; omega⟩
    obtain ⟨hzero, hpointer, hlabel, hvalue⟩ := length_byte (hfit (utf8 label) (by simp)).1
      (hfit (utf8 label) (by simp)).2
    rw [List.map_cons, flatMap_cons, append_assoc] at h ⊢
    have hrest := @ih hfit.tail _ more (seen ++ [label]) h.right (by simp at hfuel; omega)
    have hhead : bytes[at_]? = some (ofNat (utf8 label).length) :=
      Holds.head h.left
    have hlabelBytes : Holds bytes at_ ([ofNat (utf8 label).length] ++ utf8 label) := h.left
    have hslice : slice bytes (at_ + 1) (utf8 label).length = .ok (utf8 label) :=
      hlabelBytes.right.slice
    have hnext : at_ + (labelBytes (utf8 label)).length = at_ + 1 + (utf8 label).length := by
      simp only [labelBytes, length_cons]
      omega
    rw [hnext] at hrest
    simp only [readLabels, hhead, if_neg hzero, if_neg hpointer, if_neg hlabel, hvalue, hslice,
      fromUtf8Lossy_utf8, hrest, length_label, append_assoc, List.singleton_append, bind,
      Except.bind]
    congr 2
    omega

theorem readName_holds {name : Text} (hfit : NameFits name) {bytes : ByteList} {at_ fuel : Nat}
    (h : Holds bytes at_ (nameBytes name)) (hfuel : bytes.length < fuel) :
    readName fuel bytes at_ = .ok (name, at_ + (nameBytes name).length) := by
  have hinside := h.length
  have hmany := length_le_flatMap ((name.splitOn '.').map utf8)
  simp only [nameBytes, length_append, List.length_map] at hinside hmany
  have hread := @readLabels_holds (name.splitOn '.') hfit bytes at_ fuel [] h (by omega)
  rw [List.nil_append, Text.join_splitOn] at hread
  exact hread

theorem length_pos_utf8 {t : Text} (h : t ≠ []) : 0 < (utf8 t).length := by
  cases t with
  | nil => exact absurd rfl h
  | cons c t =>
    have hsize := Char.utf8Size_pos c
    simp only [utf8, flatMap_cons, length_append, String.length_utf8EncodeChar]
    omega

/-- The name of a key is a checked one, and lower case keeps the lengths of its labels. -/
theorem key_name_fits (key : Key) : NameFits key.name := by
  have hchecked := key.checked
  simp only [validateFqdn, Bool.and_eq_true, List.all_eq_true] at hchecked
  obtain ⟨-, hlabels⟩ := hchecked
  intro label hlabel
  rw [Key.name, Text.splitOn_toAsciiLowercase, List.map_map, List.mem_map] at hlabel
  obtain ⟨given, hgiven, rfl⟩ := hlabel
  have hgood := hlabels given hgiven
  simp only [Bool.not_eq_true', List.isEmpty_eq_false_iff, decide_eq_true_eq] at hgood
  simp only [Function.comp_apply, length_utf8_toAsciiLowercase]
  have hpos := length_pos_utf8 hgood.1.1
  omega

theorem algorithm_name_fits (algorithm : Algorithm) : NameFits algorithm.name := by
  cases algorithm <;> unfold NameFits LabelsFit <;> decide

/-- A question: a name, a type and a class. -/
structure Question where
  name : WireName
  fields : ByteList
  four : fields.length = 4

def Question.bytes (question : Question) : ByteList := question.name.bytes ++ question.fields

/-- A record: a name, a type, a class, a time to live, and the data behind their length. -/
structure Record where
  name : WireName
  fields : ByteList
  eight : fields.length = 8
  data : ByteList
  short : data.length < 65536

def Record.bytes (record : Record) : ByteList :=
  record.name.bytes ++ (record.fields ++ (u16Bytes record.data.length ++ record.data))

/-- A response before it is signed: it has the QR bit and no error, and its counts are
those of its sections. -/
structure Unsigned where
  id : Nat
  flags : Nat
  questions : List Question
  answers : List Record
  authorities : List Record
  id_lt : id < 65536
  flags_lt : flags < 65536
  response : flags &&& 0x8000 ≠ 0
  noError : flags &&& 0x000f = 0
  questions_lt : questions.length < 65536
  answers_lt : answers.length < 65536
  authorities_lt : authorities.length < 65536

def Unsigned.sections (m : Unsigned) : ByteList :=
  m.questions.flatMap Question.bytes ++ (m.answers ++ m.authorities).flatMap Record.bytes

/-- The message with a count of additional records. -/
def Unsigned.bytes (m : Unsigned) (arcount : Nat) : ByteList :=
  u16Bytes m.id ++ u16Bytes m.flags ++ u16Bytes m.questions.length ++
    u16Bytes m.answers.length ++ u16Bytes m.authorities.length ++ u16Bytes arcount ++ m.sections

theorem skipQuestion_holds {question : Question} {bytes : ByteList} {at_ : Nat}
    (h : Holds bytes at_ question.bytes) :
    skipQuestion bytes at_ = .ok (at_ + question.bytes.length) := by
  simp only [skipQuestion, skipName_holds h.left, Except.map, Question.bytes, length_append,
    question.four, Nat.add_assoc]

theorem skipRecord_holds {record : Record} {bytes : ByteList} {at_ : Nat}
    (h : Holds bytes at_ record.bytes) :
    skipRecord bytes at_ = .ok (at_ + record.bytes.length) := by
  have hinside := h.length
  have hrest := h.right.right
  rw [record.eight] at hrest
  have hlen := Holds.u16At hrest.left record.short
  have htotal : record.bytes.length = record.name.bytes.length + 8 + 2 + record.data.length := by
    simp only [Record.bytes, length_append, record.eight, u16Bytes, length_cons,
      length_nil]
    omega
  simp only [skipRecord, skipName_holds h.left, hlen, bind, Except.bind]
  rw [if_neg (by omega), htotal]
  congr 1
  omega

theorem repeatSkip_holds {α : Type} {write : α → ByteList} {bytes : ByteList}
    {skip : Nat → Except Failure Nat}
    (hskip : ∀ item at_, Holds bytes at_ (write item) → skip at_ = .ok (at_ + (write item).length))
    (items : List α) {at_ : Nat} (h : Holds bytes at_ (items.flatMap write)) :
    repeatSkip skip items.length at_ = .ok (at_ + (items.flatMap write).length) := by
  induction items generalizing at_ with
  | nil => rfl
  | cons item items ih =>
    rw [flatMap_cons] at h ⊢
    have hfirst := hskip item at_ h.left
    have hrest := ih h.right
    simp only [length_cons, repeatSkip, hfirst, hrest, bind, Except.bind, length_append,
      Nat.add_assoc]

section Header
variable {m : Unsigned} {bytes : ByteList} {arcount : Nat}

/-- The fields of the header, and the sections behind it. -/
theorem header_holds (h : Holds bytes 0 (m.bytes arcount)) (harcount : arcount < 65536) :
    u16At bytes 0 = .ok m.id ∧ u16At bytes 2 = .ok m.flags ∧
      u16At bytes 4 = .ok m.questions.length ∧ u16At bytes 6 = .ok m.answers.length ∧
      u16At bytes 8 = .ok m.authorities.length ∧ u16At bytes arcountAt = .ok arcount ∧
      Holds bytes headerLen m.sections := by
  unfold Unsigned.bytes at h
  exact ⟨Holds.u16At h.left.left.left.left.left.left m.id_lt,
    Holds.u16At h.left.left.left.left.left.right m.flags_lt,
    Holds.u16At h.left.left.left.left.right m.questions_lt,
    Holds.u16At h.left.left.left.right m.answers_lt,
    Holds.u16At h.left.left.right m.authorities_lt, Holds.u16At h.left.right harcount, h.right⟩

theorem length_bytes : (m.bytes arcount).length = headerLen + m.sections.length := by
  simp only [Unsigned.bytes, length_append, u16Bytes, length_cons, length_nil,
    headerLen]

/-- The record that follows the sections is found behind them. -/
theorem skipToTsig_holds (h : Holds bytes 0 (m.bytes 1)) :
    skipToTsig bytes 1 = .ok (m.bytes 1).length := by
  obtain ⟨-, -, hquestions, hanswers, hauthorities, -, hsections⟩ := header_holds h (by decide)
  have hfirst := repeatSkip_holds (fun _ _ hitem => skipQuestion_holds hitem) m.questions
    hsections.left
  have hsecond := repeatSkip_holds (fun _ _ hitem => skipRecord_holds hitem)
    (m.answers ++ m.authorities) hsections.right
  rw [length_append] at hsecond
  unfold skipQuestion at hfirst
  simp only [skipToTsig, hquestions, hanswers, hauthorities, hfirst, bind, Except.bind,
    Nat.sub_self, Nat.add_zero, hsecond, length_bytes, Unsigned.sections, length_append,
    Nat.add_assoc]

end Header

theorem putU16_at (before after : ByteList) (old new : Nat) :
    putU16 (before ++ u16Bytes old ++ after) before.length new =
      .ok (before ++ u16Bytes new ++ after) := by
  have hroom : before.length + 2 ≤ (before ++ u16Bytes old ++ after).length := by
    simp only [length_append, u16Bytes, length_cons, length_nil]
    omega
  have hdrop : (before ++ u16Bytes old ++ after).drop (before.length + 2) = after :=
    List.drop_left' (by simp [u16Bytes])
  rw [putU16, if_pos hroom, hdrop, append_assoc before, List.take_left]

theorem putU16_arcount (m : Unsigned) (old new : Nat) (after : ByteList) :
    putU16 (m.bytes old ++ after) arcountAt new = .ok (m.bytes new ++ after) := by
  have hput := putU16_at (u16Bytes m.id ++ u16Bytes m.flags ++ u16Bytes m.questions.length ++
    u16Bytes m.answers.length ++ u16Bytes m.authorities.length) (m.sections ++ after) old new
  simp only [Unsigned.bytes, append_assoc] at hput ⊢
  exact hput

theorem putU16_id (m : Unsigned) (arcount : Nat) :
    putU16 (m.bytes arcount) 0 m.id = .ok (m.bytes arcount) := by
  have hput := putU16_at [] (u16Bytes m.flags ++ u16Bytes m.questions.length ++
    u16Bytes m.answers.length ++ u16Bytes m.authorities.length ++ u16Bytes arcount ++ m.sections)
    m.id m.id
  simp only [Unsigned.bytes, append_assoc, List.nil_append] at hput ⊢
  exact hput

section Answer
variable (key : Key) (m : Unsigned) (q : ByteList) (t : Nat)

def answerVariables : ByteList :=
  nameBytes key.name ++ u16Bytes classAny ++ [0, 0, 0, 0] ++ nameBytes key.algorithm.name ++
    u48Bytes t ++ u16Bytes fudgeSeconds ++ u16Bytes 0 ++ u16Bytes 0

/-- What the MAC of an answer is taken of. -/
def answerInput : ByteList := u16Bytes q.length ++ q ++ m.bytes 0 ++ answerVariables key t

def answerMac : ByteList := key.hmac (answerInput key m q t)

/-- The data of the record of an answer. -/
def answerData : ByteList :=
  nameBytes key.algorithm.name ++ u48Bytes t ++ u16Bytes fudgeSeconds ++
    u16Bytes (answerMac key m q t).length ++ answerMac key m q t ++ u16Bytes m.id ++
    u16Bytes 0 ++ u16Bytes 0

def answerRecord : ByteList :=
  nameBytes key.name ++ u16Bytes typeTsig ++ u16Bytes classAny ++ u16Bytes 0 ++ u16Bytes 0 ++
    u16Bytes (answerData key m q t).length ++ answerData key m q t

variable {key m q t}

theorem variables_answer (ht : t < 281474976710656) :
    key.variables t fudgeSeconds 0 [] = .ok (answerVariables key t) := by
  have htime : time48 t = .ok (u48Bytes t) := if_neg (by omega)
  have hnone : len16 ([] : ByteList).length = .ok 0 := rfl
  simp only [Key.variables, encodeName_fits (key_name_fits key),
    encodeName_fits (algorithm_name_fits key.algorithm), htime, hnone, bind, Except.bind,
    List.append_nil, answerVariables]

theorem length_algorithm_name (algorithm : Algorithm) : (nameBytes algorithm.name).length = 13 := by
  cases algorithm <;> decide

theorem length_answerData :
    (answerData key m q t).length = (answerMac key m q t).length + 29 := by
  simp only [answerData, length_append, length_algorithm_name, u48Bytes, u16Bytes,
    length_cons, length_nil]
  omega

theorem outputLen_le (algorithm : Algorithm) : algorithm.outputLen ≤ 64 := by
  cases algorithm <;> decide

/-- Signing writes the record behind the message and counts it. -/
theorem signWith_answer (hmac : (answerMac key m q t).length = key.algorithm.outputLen)
    (hq : q.length < 65536) (ht : t < 281474976710656) :
    key.signWith (m.bytes 0) t (some q) =
      .ok (m.bytes 1 ++ answerRecord key m q t, answerMac key m q t) := by
  have hholds : Holds (m.bytes 0) 0 (m.bytes 0) := ⟨[], [], by simp, rfl⟩
  obtain ⟨hid, -, -, -, -, harcount, -⟩ := header_holds hholds (by decide)
  have houtput := outputLen_le key.algorithm
  have hlead : len16 q.length = .ok q.length := if_pos hq
  have htime : time48 t = .ok (u48Bytes t) := if_neg (by omega)
  have hmacLen : len16 (answerMac key m q t).length = .ok (answerMac key m q t).length :=
    if_pos (by omega)
  have hdataLen : len16 (answerData key m q t).length = .ok (answerData key m q t).length :=
    if_pos (by rw [length_answerData]; omega)
  have hput := putU16_arcount m 0 1 (answerRecord key m q t)
  have hmacIs : key.hmac (u16Bytes q.length ++ q ++ m.bytes 0 ++ answerVariables key t) =
      answerMac key m q t := rfl
  have hdata : nameBytes key.algorithm.name ++ u48Bytes t ++ u16Bytes fudgeSeconds ++
      u16Bytes (answerMac key m q t).length ++ answerMac key m q t ++ u16Bytes m.id ++ u16Bytes 0 ++
      u16Bytes 0 = answerData key m q t := rfl
  have hrecord : m.bytes 0 ++ nameBytes key.name ++ u16Bytes typeTsig ++ u16Bytes classAny ++
      [0, 0, 0, 0] ++ u16Bytes (answerData key m q t).length ++ answerData key m q t =
      m.bytes 0 ++ answerRecord key m q t := by
    simp [answerRecord, u16Bytes]
  simp only [Key.signWith, hid, harcount, hlead, variables_answer ht, bind, Except.bind, Except.map,
    ne_eq, not_true_eq_false, if_false, hmacIs, encodeName_fits (algorithm_name_fits key.algorithm),
    encodeName_fits (key_name_fits key), htime, hmacLen, hdata, hdataLen, hrecord, hput]

theorem readTsig_answer {bytes : ByteList} {start fuel : Nat}
    (hskip : skipToTsig bytes 1 = .ok start) (h : Holds bytes start (answerRecord key m q t))
    (hend : bytes.length = start + (answerRecord key m q t).length)
    (hmac : (answerMac key m q t).length < 65000) (ht : t < 281474976710656)
    (hfuel : bytes.length < fuel) :
    key.readTsig fuel bytes 1 =
      .ok ⟨start, t, fudgeSeconds, answerMac key m q t, m.id, 0, []⟩ := by
  have hdataLen := @length_answerData key m q t
  have hmacLen : (answerMac key m q t).length < 65536 := by omega
  have hnamed := readName_holds (key_name_fits key) h.left.left.left.left.left.left hfuel
  simp only [answerRecord, append_assoc] at h
  have hafter := h.right
  generalize hat : start + (nameBytes key.name).length = at_ at hnamed hafter
  have htype : u16At bytes at_ = .ok typeTsig := Holds.u16At hafter.left (by decide)
  have hafter : Holds bytes (at_ + 2) _ := hafter.right
  have hclass : u16At bytes (at_ + 2) = .ok classAny := Holds.u16At hafter.left (by decide)
  have hafter : Holds bytes (at_ + 4) _ := hafter.right
  have hhigh : u16At bytes (at_ + 4) = .ok 0 := Holds.u16At hafter.left (by decide)
  have hafter : Holds bytes (at_ + 6) _ := hafter.right
  have hlow : u16At bytes (at_ + 6) = .ok 0 := Holds.u16At hafter.left (by decide)
  have hafter : Holds bytes (at_ + 8) _ := hafter.right
  have hrdlen := Holds.u16At hafter.left (by omega)
  have hdata : Holds bytes (at_ + 8 + 2) _ := hafter.right
  simp only [answerData, append_assoc] at hdata
  have halgorithm := readName_holds (algorithm_name_fits key.algorithm) hdata.left hfuel
  have hfields := hdata.right
  rw [length_algorithm_name] at halgorithm hfields
  generalize hfrom : at_ + 8 + 2 + 13 = from_ at halgorithm hfields
  have htime : u48At bytes from_ = .ok t := Holds.u48At hfields.left ht
  have hfields : Holds bytes (from_ + 6) _ := hfields.right
  have hfudge : u16At bytes (from_ + 6) = .ok fudgeSeconds := Holds.u16At hfields.left (by decide)
  have hfields : Holds bytes (from_ + 8) _ := hfields.right
  have hlen := Holds.u16At hfields.left hmacLen
  have hfields : Holds bytes (from_ + 10) _ := hfields.right
  have hsigned := Holds.slice hfields.left
  have hfields := hfields.right
  generalize hbehind : from_ + 10 + (answerMac key m q t).length = behind at hfields
  have hid : u16At bytes behind = .ok m.id := Holds.u16At hfields.left m.id_lt
  have hfields : Holds bytes (behind + 2) _ := hfields.right
  have herror : u16At bytes (behind + 2) = .ok 0 := Holds.u16At hfields.left (by decide)
  have hfields : Holds bytes (behind + 4) _ := hfields.right
  have hotherLen : u16At bytes (behind + 4) = .ok 0 := Holds.u16At hfields (by decide)
  have hother : slice bytes bytes.length 0 = .ok [] := if_pos (Nat.le_refl _)
  have hrecord : isTsig bytes at_ = .ok true := by
    simp only [isTsig, htype, hclass, bind, Except.bind, Except.map]
    rfl
  have hrecordLen : (answerRecord key m q t).length =
      (nameBytes key.name).length + 10 + (answerData key m q t).length := by
    simp only [answerRecord, length_append, u16Bytes, length_cons, length_nil]
  have hdataEnd : at_ + 8 + 2 + (answerData key m q t).length = bytes.length := by omega
  have hotherEnd : behind + 6 = bytes.length := by omega
  simp only [Key.readTsig, hskip, hnamed, hrecord, hhigh, hlow, hrdlen, halgorithm, htime, hfudge,
    hlen, hsigned, hbehind, hid, herror, hotherLen, hother, hdataEnd, hotherEnd, eqIgnoreAsciiCase,
    bind, Except.bind, beq_self_eq_true, Bool.not_true, Bool.false_eq_true, if_false, Nat.or_self,
    Nat.add_zero, ne_eq, not_true_eq_false]

theorem macInput_answer {bytes : ByteList} (hq : q.length < 65536) (ht : t < 281474976710656)
    (h : Holds bytes 0 (m.bytes 1)) {mac : ByteList} :
    key.macInput bytes q 1 ⟨(m.bytes 1).length, t, fudgeSeconds, mac, m.id, 0, []⟩ =
      .ok (answerInput key m q t) := by
  have hlen : len16 q.length = .ok q.length := if_pos hq
  have hput := putU16_arcount m 1 0 []
  simp only [List.append_nil] at hput
  simp only [Key.macInput, h.slice, putU16_id, Nat.sub_self, hput, hlen, variables_answer ht, bind,
    Except.bind, answerInput]

/-- The check accepts what was signed. -/
theorem verifyResponse_answer {fuel now : Nat}
    (hmac : (answerMac key m q t).length = key.algorithm.outputLen)
    (hq : q.length < 65536) (ht : t < 281474976710656)
    (hskew : (now - t) + (t - now) ≤ fudgeSeconds)
    (hfuel : (m.bytes 1 ++ answerRecord key m q t).length < fuel) :
    key.verifyResponse fuel (m.bytes 1 ++ answerRecord key m q t) m.id q now = .ok () := by
  have houtput := outputLen_le key.algorithm
  have hmessage : Holds (m.bytes 1 ++ answerRecord key m q t) 0 (m.bytes 1) :=
    ⟨[], answerRecord key m q t, by simp, rfl⟩
  have hrecord : Holds (m.bytes 1 ++ answerRecord key m q t) (m.bytes 1).length
      (answerRecord key m q t) := ⟨m.bytes 1, [], by simp, rfl⟩
  obtain ⟨hid, hflags, -, -, -, harcount, -⟩ := header_holds hmessage (by decide)
  have hread := readTsig_answer (skipToTsig_holds hmessage) hrecord (by simp) (by omega) ht hfuel
  have hinput := @macInput_answer key m q t _ hq ht hmessage (answerMac key m q t)
  have hsame : key.hmac (answerInput key m q t) = answerMac key m q t := rfl
  simp only [Key.verifyResponse, hid, hflags, harcount, hread, hinput, hsame, hmac, m.noError,
    if_neg m.response, if_neg (by omega : ¬ fudgeSeconds < (now - t) + (t - now)), bind,
    Except.bind, ne_eq, not_true_eq_false, if_false, Nat.one_ne_zero]

/-- A message that could be signed has a request MAC and a time that fit. -/
theorem signWith_fits {signed mac : ByteList} {message : ByteList}
    (h : key.signWith message t (some q) = .ok (signed, mac)) :
    q.length < 65536 ∧ t < 281474976710656 := by
  obtain ⟨id, -, h⟩ := ok_of_bind h
  obtain ⟨arcount, -, h⟩ := ok_of_bind h
  obtain ⟨-, h⟩ := check_ok h
  obtain ⟨lead, hlead, h⟩ := ok_of_bind h
  obtain ⟨vars, hvars, h⟩ := ok_of_bind h
  obtain ⟨-, -, -, -, ht, -, -⟩ := variables_ok hvars
  refine ⟨?_, ht⟩
  cases hlen : len16 q.length with
  | error err =>
    simp only [hlen, Except.map] at hlead
    cases hlead
  | ok len => exact (len16_ok hlen).2

end Answer

/-- **Signed answers.** Where the HMAC gives a MAC of its algorithm's length, what is
signed as an answer to a request MAC is accepted for it within the fudge; every request
MAC and time that fit can be signed. Where the HMAC is injective, two answers that are
accepted and carry the same MAC answer the same request MAC, and are equal up to their
records, their ids apart, and in the time signed, the fudge and the other data. -/
theorem signed_answers_accepted_and_bound (key : Key) :
    ((∀ input, (key.hmac input).length = key.algorithm.outputLen) →
      ∀ (m : Unsigned) (q : ByteList) (t : Nat),
        (q.length < 65536 → t < 281474976710656 →
          ∃ signed mac, key.signWith (m.bytes 0) t (some q) = .ok (signed, mac)) ∧
        ∀ signed mac, key.signWith (m.bytes 0) t (some q) = .ok (signed, mac) →
          ∀ now fuel, (now - t) + (t - now) ≤ fudgeSeconds → signed.length < fuel →
            key.verifyResponse fuel signed m.id q now = .ok ()) ∧
    (Function.Injective key.hmac →
      ∀ (fuel fuel' id id' now now' : Nat) (r r' q q' : ByteList) (tsig tsig' : TsigRecord),
        key.verifyResponse fuel r id q now = .ok () →
        key.verifyResponse fuel' r' id' q' now' = .ok () →
        Carries key fuel r tsig → Carries key fuel' r' tsig' → tsig.mac = tsig'.mac →
        q = q' ∧ tsig.start = tsig'.start ∧
          (r.take tsig.start).drop 2 = (r'.take tsig'.start).drop 2 ∧
          tsig.timeSigned = tsig'.timeSigned ∧ tsig.fudge = tsig'.fudge ∧
          tsig.other = tsig'.other) := by
  constructor
  · intro hlen m q t
    constructor
    · intro hq ht
      exact ⟨_, _, signWith_answer (hlen _) hq ht⟩
    · intro signed mac hsigned now fuel hskew hfuel
      obtain ⟨hq, ht⟩ := signWith_fits hsigned
      obtain ⟨rfl, rfl⟩ := Prod.mk.inj (Except.ok.inj
        (hsigned.symm.trans (signWith_answer (hlen _) hq ht)))
      exact verifyResponse_answer (hlen _) hq ht hskew hfuel
  · intro hinj fuel fuel' id id' now now' r r' q q' tsig tsig' hok hok' hcarries hcarries' hmac
    obtain ⟨hq, hstart, hbytes, hrest⟩ := accepted_binding hinj hok hok' hcarries hcarries' hmac
    exact ⟨hq, hstart, hstart ▸ hbytes, hrest⟩

/-! ### An answer of a header alone -/

/-- A key whose MAC is the input itself, which is injective. -/
def echoKey : Key := ⟨"k".toList, by decide, .sha384, id⟩

/-- A key whose MAC is the start of its input, filled up to 48 bytes. -/
def startKey : Key :=
  ⟨"k".toList, by decide, .sha384, fun input => (input ++ List.replicate 48 0).take 48⟩

def emptyAnswer : Unsigned :=
  ⟨7, 0x8000, [], [], [], by decide, by decide, by decide, by decide, by decide, by decide,
    by decide⟩

/-- The answer signed with the key whose MAC is its input: the input has 48 bytes. -/
def echoed : ByteList := emptyAnswer.bytes 1 ++ answerRecord echoKey emptyAnswer [] 1000

/-- The same record behind another message id. -/
def echoedAgain : ByteList := u16Bytes 8 ++ echoed.drop 2

def echoedTsig : TsigRecord :=
  ⟨12, 1000, 300, answerMac echoKey emptyAnswer [] 1000, 7, 0, []⟩

theorem empty_answers_accepted_and_bound :
    (∃ signed mac, startKey.signWith (emptyAnswer.bytes 0) 1000 (some [1, 2, 3]) =
        .ok (signed, mac) ∧
      startKey.verifyResponse (signed.length + 1) signed 7 [1, 2, 3] 1300 = .ok ()) ∧
    echoed ≠ echoedAgain ∧
    (([] : ByteList) = [] ∧ echoedTsig.start = echoedTsig.start ∧
      (echoed.take echoedTsig.start).drop 2 = (echoedAgain.take echoedTsig.start).drop 2 ∧
      echoedTsig.timeSigned = echoedTsig.timeSigned ∧ echoedTsig.fudge = echoedTsig.fudge ∧
      echoedTsig.other = echoedTsig.other) := by
  refine ⟨?_, by decide, ?_⟩
  · obtain ⟨hsign, haccept⟩ := (signed_answers_accepted_and_bound startKey).1
      (fun input => by simp [startKey, Algorithm.outputLen]) emptyAnswer [1, 2, 3] 1000
    obtain ⟨signed, mac, hsigned⟩ := hsign (by decide) (by decide)
    exact ⟨signed, mac, hsigned, haccept signed mac hsigned 1300 _ (by decide) (by omega)⟩
  · exact (signed_answers_accepted_and_bound echoKey).2 Function.injective_id 200 200 7 8 1300 900
      echoed echoedAgain [] [] echoedTsig echoedTsig (by decide) (by decide)
      ⟨1, by decide, by decide⟩ ⟨1, by decide, by decide⟩ rfl

end Detent.Guarantees.TsigAnswers
