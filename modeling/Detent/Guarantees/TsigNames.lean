import Detent.Guarantees.TsigAnswers
import Detent.Lib.Walks

/-!
# Names of a DNS answer

Where the labels and pointers of a name lead, and what name they spell. A pointer leads
back, but the labels behind its target can lead forward to the same pointer, so the loop
of `read_name` ends exactly where the walk over the offsets never returns to one of them.
-/
namespace Detent.Guarantees.TsigNames
open Lib Source.Tsig TsigSkips TsigBinding TsigAnswers

/-- At an offset of a message stands the name of these labels, and its record goes on at
`after`: labels up to the root, or up to a pointer at a name before it. -/
inductive Named (bytes : ByteList) : Nat → List ByteList → Nat → Prop where
  | root {at_ : Nat} : TsigAnswers.Holds bytes at_ [0] → Named bytes at_ [] (at_ + 1)
  | label {at_ after : Nat} {label : ByteList} {labels : List ByteList} :
      0 < label.length → label.length < 64 → TsigAnswers.Holds bytes at_ (labelBytes label) →
      Named bytes (at_ + 1 + label.length) labels after → Named bytes at_ (label :: labels) after
  | pointer {at_ target after : Nat} {high low : UInt8} {labels : List ByteList} :
      TsigAnswers.Holds bytes at_ [high, low] → 0xc0 ≤ high →
      target = (high.toNat - 0xc0) * 256 + low.toNat →
      target < at_ → Named bytes target labels after → Named bytes at_ labels (at_ + 2)

/-- The text of a name: its labels with dots between them. -/
def nameText (labels : List ByteList) : Text := Text.join ['.'] (labels.map fromUtf8Lossy)

/-- The offset at which a name goes on behind the label or the pointer at this one. -/
def hop (bytes : ByteList) (at_ : Nat) : Option Nat :=
  match bytes[at_]? with
  | none => none
  | some len =>
    if len = 0 then none
    else if 0xc0 ≤ len then
      match bytes[at_ + 1]? with
      | none => none
      | some low =>
        let target := (len.toNat - 0xc0) * 256 + low.toNat
        if target < at_ then some target else none
    else if 0x40 ≤ len then none
    else if at_ + 1 + len.toNat ≤ bytes.length then some (at_ + 1 + len.toNat)
    else none

/-- A name goes on from offsets of the message only. -/
theorem hop_inside {bytes : ByteList} {at_ : Nat} (h : (hop bytes at_).isSome = true) :
    at_ ∈ Finset.range bytes.length := by
  rw [Finset.mem_range]
  by_contra houtside
  rw [hop, List.getElem?_eq_none (by omega)] at h
  cases h

theorem pointer_target {high low : UInt8} (h : 0xc0 ≤ high) :
    (high.toNat * 256 + low.toNat) &&& 0x3fff = (high.toNat - 0xc0) * 256 + low.toNat := by
  have hhigh : 192 ≤ high.toNat := h
  have hlt := high.toNat_lt
  have hlt' := low.toNat_lt
  rw [Nat.and_two_pow_sub_one_eq_mod _ 14]
  omega

theorem holds_of_slice {bytes piece : ByteList} {at_ len : Nat}
    (h : slice bytes at_ len = .ok piece) : piece.length = len ∧ TsigAnswers.Holds bytes at_ piece := by
  obtain ⟨hle, rfl⟩ := slice_ok h
  have hlength : ((bytes.drop at_).take len).length = len := by
    rw [List.length_take, List.length_drop]
    omega
  refine ⟨hlength, bytes.take at_, bytes.drop (at_ + len), ?_, ?_⟩
  · rw [List.append_assoc, ← List.drop_drop, List.take_append_drop, List.take_append_drop]
  · rw [List.length_take]
    omega

theorem holds_of_get {bytes : ByteList} {at_ : Nat} {byte : UInt8} (h : bytes[at_]? = some byte) :
    TsigAnswers.Holds bytes at_ [byte] := by
  obtain ⟨hlt, hbyte⟩ := List.getElem?_eq_some_iff.mp h
  have hslice : slice bytes at_ 1 = .ok [byte] := by
    rw [slice, if_pos (by omega), List.drop_eq_getElem_cons hlt, hbyte]
    rfl
  exact (holds_of_slice hslice).2

theorem Holds.append {bytes first second : ByteList} {at_ : Nat} (h : TsigAnswers.Holds bytes at_ first)
    (h' : TsigAnswers.Holds bytes (at_ + first.length) second) :
    TsigAnswers.Holds bytes at_ (first ++ second) := by
  obtain ⟨before, after, rfl, rfl⟩ := h
  obtain ⟨before', after', hsame, hlength⟩ := h'
  obtain ⟨rfl, rfl⟩ := List.append_inj (by rw [hsame, List.append_assoc] :
    before ++ first ++ after = before' ++ (second ++ after')) (by
      rw [List.length_append]
      omega)
  exact ⟨before, after', by simp, rfl⟩

/-- A run whose bound did not end it. -/
def Finishes {α : Type} (run : Except Failure α) : Prop := run ≠ .error .unfinished

theorem finishes_ok {α : Type} (a : α) : Finishes (.ok a : Except Failure α) := by
  nofun

theorem finishes_config {α : Type} (why : String) :
    Finishes (.error (.config why) : Except Failure α) := by
  nofun

theorem finishes_slice (bytes : ByteList) (at_ len : Nat) : Finishes (slice bytes at_ len) := by
  unfold slice
  split
  · exact finishes_ok _
  · exact finishes_config _

theorem Finishes.map {α β : Type} {run : Except Failure α} (h : Finishes run) (f : α → β) :
    Finishes (run.map f) := by
  cases run with
  | error err =>
    intro hsame
    exact h (by rw [Except.map, Except.error.injEq] at hsame; rw [hsame])
  | ok a => exact finishes_ok _

theorem Finishes.bind {α β : Type} {run : Except Failure α} {rest : α → Except Failure β}
    (h : Finishes run) (hrest : ∀ a, run = .ok a → Finishes (rest a)) : Finishes (run >>= rest) := by
  cases run with
  | error err =>
    intro hsame
    exact h (by rw [Except.error.inj hsame])
  | ok a => exact hrest a rfl

theorem Finishes.ite {α : Type} {c : Prop} [Decidable c] {why : String} {rest : Except Failure α}
    (h : ¬ c → Finishes rest) : Finishes (if c then .error (.config why) else rest) := by
  split
  · exact finishes_config _
  · rename_i hc
    exact h hc

theorem finishes_u16At (bytes : ByteList) (at_ : Nat) : Finishes (u16At bytes at_) :=
  (finishes_slice bytes at_ 2).map _

section Loop
variable {bytes : ByteList} {fuel at_ next : Nat} {after : Option Nat} {labels : List Text}

/-- Where the name ends or is refused, the loop does. -/
theorem readLabels_stops (h : hop bytes at_ = none) :
    Finishes (readLabels bytes (fuel + 1) at_ after labels) := by
  unfold hop at h
  unfold readLabels
  cases hbyte : bytes[at_]? with
  | none => exact finishes_config _
  | some len =>
    simp only [hbyte] at h ⊢
    by_cases hzero : len = 0
    · rw [if_pos hzero]
      exact finishes_ok _
    rw [if_neg hzero] at h ⊢
    by_cases hpointer : 0xc0 ≤ len
    · rw [if_pos hpointer] at h ⊢
      refine (finishes_u16At bytes at_).bind (fun pointer hread => ?_)
      obtain ⟨high, low, hhigh, hlow, rfl⟩ := u16At_bytes hread
      obtain rfl : len = high := Option.some.inj (hbyte.symm.trans hhigh)
      simp only [hlow, pointer_target hpointer] at h ⊢
      refine Finishes.ite (fun hback => ?_)
      rw [if_pos (by omega)] at h
      cases h
    rw [if_neg hpointer] at h ⊢
    by_cases hunknown : 0x40 ≤ len
    · rw [if_pos hunknown]
      exact finishes_config _
    rw [if_neg hunknown] at h ⊢
    refine (finishes_slice bytes _ _).bind (fun label hslice => ?_)
    have hinside := (slice_ok hslice).1
    rw [if_pos hinside] at h
    cases h

/-- Where it goes on, the loop goes on at the same offset. -/
theorem readLabels_hops (h : hop bytes at_ = some next) :
    ∃ after' labels', readLabels bytes (fuel + 1) at_ after labels =
      readLabels bytes fuel next after' labels' := by
  unfold hop at h
  rw [readLabels]
  cases hbyte : bytes[at_]? with
  | none =>
    rw [hbyte] at h
    cases h
  | some len =>
    simp only [hbyte] at h ⊢
    by_cases hzero : len = 0
    · rw [if_pos hzero] at h
      cases h
    rw [if_neg hzero] at h ⊢
    by_cases hpointer : 0xc0 ≤ len
    · rw [if_pos hpointer] at h ⊢
      cases hlow : bytes[at_ + 1]? with
      | none =>
        rw [hlow] at h
        cases h
      | some low =>
        simp only [hlow] at h
        split at h
        · rename_i hback
          obtain rfl := Option.some.inj h
          have hread : u16At bytes at_ = .ok (len.toNat * 256 + low.toNat) := by
            have hinside := (List.getElem?_eq_some_iff.mp hlow).1
            simp only [u16At, slice, if_pos (by omega : at_ + 2 ≤ bytes.length),
              take_two hbyte hlow, Except.map]
            simp [beNumber]
          refine ⟨some (after.getD (at_ + 2)), labels, ?_⟩
          simp only [hread, bind, Except.bind, pointer_target hpointer]
          rw [if_neg (by omega)]
        · cases h
    rw [if_neg hpointer] at h ⊢
    by_cases hunknown : 0x40 ≤ len
    · rw [if_pos hunknown] at h
      cases h
    rw [if_neg hunknown] at h ⊢
    split at h
    · rename_i hinside
      obtain rfl := Option.some.inj h
      refine ⟨after, labels ++ [fromUtf8Lossy ((bytes.drop (at_ + 1)).take len.toNat)], ?_⟩
      simp only [slice, if_pos hinside, bind, Except.bind]
    · cases h

/-- The loop is ended by its bound exactly when the walk is as long as the bound. -/
theorem readLabels_unfinished (fuel at_ : Nat) (after : Option Nat) (labels : List Text) :
    ¬ Finishes (readLabels bytes fuel at_ after labels) ↔
      (walk (hop bytes) fuel at_).isSome = true := by
  induction fuel generalizing at_ after labels with
  | zero => simp [Finishes, readLabels, walk]
  | succ fuel ih =>
    rw [walk]
    cases hhop : hop bytes at_ with
    | none => simp [readLabels_stops hhop]
    | some next =>
      obtain ⟨after', labels', hgoes⟩ := @readLabels_hops bytes fuel at_ next after labels hhop
      rw [hgoes, ih, Option.bind_some]

/-- What the loop returns is a name that stands at the offset. -/
theorem readLabels_named {fuel at_ : Nat} {after : Option Nat} {labels : List Text} {name : Text}
    {last : Nat} (h : readLabels bytes fuel at_ after labels = .ok (name, last)) :
    ∃ more last', Named bytes at_ more last' ∧
      name = Text.join ['.'] (labels ++ more.map fromUtf8Lossy) ∧ last = after.getD last' := by
  induction fuel generalizing at_ after labels with
  | zero => cases h
  | succ fuel ih =>
    unfold readLabels at h
    cases hbyte : bytes[at_]? with
    | none =>
      rw [hbyte] at h
      cases h
    | some len =>
      simp only [hbyte] at h
      by_cases hzero : len = 0
      · rw [if_pos hzero] at h
        obtain ⟨rfl, rfl⟩ := Prod.mk.inj (Except.ok.inj h)
        rw [hzero] at hbyte
        exact ⟨[], at_ + 1, .root (holds_of_get hbyte), by simp, rfl⟩
      rw [if_neg hzero] at h
      by_cases hpointer : 0xc0 ≤ len
      · rw [if_pos hpointer] at h
        obtain ⟨pointer, hread, h⟩ := ok_of_bind h
        obtain ⟨high, low, hhigh, hlow, rfl⟩ := u16At_bytes hread
        obtain rfl : len = high := Option.some.inj (hbyte.symm.trans hhigh)
        obtain ⟨hback, h⟩ := check_ok h
        obtain ⟨more, last', hnamed, hname, hlast⟩ := ih h
        rw [pointer_target hpointer] at hback hnamed
        exact ⟨more, at_ + 2, .pointer (Holds.append (holds_of_get hbyte) (holds_of_get hlow))
          hpointer rfl (by omega) hnamed, hname, hlast⟩
      rw [if_neg hpointer] at h
      by_cases hunknown : 0x40 ≤ len
      · rw [if_pos hunknown] at h
        cases h
      rw [if_neg hunknown] at h
      obtain ⟨label, hslice, h⟩ := ok_of_bind h
      obtain ⟨more, last', hnamed, hname, hlast⟩ := ih h
      obtain ⟨hlength, hholds⟩ := holds_of_slice hslice
      have hlt : len.toNat < 64 := by
        rw [UInt8.le_iff_toNat_le] at hunknown
        exact Nat.lt_of_not_le hunknown
      have hpos : len.toNat ≠ 0 := fun hsame => hzero (UInt8.toNat_inj.mp hsame)
      have hbyte' : TsigAnswers.Holds bytes at_ [UInt8.ofNat label.length] := by
        rw [hlength, UInt8.ofNat_toNat]
        exact holds_of_get hbyte
      rw [← hlength] at hnamed
      refine ⟨label :: more, last', .label (by omega) (by omega) (Holds.append hbyte' hholds) hnamed,
        ?_, hlast⟩
      rw [hname, List.append_assoc]
      rfl

end Loop

/-- At an offset with a name the loop returns that name, unless its bound ends it. -/
theorem Named.readLabels {bytes : ByteList} {at_ last : Nat} {more : List ByteList}
    (h : Named bytes at_ more last) (fuel : Nat) (after : Option Nat) (labels : List Text)
    (hfinishes : Finishes (readLabels bytes fuel at_ after labels)) :
    readLabels bytes fuel at_ after labels =
      .ok (Text.join ['.'] (labels ++ more.map fromUtf8Lossy), after.getD last) := by
  induction h generalizing fuel after labels with
  | root hholds =>
    match fuel with
    | 0 => exact absurd rfl hfinishes
    | fuel + 1 => simp [Source.Tsig.readLabels, hholds.head]
  | @label at_ last label more hpos hlt hholds hnamed ih =>
    match fuel with
    | 0 => exact absurd rfl hfinishes
    | fuel + 1 =>
      obtain ⟨hzero, hpointer, hunknown, hvalue⟩ := length_byte hpos hlt
      have hboth : TsigAnswers.Holds bytes at_ ([UInt8.ofNat label.length] ++ label) := hholds
      have hrest : TsigAnswers.Holds bytes (at_ + 1) label := hboth.right
      have hstep : Source.Tsig.readLabels bytes (fuel + 1) at_ after labels =
          Source.Tsig.readLabels bytes fuel (at_ + 1 + label.length) after
            (labels ++ [fromUtf8Lossy label]) := by
        simp only [Source.Tsig.readLabels, hholds.head, if_neg hzero, if_neg hpointer,
          if_neg hunknown, hvalue, hrest.slice, bind, Except.bind]
      rw [hstep] at hfinishes ⊢
      rw [ih _ _ _ hfinishes, List.append_assoc]
      rfl
  | @pointer at_ target last high low more hholds hpointer htarget hback hnamed ih =>
    match fuel with
    | 0 => exact absurd rfl hfinishes
    | fuel + 1 =>
      have hzero : high ≠ 0 := by
        rintro rfl
        exact absurd hpointer (by decide)
      have hread : u16At bytes at_ = .ok (high.toNat * 256 + low.toNat) := by
        have hslice : slice bytes at_ 2 = .ok [high, low] := hholds.slice
        simp [u16At, hslice, Except.map, beNumber]
      have hstep : Source.Tsig.readLabels bytes (fuel + 1) at_ after labels =
          Source.Tsig.readLabels bytes fuel target (some (after.getD (at_ + 2))) labels := by
        simp only [Source.Tsig.readLabels, hholds.head, if_neg hzero, if_pos hpointer, hread, bind,
          Except.bind, pointer_target hpointer, ← htarget]
        rw [if_neg (by omega)]
      rw [hstep] at hfinishes ⊢
      rw [ih _ _ _ hfinishes, Option.getD_some]

theorem readName_unfinished (bytes : ByteList) (fuel start : Nat) :
    ¬ Finishes (readName fuel bytes start) ↔ (walk (hop bytes) fuel start).isSome = true :=
  readLabels_unfinished fuel start none []

/-- A bound longer than the message ends no name but one that returns. -/
theorem readName_finishes {bytes : ByteList} {fuel start : Nat} (hfuel : bytes.length < fuel)
    (h : ¬ Returns (hop bytes) start) : Finishes (readName fuel bytes start) := by
  by_contra hunfinished
  have hsome := (readName_unfinished bytes fuel start).mp hunfinished
  refine h (returns_of_walk_isSome (Finset.range bytes.length) (fun _ => hop_inside) ?_)
  rw [Finset.card_range]
  exact walk_isSome_of_le hfuel hsome

theorem readName_of_returns {bytes : ByteList} {start : Nat} (h : Returns (hop bytes) start)
    (fuel : Nat) : readName fuel bytes start = .error .unfinished := by
  by_contra hfinishes
  exact (readName_unfinished bytes fuel start).mpr (h.walk_isSome fuel) hfinishes

/-- `verify_response` comes to the last record of an answer, and reads its owner: the
header is that of an answer to the request, and counts an additional record. -/
structure OwnerAt (response : ByteList) (requestId start : Nat) : Prop where
  id : u16At response 0 = .ok requestId
  answers : ∃ flags, u16At response 2 = .ok flags ∧ flags &&& 0x8000 ≠ 0
  last : ∃ arcount, u16At response arcountAt = .ok arcount ∧ arcount ≠ 0 ∧
    skipToTsig response arcount = .ok start

/-- It comes to the algorithm of that record: its owner is the key, it is a TSIG record
with no TTL, and it ends the answer. -/
def AlgorithmAt (key : Key) (response : ByteList) (requestId at_ : Nat) : Prop :=
  ∃ start labels after rdlen, OwnerAt response requestId start ∧
    Named response start labels after ∧ eqIgnoreAsciiCase (nameText labels) key.name = true ∧
    isTsig response after = .ok true ∧ u16At response (after + 4) = .ok 0 ∧
    u16At response (after + 6) = .ok 0 ∧ u16At response (after + 8) = .ok rdlen ∧
    after + 8 + 2 + rdlen = response.length ∧ at_ = after + 8 + 2

/-- The offsets at which it comes to read a name. -/
def NameReadAt (key : Key) (response : ByteList) (requestId start : Nat) : Prop :=
  OwnerAt response requestId start ∨ AlgorithmAt key response requestId start

theorem finishes_skipLabels (bytes : ByteList) (fuel at_ : Nat) (hpos : 0 < fuel)
    (hfuel : bytes.length < at_ + fuel) : Finishes (skipLabels bytes fuel at_) := by
  induction fuel generalizing at_ with
  | zero => omega
  | succ fuel ih =>
    unfold skipLabels
    cases hbyte : bytes[at_]? with
    | none => exact finishes_config _
    | some len =>
      have hinside := (List.getElem?_eq_some_iff.mp hbyte).1
      dsimp only
      split
      · exact finishes_ok _
      · split
        · exact (finishes_slice bytes at_ 2).map _
        · split
          · exact finishes_config _
          · exact ih _ (by omega) (by omega)

theorem finishes_skipName (bytes : ByteList) (at_ : Nat) : Finishes (skipName bytes at_) :=
  finishes_skipLabels bytes _ at_ (by omega) (by omega)

theorem finishes_skipRecord (bytes : ByteList) (at_ : Nat) : Finishes (skipRecord bytes at_) :=
  (finishes_skipName bytes at_).bind fun _ _ => (finishes_u16At bytes _).bind fun _ _ =>
    Finishes.ite fun _ => finishes_ok _

theorem finishes_repeatSkip {skip : Nat → Except Failure Nat} (hskip : ∀ at_, Finishes (skip at_))
    (count at_ : Nat) : Finishes (repeatSkip skip count at_) := by
  induction count generalizing at_ with
  | zero => exact finishes_ok _
  | succ count ih => exact (hskip at_).bind fun next _ => ih next

theorem finishes_skipToTsig (response : ByteList) (arcount : Nat) :
    Finishes (skipToTsig response arcount) :=
  (finishes_u16At response 4).bind fun _ _ =>
    (finishes_repeatSkip (fun at_ => (finishes_skipName response at_).map _) _ _).bind fun _ _ =>
      (finishes_u16At response 6).bind fun _ _ => (finishes_u16At response 8).bind fun _ _ =>
        finishes_repeatSkip (finishes_skipRecord response) _ _

theorem finishes_len16 (len : Nat) : Finishes (len16 len) := by
  unfold len16
  split
  · exact finishes_ok _
  · exact finishes_config _

theorem finishes_putU16 (bytes : ByteList) (at_ value : Nat) : Finishes (putU16 bytes at_ value) := by
  unfold putU16
  split
  · exact finishes_ok _
  · exact finishes_config _

theorem finishes_encodeLabels (name : Text) (labels : List Text) :
    Finishes (encodeLabels name labels) := by
  induction labels with
  | nil => exact finishes_ok _
  | cons label labels ih => exact Finishes.ite fun _ => ih.bind fun _ _ => finishes_ok _

theorem finishes_variables (key : Key) (timeSigned fudge error : Nat) (other : ByteList) :
    Finishes (key.variables timeSigned fudge error other) := by
  refine (finishes_encodeLabels _ _).bind fun _ _ => (finishes_encodeLabels _ _).bind fun _ _ => ?_
  refine Finishes.bind (Finishes.ite fun _ => finishes_ok _) fun _ _ => ?_
  exact (finishes_len16 _).bind fun _ _ => finishes_ok _

theorem finishes_macInput (key : Key) (response requestMac : ByteList) (arcount : Nat)
    (tsig : TsigRecord) : Finishes (key.macInput response requestMac arcount tsig) :=
  (finishes_slice _ _ _).bind fun _ _ => (finishes_putU16 _ _ _).bind fun _ _ =>
    (finishes_putU16 _ _ _).bind fun _ _ => (finishes_len16 _).bind fun _ _ =>
      (finishes_variables key _ _ _ _).bind fun _ _ => finishes_ok _

theorem finishes_isTsig (response : ByteList) (at_ : Nat) : Finishes (isTsig response at_) := by
  refine (finishes_u16At response at_).bind fun type _ => ?_
  split
  · exact finishes_ok _
  · exact (finishes_u16At response _).map _

section Verify
variable {key : Key} {fuel requestId arcount now start at_ : Nat} {response requestMac : ByteList}

/-- The record is read to its end where its names are. -/
theorem readTsig_finishes (howner : OwnerAt response requestId start)
    (hlast : skipToTsig response arcount = .ok start)
    (hnames : ∀ at_, NameReadAt key response requestId at_ → Finishes (readName fuel response at_)) :
    Finishes (key.readTsig fuel response arcount) := by
  refine (finishes_skipToTsig response arcount).bind fun start' hstart => ?_
  obtain rfl : start' = start := Except.ok.inj (hstart.symm.trans hlast)
  refine (hnames _ (.inl howner)).bind fun ⟨owner, after⟩ hread => ?_
  obtain ⟨labels, after', hnamed, rfl, hafter⟩ := readLabels_named hread
  obtain rfl : after = after' := hafter
  refine Finishes.ite fun hname => ?_
  refine (finishes_isTsig response _).bind fun record hrecord => ?_
  refine Finishes.ite fun hkind => ?_
  refine (finishes_u16At response _).bind fun high hhigh => ?_
  refine (finishes_u16At response _).bind fun low hlow => ?_
  refine Finishes.ite fun httl => ?_
  refine (finishes_u16At response _).bind fun rdlen hrdlen => ?_
  refine Finishes.ite fun hend => ?_
  have halgorithm : AlgorithmAt key response requestId (after + 8 + 2) := by
    have hzero := Nat.or_eq_zero_iff.mp (Classical.not_not.mp httl)
    refine ⟨start', labels, after, rdlen, howner, hnamed, by simpa [nameText] using hname, ?_, ?_,
      ?_, hrdlen, Classical.not_not.mp hend, rfl⟩
    · rw [hrecord]
      simpa using hkind
    · rw [← hzero.1]
      exact hhigh
    · rw [← hzero.2]
      exact hlow
  refine (hnames _ (.inr halgorithm)).bind fun ⟨algorithm, fields⟩ _ => ?_
  refine Finishes.ite fun _ => ?_
  refine ((finishes_slice response fields 6).map _).bind fun _ _ => ?_
  refine (finishes_u16At response _).bind fun _ _ => (finishes_u16At response _).bind fun _ _ => ?_
  refine (finishes_slice response _ _).bind fun _ _ => ?_
  refine (finishes_u16At response _).bind fun _ _ => (finishes_u16At response _).bind fun _ _ => ?_
  refine (finishes_u16At response _).bind fun _ _ => (finishes_slice response _ _).bind fun _ _ => ?_
  exact Finishes.ite fun _ => finishes_ok _

theorem verifyResponse_finishes
    (hnames : ∀ at_, NameReadAt key response requestId at_ → Finishes (readName fuel response at_)) :
    Finishes (key.verifyResponse fuel response requestId requestMac now) := by
  refine (finishes_u16At response 0).bind fun id hid => Finishes.ite fun hsame => ?_
  refine (finishes_u16At response 2).bind fun flags hflags => Finishes.ite fun hanswer => ?_
  refine (finishes_u16At response _).bind fun arcount harcount => Finishes.ite fun hsigned => ?_
  refine Finishes.bind ?_ fun tsig _ => Finishes.ite fun _ => Finishes.ite fun _ => ?_
  · cases hlast : skipToTsig response arcount with
    | error err =>
      refine (finishes_skipToTsig response arcount).bind fun start hstart => ?_
      rw [hlast] at hstart
      cases hstart
    | ok start =>
      have hsame := Classical.not_not.mp hsame
      exact readTsig_finishes ⟨hsame ▸ hid, ⟨flags, hflags, hanswer⟩, arcount, harcount, hsigned,
        hlast⟩ hlast hnames
  · refine (finishes_macInput key response requestMac _ tsig).bind fun _ _ => ?_
    exact Finishes.ite fun _ => Finishes.ite fun _ => Finishes.ite fun _ => finishes_ok _

/-- A record that is not read to its end ends the check nowhere else. -/
theorem verifyResponse_unfinished (howner : OwnerAt response requestId start)
    (h : ∀ arcount, skipToTsig response arcount = .ok start →
      key.readTsig fuel response arcount = .error .unfinished) :
    key.verifyResponse fuel response requestId requestMac now = .error .unfinished := by
  obtain ⟨hid, ⟨flags, hflags, hanswer⟩, arcount, harcount, hsigned, hlast⟩ := howner
  simp only [Key.verifyResponse, hid, hflags, harcount, h arcount hlast, if_neg hanswer,
    if_neg hsigned, bind, Except.bind, ne_eq, not_true_eq_false, if_false]

theorem verifyResponse_returns (hread : NameReadAt key response requestId at_)
    (h : Returns (hop response) at_) :
    key.verifyResponse fuel response requestId requestMac now = .error .unfinished := by
  have hnever := readName_of_returns h fuel
  rcases hread with howner | ⟨start, labels, after, rdlen, howner, hnamed, hname, hkind, hhigh, hlow,
    hrdlen, hend, rfl⟩
  · refine verifyResponse_unfinished howner fun arcount hlast => ?_
    simp only [Key.readTsig, hlast, hnever, bind, Except.bind]
  · refine verifyResponse_unfinished howner fun arcount hlast => ?_
    by_cases hfinishes : Finishes (readName fuel response start)
    · have hfirst : readName fuel response start = .ok (nameText labels, after) :=
        hnamed.readLabels fuel none [] hfinishes
      simp only [Key.readTsig, hlast, hfirst, hname, hkind, hhigh, hlow, hrdlen, hend, hnever, bind,
        Except.bind]
      simp
    · have hfirst : readName fuel response start = .error .unfinished := Classical.not_not.mp hfinishes
      simp only [Key.readTsig, hlast, hfirst, bind, Except.bind]

end Verify

/-- **Names that end.** A name is read to its end, and is the one that stands at its offset,
exactly when the walk over its labels and pointers returns to no offset; and an answer is
checked to its end exactly when that is so for each name the check comes to. -/
theorem names_end_iff (bytes : ByteList) (start : Nat) :
    (((∃ fuel, Finishes (readName fuel bytes start)) ∧
        ∀ fuel name after, readName fuel bytes start = .ok (name, after) →
          (∃ labels, Named bytes start labels after) ∧
            ∀ labels after', Named bytes start labels after' →
              name = nameText labels ∧ after = after') ↔
        ¬ Returns (hop bytes) start) ∧
    ∀ (key : Key) (response : ByteList) (requestId : Nat) (requestMac : ByteList) (now : Nat),
      (∃ fuel, Finishes (key.verifyResponse fuel response requestId requestMac now)) ↔
        ∀ start, NameReadAt key response requestId start → ¬ Returns (hop response) start := by
  constructor
  · constructor
    · rintro ⟨⟨fuel, hfinishes⟩, -⟩ hreturns
      exact hfinishes (readName_of_returns hreturns fuel)
    · intro hends
      refine ⟨⟨_, readName_finishes (Nat.lt_succ_self _) hends⟩, fun fuel name after hread => ?_⟩
      obtain ⟨labels, after', hnamed, -, hafter⟩ := readLabels_named hread
      refine ⟨⟨labels, hafter ▸ hnamed⟩, fun labels' after'' hnamed' => ?_⟩
      have hfinishes : Finishes (readLabels bytes fuel start none []) := by
        rw [← readName, hread]
        exact finishes_ok _
      exact Prod.mk.inj (Except.ok.inj (hread.symm.trans (hnamed'.readLabels fuel none [] hfinishes)))
  · intro key response requestId requestMac now
    constructor
    · rintro ⟨fuel, hfinishes⟩ start hread hreturns
      exact hfinishes (verifyResponse_returns hread hreturns)
    · intro hends
      exact ⟨response.length + 1, verifyResponse_finishes fun at_ hread =>
        readName_finishes (Nat.lt_succ_self _) (hends at_ hread)⟩

/-- An answer to request 7 that says it has one additional record, and the start of that
record: the label `a` and a pointer at it. -/
def loopingAnswer : ByteList := [0, 7, 0x80, 0, 0, 0, 0, 0, 0, 0, 0, 1, 1, 97, 0xc0, 12]

theorem looping_answer_never_checked :
    (¬ ∃ fuel, Finishes (readName fuel [1, 97, 0xc0, 0] 0)) ∧
    ∀ requestMac now, ¬ ∃ fuel, Finishes (echoKey.verifyResponse fuel loopingAnswer 7 requestMac now) := by
  constructor
  · rintro ⟨fuel, hfinishes⟩
    exact hfinishes (readName_of_returns ⟨0, 1, 0, rfl, by decide⟩ fuel)
  · rintro requestMac now ⟨fuel, hfinishes⟩
    refine hfinishes (verifyResponse_returns (.inl ?_ : NameReadAt echoKey loopingAnswer 7 12)
      ⟨0, 1, 12, rfl, by decide⟩)
    exact ⟨by decide, ⟨0x8000, by decide, by decide⟩, 1, by decide, by decide, by decide⟩

end Detent.Guarantees.TsigNames
