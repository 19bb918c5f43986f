import Detent.Source.Transport

/-!
# Framing under fragmentation

The socket may cut the bytes of the frames anywhere and interrupt any read. As long as the
timeout only elapses between frames, `poll_recv` returns the messages sent and a timeout for
each timeout, in order, and what it has not returned yet is still on the socket.
-/
namespace Detent.Guarantees.Framing
open Lib Source Source.Transport
open Source.Channel (ChannelError maxFrame)

inductive Signal where
  | byte (b : UInt8)
  | idle
  | broken
  deriving DecidableEq, Repr

def Signal.of : Event → List Signal
  | .chunk bytes => bytes.map .byte
  | .interrupted => []
  | .timeout => [.idle]
  | .failed => [.broken]

def signals (events : List Event) : List Signal := events.flatMap Signal.of

/-- No read returns without a byte. -/
def Flowing (events : List Event) : Prop := .chunk [] ∉ events

instance (events : List Event) : Decidable (Flowing events) := inferInstanceAs (Decidable (¬ _))

theorem Flowing.tail {event : Event} {events : List Event} (h : Flowing (event :: events)) :
    Flowing events :=
  fun hmem => h (List.mem_cons_of_mem _ hmem)

/-- A chunk ends inside the next bytes, or after them. -/
theorem chunk_cases {read bytes : Bytes} {later after : List Signal}
    (h : read.map Signal.byte ++ later = bytes.map Signal.byte ++ after) :
    (∃ more, bytes = read ++ more ∧ later = more.map .byte ++ after) ∨
      (∃ extra, extra ≠ [] ∧ read = bytes ++ extra ∧ after = extra.map .byte ++ later) := by
  have hinj : Function.Injective (List.map Signal.byte) :=
    List.map_injective_iff.mpr (fun _ _ heq => Signal.byte.inj heq)
  rcases List.append_eq_append_iff.mp h with ⟨mid, hbytes, hlater⟩ | ⟨mid, hread, hafter⟩
  · obtain ⟨first, more, rfl, hfirst, rfl⟩ := List.map_eq_append_iff.mp hbytes
    exact .inl ⟨more, by rw [hinj hfirst], hlater⟩
  · obtain ⟨first, extra, rfl, hfirst, rfl⟩ := List.map_eq_append_iff.mp hread
    obtain rfl := hinj hfirst
    cases extra with
    | nil => exact .inl ⟨[], by simp, by simpa using hafter.symm⟩
    | cons b extra => exact .inr ⟨b :: extra, by simp, rfl, hafter⟩

/-- A buffer is filled with the next bytes, and the read stops there. -/
theorem readExactOrIdle_full {len : Nat} : ∀ {events : List Event} {filled bytes : Bytes}
    {after : List Signal}, Flowing events → signals events = bytes.map .byte ++ after →
    filled.length + bytes.length = len →
    ∃ rest, readExactOrIdle len filled events = (.ok (some (filled ++ bytes)), rest) ∧
      signals rest = after ∧ Flowing rest
  | [], filled, bytes, after, hflow, hsignals, hlen => by
    have hnil := List.append_eq_nil_iff.mp hsignals.symm
    have hbytes : bytes = [] := by simpa using hnil.1
    subst hbytes
    refine ⟨[], ?_, hnil.2.symm, hflow⟩
    rw [readExactOrIdle, if_pos (by simp at hlen; omega), List.append_nil]
  | event :: events, filled, bytes, after, hflow, hsignals, hlen => by
    have hcons : signals (event :: events) = Signal.of event ++ signals events := rfl
    rw [hcons] at hsignals
    cases bytes with
    | nil =>
      refine ⟨event :: events, ?_, hsignals, hflow⟩
      rw [readExactOrIdle.eq_def]
      dsimp only
      rw [if_pos (by simp at hlen; omega), List.append_nil]
    | cons b bytes =>
      have hroom : ¬ len ≤ filled.length := by
        simp only [List.length_cons] at hlen
        omega
      rw [readExactOrIdle.eq_def]
      dsimp only
      rw [if_neg hroom]
      cases event with
      | chunk read =>
        have hsome : read ≠ [] := by
          rintro rfl
          exact hflow (by simp)
        have hslot : len - filled.length = (b :: bytes).length := by omega
        dsimp only
        rw [hslot]
        rcases chunk_cases hsignals with ⟨more, hmore, hlater⟩ | ⟨extra, hextra, rfl, rfl⟩
        · rw [hmore] at hlen ⊢
          rw [List.length_append] at hlen
          have htake : read.take (read ++ more).length = read :=
            List.take_of_length_le (by simp)
          have hdrop : read.drop (read ++ more).length = [] :=
            List.drop_of_length_le (by simp)
          rw [htake, hdrop, if_neg (by simpa using hsome), if_pos (by rfl)]
          obtain ⟨rest, hread, hrest, hflowing⟩ :=
            @readExactOrIdle_full len events (filled ++ read) more after hflow.tail hlater
              (by simp; omega)
          exact ⟨rest, by rw [hread, List.append_assoc], hrest, hflowing⟩
        · rw [List.take_left, List.drop_left, if_neg (by simp), if_neg (by simpa using hextra)]
          refine ⟨.chunk extra :: events, rfl, rfl, ?_⟩
          intro hmem
          rcases List.mem_cons.mp hmem with heq | hmem
          · exact hextra (Event.chunk.inj heq).symm
          · exact hflow.tail hmem
      | interrupted => exact readExactOrIdle_full hflow.tail hsignals hlen
      | timeout | failed => cases hsignals

/-- A timeout before the first byte leaves the bytes after it. -/
theorem readExactOrIdle_idle {len : Nat} (hlen : 0 < len) : ∀ {events : List Event}
    {after : List Signal}, Flowing events → signals events = .idle :: after →
    ∃ rest, readExactOrIdle len [] events = (.ok none, rest) ∧ signals rest = after ∧ Flowing rest
  | [], after, hflow, hsignals => by cases hsignals
  | event :: events, after, hflow, hsignals => by
    have hcons : signals (event :: events) = Signal.of event ++ signals events := rfl
    rw [hcons] at hsignals
    have hroom : ¬ len ≤ ([] : Bytes).length := by
      simp only [List.length_nil]
      omega
    rw [readExactOrIdle.eq_def]
    dsimp only
    rw [if_neg hroom]
    cases event with
    | chunk read =>
      cases read with
      | nil => exact absurd (by simp) hflow
      | cons b read => cases hsignals
    | interrupted => exact readExactOrIdle_idle hlen hflow.tail hsignals
    | timeout => exact ⟨events, rfl, (List.cons.inj hsignals).2, hflow.tail⟩
    | failed => cases hsignals

theorem fromBeBytes_toBeBytes {n : Nat} (h : n < 4294967296) : fromBeBytes (toBeBytes n) = n := by
  simp only [fromBeBytes, toBeBytes, List.map_cons, List.map_nil, List.foldl_cons, List.foldl_nil,
    UInt8.toNat_ofNat']
  omega

section Messages

variable {M : Type} (postcard : Transport.Codec M)

/-- What an outcome of `poll_recv` takes from the socket: a frame, or a timeout. -/
def outcomeSignals : Option M → List Signal
  | none => [.idle]
  | some message =>
    match send postcard message with
    | .error _ => []
    | .ok frame => frame.map .byte

/-- `postcard` reads back what it wrote. -/
def Inverts : Prop :=
  ∀ message bytes, postcard.toAllocvec message = some bytes →
    postcard.takeFromBytes bytes = some (message, [])

variable {postcard}

/-- The sender's half: what `encode` takes are the messages whose encoding fits. -/
theorem encode_ok_iff {message : M} {body : Bytes} :
    encode postcard message = .ok body ↔
      postcard.toAllocvec message = some body ∧ body.length ≤ maxFrame := by
  unfold encode
  cases postcard.toAllocvec message with
  | none => simp
  | some bytes =>
    by_cases hsize : maxFrame < bytes.length
    · simp only [if_pos hsize, reduceCtorEq, Option.some.injEq, false_iff, not_and, not_le]
      rintro rfl
      exact hsize
    · simp only [if_neg hsize, Except.ok.injEq, Option.some.injEq]
      constructor
      · rintro rfl
        exact ⟨rfl, not_lt.mp hsize⟩
      · exact And.left

theorem decode_encoded (h : Inverts postcard) {message : M} {body : Bytes}
    (hbody : postcard.toAllocvec message = some body) (hsize : body.length ≤ maxFrame) :
    decode postcard body = .ok message := by
  rw [decode, if_neg (not_lt.mpr hsize), h message body hbody]
  rfl

theorem send_ok {message : M} {body : Bytes} (h : encode postcard message = .ok body) :
    send postcard message = .ok (toBeBytes body.length ++ body) := by
  rw [send, h]

/-- One call returns the next outcome, and takes exactly its bytes. -/
theorem pollRecv_outcome (h : Inverts postcard) {outcome : Option M}
    (hfits : ∀ message ∈ outcome, ∃ body, postcard.toAllocvec message = some body ∧
      body.length ≤ maxFrame) {events : List Event}
    (hflow : Flowing events) {after : List Signal}
    (hsignals : signals events = outcomeSignals postcard outcome ++ after) :
    ∃ rest, pollRecv postcard events = (.ok outcome, rest) ∧ signals rest = after ∧ Flowing rest := by
  cases outcome with
  | none =>
    obtain ⟨rest, hread, hrest, hflowing⟩ :=
      @readExactOrIdle_idle headerLen (by decide) events after hflow hsignals
    exact ⟨rest, by rw [pollRecv, hread], hrest, hflowing⟩
  | some message =>
    obtain ⟨body, hbody, hsize⟩ := hfits message rfl
    have hdecode := decode_encoded h hbody hsize
    simp only [outcomeSignals, send_ok (encode_ok_iff.mpr ⟨hbody, hsize⟩), List.map_append, List.append_assoc] at hsignals
    obtain ⟨rest, hheader, hrest, hflowing⟩ :=
      @readExactOrIdle_full headerLen events [] (toBeBytes body.length) _ hflow hsignals rfl
    obtain ⟨rest', hread, hrest', hflowing'⟩ :=
      @readExactOrIdle_full body.length rest [] body after hflowing hrest (by simp)
    have hlen : fromBeBytes (toBeBytes body.length) = body.length := by
      refine fromBeBytes_toBeBytes ?_
      simp only [maxFrame] at hsize
      omega
    refine ⟨rest', ?_, hrest', hflowing'⟩
    simp only [pollRecv, hheader, List.nil_append, hlen, hread, hdecode, if_neg (not_lt.mpr hsize)]

/-- Calls one after the other. -/
def receive (postcard : Transport.Codec M) :
    Nat → List Event → List (Except ChannelError (Option M)) × List Event
  | 0, events => ([], events)
  | calls + 1, events =>
    let (result, events) := pollRecv postcard events
    let (results, events) := receive postcard calls events
    (result :: results, events)

/-- **Framing is exact.** For messages whose encodings fit a frame, whatever chunks the frames
arrive in and whichever reads are interrupted, with timeouts only between frames: the calls
return the messages sent and a none for each timeout, in order, and after any number of calls
the rest is still to be read. -/
theorem framing_exact (h : Inverts postcard) (outcomes : List (Option M))
    (hfits : ∀ message, some message ∈ outcomes →
      ∃ body, postcard.toAllocvec message = some body ∧ body.length ≤ maxFrame)
    (events : List Event) (hflow : Flowing events)
    (hsignals : signals events = outcomes.flatMap (outcomeSignals postcard)) (calls : Nat) :
    ∃ rest, receive postcard (min calls outcomes.length) events =
        ((outcomes.take calls).map .ok, rest) ∧
      signals rest = (outcomes.drop calls).flatMap (outcomeSignals postcard) := by
  induction calls generalizing outcomes events with
  | zero => exact ⟨events, by simp [receive], by simpa using hsignals⟩
  | succ calls ih =>
    cases outcomes with
    | nil => exact ⟨events, by simp [receive], by simpa using hsignals⟩
    | cons outcome outcomes =>
      obtain ⟨mid, hpoll, hmid, hflowing⟩ := pollRecv_outcome h
        (fun message hmem => hfits message (by simp [Option.mem_def.mp hmem])) hflow hsignals
      obtain ⟨rest, hrest, hsame⟩ := ih outcomes
        (fun message hmem => hfits message (List.mem_cons_of_mem _ hmem)) mid hflowing hmid
      refine ⟨rest, ?_, hsame⟩
      rw [List.length_cons, Nat.succ_min_succ, receive, hpoll]
      simp only [hrest]
      rfl

/-- Messages of one byte. -/
def byteCodec : Transport.Codec UInt8 where
  toAllocvec b := some [b]
  takeFromBytes
    | [] => none
    | b :: rest => some (b, rest)

theorem two_frames_in_pieces :
    ∃ rest, receive byteCodec 3 [.chunk [0, 0], .interrupted, .chunk [0, 1, 5], .timeout,
        .chunk [0], .chunk [0, 0, 1, 7]] = ([.ok (some 5), .ok none, .ok (some 7)], rest) ∧
      signals rest = [] := by
  have hinverts : Inverts byteCodec := by
    intro message bytes hbytes
    obtain rfl := Option.some.inj hbytes
    rfl
  exact framing_exact hinverts [some 5, none, some 7]
    (fun message _ => ⟨[message], rfl, Nat.le_of_ble_eq_true rfl⟩) _ (by decide) (by decide) 3

end Messages

end Detent.Guarantees.Framing
