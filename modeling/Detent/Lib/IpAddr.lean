import Detent.Lib.Text

/-!
# Internet addresses as text

`std::net::IpAddr`: what `FromStr` reads and `Display` writes, and the reading of
a `u16`.
-/
namespace Detent.Lib
open Lib.Text
open Option (any_some bind_eq_some_iff some.inj some.injEq)

instance (priority := 2000) neZeroOctet : NeZero (256 : Nat) := ⟨by decide⟩

instance (priority := 2000) neZeroSegment : NeZero (65536 : Nat) := ⟨by decide⟩

structure Ipv4Addr where
  a : Fin 256
  b : Fin 256
  c : Fin 256
  d : Fin 256
  deriving DecidableEq, Repr

structure Ipv6Addr where
  segments : List (Fin 65536)
  eight : segments.length = 8
  deriving DecidableEq, Repr

inductive IpAddr where
  | v4 (addr : Ipv4Addr)
  | v6 (addr : Ipv6Addr)
  deriving DecidableEq, Repr

namespace IpAddr

/-- `char::to_digit`. -/
def toDigit (radix : Nat) (c : Char) : Option Nat :=
  let value :=
    if '0' ≤ c && c ≤ '9' then some (c.toNat - 48)
    else if 'a' ≤ c && c ≤ 'z' then some (c.toNat - 87)
    else if 'A' ≤ c && c ≤ 'Z' then some (c.toNat - 55)
    else none
  value.filter (fun digit => decide (digit < radix))

/-- `read_number`: all the digits there are, at most `maxDigits`, below `bound`. -/
def readNumber (radix maxDigits bound : Nat) (allowZeroPrefix : Bool) (t : Text) :
    Option (Fin bound × Text) :=
  let digits := t.takeWhile (fun c => (toDigit radix c).isSome)
  let value := (digits.filterMap (toDigit radix)).foldl (fun n digit => n * radix + digit) 0
  if digits.length = 0 || digits.length > maxDigits then none
  else if !allowZeroPrefix && digits.head? == some '0' && digits.length > 1 then none
  else if h : value < bound then some (⟨value, h⟩, t.drop digits.length)
  else none

def readGivenChar (c : Char) : Text → Option Text
  | d :: t => if d = c then some t else none
  | [] => none

/-- `read_ipv4_addr`: four octets, none with a leading zero. -/
def readIpv4Addr (t : Text) : Option (Ipv4Addr × Text) := do
  let (a, t) ← readNumber 10 3 256 false t
  let t ← readGivenChar '.' t
  let (b, t) ← readNumber 10 3 256 false t
  let t ← readGivenChar '.' t
  let (c, t) ← readNumber 10 3 256 false t
  let t ← readGivenChar '.' t
  let (d, t) ← readNumber 10 3 256 false t
  pure (⟨a, b, c, d⟩, t)

/-- Two octets as one segment. -/
def segmentOf (high low : Fin 256) : Fin 65536 := ⟨high.val * 256 + low.val, by omega⟩

/-- `read_separator(':', i, …)`. -/
def skipColon (first : Bool) (t : Text) : Option Text :=
  if first then some t else readGivenChar ':' t

/-- `read_groups`: at most `left` more groups, and whether an embedded IPv4 address
ended them. -/
def readGroups : Nat → Bool → Text → List (Fin 65536) × Bool × Text
  | 0, _, t => ([], false, t)
  | left + 1, first, t =>
    let embedded := if left = 0 then none else (skipColon first t).bind readIpv4Addr
    match embedded with
    | some (addr, rest) => ([segmentOf addr.a addr.b, segmentOf addr.c addr.d], true, rest)
    | none =>
      match (skipColon first t).bind (readNumber 16 4 65536 true) with
      | none => ([], false, t)
      | some (group, rest) =>
        let (groups, ipv4, rest) := readGroups left false rest
        (group :: groups, ipv4, rest)

def ofSegments (segments : List (Fin 65536)) : Option Ipv6Addr :=
  if h : segments.length = 8 then some ⟨segments, h⟩ else none

/-- `read_ipv6_addr`. -/
def readIpv6Addr (t : Text) : Option (Ipv6Addr × Text) :=
  let (head, headV4, rest) := readGroups 8 true t
  if head.length = 8 then (ofSegments head).map (fun addr => (addr, rest))
  else if headV4 then none
  else do
    let rest ← readGivenChar ':' rest
    let rest ← readGivenChar ':' rest
    let (tail, _, rest) := readGroups (8 - (head.length + 1)) true rest
    let addr ← ofSegments (head ++ List.replicate (8 - head.length - tail.length) 0 ++ tail)
    pure (addr, rest)

/-- `str::parse::<IpAddr>`. -/
def parse (t : Text) : Option IpAddr :=
  match readIpv4Addr t with
  | some (addr, rest) => if rest.isEmpty then some (.v4 addr) else none
  | none =>
    match readIpv6Addr t with
    | some (addr, rest) => if rest.isEmpty then some (.v6 addr) else none
    | none => none

def displayV4 (addr : Ipv4Addr) : Text :=
  join ['.'] ([addr.a, addr.b, addr.c, addr.d].map (fun octet => Nat.toDigits 10 octet.val))

/-- The longest run of zero segments, the first of the longest: its start and length. -/
def longestZeroes : List (Fin 65536) → Nat → Nat × Nat → Nat × Nat → Nat × Nat
  | [], _, _, longest => longest
  | segment :: segments, i, current, longest =>
    if segment.val = 0 then
      let current := (if current.2 = 0 then i else current.1, current.2 + 1)
      longestZeroes segments (i + 1) current (if current.2 > longest.2 then current else longest)
    else longestZeroes segments (i + 1) (0, 0) longest

def displaySegments (segments : List (Fin 65536)) : Text :=
  join [':'] (segments.map (fun segment => Nat.toDigits 16 segment.val))

def displayV6 (addr : Ipv6Addr) : Text :=
  match addr.segments with
  | [0, 0, 0, 0, 0, 65535, high, low] =>
    "::ffff:".toList ++ displayV4 ⟨⟨high.val / 256, by omega⟩, ⟨high.val % 256, by omega⟩,
      ⟨low.val / 256, by omega⟩, ⟨low.val % 256, by omega⟩⟩
  | segments =>
    let (start, len) := longestZeroes segments 0 (0, 0) (0, 0)
    if len > 1 then
      displaySegments (segments.take start) ++ [':', ':'] ++ displaySegments (segments.drop (start + len))
    else displaySegments segments

/-- `to_string`. -/
def display : IpAddr → Text
  | .v4 addr => displayV4 addr
  | .v6 addr => displayV6 addr

example : parse "192.0.2.1".toList = some (.v4 ⟨192, 0, 2, 1⟩) := by decide +kernel

example : (parse "2001:db8::1".toList).map display = some "2001:db8::1".toList := by decide +kernel

example : parse "192.0.02.1".toList = none := by decide +kernel

/-- `str::parse::<u16>`: an optional plus sign and digits. -/
def parseU16 (t : Text) : Option (Fin 65536) :=
  let digits := match t with
    | '+' :: rest => rest
    | _ => t
  let value := (digits.filterMap (toDigit 10)).foldl (fun n digit => n * 10 + digit) 0
  if digits.isEmpty || digits.any (fun c => (toDigit 10 c).isNone) then none
  else if h : value < 65536 then some ⟨value, h⟩
  else none

/-- `str::parse` of an unsigned type with values below `bound`. -/
def parseUnsigned (bound : Nat) (t : Text) : Option (Fin bound) :=
  let digits := match t with
    | '+' :: rest => rest
    | _ => t
  let value := (digits.filterMap (toDigit 10)).foldl (fun n digit => n * 10 + digit) 0
  if digits.isEmpty || digits.any (fun c => (toDigit 10 c).isNone) then none
  else if h : value < bound then some ⟨value, h⟩
  else none

/-- `str::parse::<Ipv4Addr>`. -/
def parseV4 (t : Text) : Option Ipv4Addr :=
  match readIpv4Addr t with
  | some (addr, []) => some addr
  | _ => none

/-- `str::parse::<Ipv6Addr>`. -/
def parseV6 (t : Text) : Option Ipv6Addr :=
  match readIpv6Addr t with
  | some (addr, []) => some addr
  | _ => none

variable {t rest : Text}

section Characters

/-- The characters of addresses. -/
def isIpChar (c : Char) : Bool := (toDigit 16 c).isSome || c == '.' || c == ':'

/-- What a reader took from `t` is made of address characters. -/
def Took (t rest : Text) : Prop := ∃ used, t = used ++ rest ∧ ∀ c ∈ used, isIpChar c = true

theorem Took.refl (t : Text) : Took t t := ⟨[], rfl, by simp⟩

theorem Took.trans {mid : Text} (h : Took t mid) (h' : Took mid rest) : Took t rest := by
  obtain ⟨used, rfl, hused⟩ := h
  obtain ⟨more, rfl, hmore⟩ := h'
  refine ⟨used ++ more, by simp, ?_⟩
  intro c hmem
  rcases List.mem_append.mp hmem with hmem | hmem
  · exact hused c hmem
  · exact hmore c hmem

theorem toDigit_mono {c : Char} (h : (toDigit 10 c).isSome) : (toDigit 16 c).isSome := by
  unfold toDigit at h ⊢
  simp only [Option.isSome_filter] at h ⊢
  revert h
  split_ifs with hnum hlow hup
  · simp only [any_some, decide_eq_true_eq]
    omega
  · simp only [any_some, decide_eq_true_eq]
    omega
  · simp only [any_some, decide_eq_true_eq]
    omega
  · simp

theorem readNumber_took {radix maxDigits bound : Nat} {zero : Bool} {n : Fin bound}
    (hradix : radix = 10 ∨ radix = 16)
    (h : readNumber radix maxDigits bound zero t = some (n, rest)) : Took t rest := by
  unfold readNumber at h
  simp only at h
  split_ifs at h
  obtain ⟨_, rfl⟩ := Prod.mk.inj (some.inj h)
  refine ⟨t.takeWhile (fun c => (toDigit radix c).isSome), ?_, ?_⟩
  · exact List.prefix_iff_eq_append.mp (List.takeWhile_prefix _) |>.symm
  · intro c hmem
    have hdigit := List.mem_takeWhile_imp hmem
    rcases hradix with rfl | rfl
    · simp [isIpChar, toDigit_mono hdigit]
    · simp [isIpChar, hdigit]

theorem readGivenChar_took {c : Char} (hc : isIpChar c = true) (h : readGivenChar c t = some rest) :
    Took t rest := by
  cases t with
  | nil => cases h
  | cons d t =>
    simp only [readGivenChar] at h
    split_ifs at h with hd
    obtain rfl := some.inj h
    exact ⟨[d], rfl, by simpa [hd] using hc⟩

theorem readIpv4Addr_took {addr : Ipv4Addr} (h : readIpv4Addr t = some (addr, rest)) :
    Took t rest := by
  unfold readIpv4Addr at h
  simp only [bind, bind_eq_some_iff, pure, some.injEq, Prod.mk.injEq] at h
  obtain ⟨⟨a, t₁⟩, ha, t₂, hdot, ⟨b, t₃⟩, hb, t₄, hdot', ⟨c, t₅⟩, hc, t₆, hdot'', ⟨d, t₇⟩, hd, _,
    rfl⟩ := h
  have hchar : isIpChar '.' = true := by decide
  exact (readNumber_took (.inl rfl) ha).trans <| (readGivenChar_took hchar hdot).trans <|
    (readNumber_took (.inl rfl) hb).trans <| (readGivenChar_took hchar hdot').trans <|
    (readNumber_took (.inl rfl) hc).trans <| (readGivenChar_took hchar hdot'').trans <|
    readNumber_took (.inl rfl) hd

theorem skipColon_took {first : Bool} (h : skipColon first t = some rest) : Took t rest := by
  unfold skipColon at h
  split_ifs at h
  · obtain rfl := some.inj h
    exact .refl t
  · exact readGivenChar_took (by decide) h

theorem readGroups_took (left : Nat) (first : Bool) (t : Text) :
    Took t (readGroups left first t).2.2 := by
  induction left generalizing first t with
  | zero => exact .refl t
  | succ left ih =>
    unfold readGroups
    simp only
    split
    next addr rest hembedded =>
      split_ifs at hembedded
      obtain ⟨mid, hmid, hread⟩ := bind_eq_some_iff.mp hembedded
      exact (skipColon_took hmid).trans (readIpv4Addr_took hread)
    next =>
      split
      next => exact .refl t
      next group rest hgroup =>
        obtain ⟨mid, hmid, hread⟩ := bind_eq_some_iff.mp hgroup
        exact ((skipColon_took hmid).trans (readNumber_took (.inr rfl) hread)).trans (ih false rest)

theorem readIpv6Addr_took {addr : Ipv6Addr} (h : readIpv6Addr t = some (addr, rest)) :
    Took t rest := by
  have hhead := readGroups_took 8 true t
  unfold readIpv6Addr at h
  simp only at h
  split_ifs at h
  · obtain ⟨_, _, heq⟩ := Option.map_eq_some_iff.mp h
    obtain ⟨_, rfl⟩ := Prod.mk.inj heq
    exact hhead
  · simp only [bind, bind_eq_some_iff, pure, some.injEq, Prod.mk.injEq] at h
    obtain ⟨t₁, hcolon, t₂, hcolon', _, _, _, rfl⟩ := h
    have hchar : isIpChar ':' = true := by decide
    exact hhead.trans <| (readGivenChar_took hchar hcolon).trans <|
      (readGivenChar_took hchar hcolon').trans (readGroups_took _ _ _)

theorem Took.all (h : Took t []) : ∀ c ∈ t, isIpChar c = true := by
  obtain ⟨used, rfl, hused⟩ := h
  simpa using hused

theorem parseV4_chars (h : (parseV4 t).isSome) : ∀ c ∈ t, isIpChar c = true := by
  unfold parseV4 at h
  split at h
  next addr hread => exact (readIpv4Addr_took hread).all
  next => cases h

theorem parseV6_chars (h : (parseV6 t).isSome) : ∀ c ∈ t, isIpChar c = true := by
  unfold parseV6 at h
  split at h
  next addr hread => exact (readIpv6Addr_took hread).all
  next => cases h

/-- An address is made of hexadecimal digits, dots and colons. -/
theorem parse_chars (h : (parse t).isSome) : ∀ c ∈ t, isIpChar c = true := by
  unfold parse at h
  split at h
  next addr rest hread =>
    by_cases hrest : rest = []
    · subst hrest
      exact (readIpv4Addr_took hread).all
    · simp [hrest] at h
  next =>
    split at h
    next addr rest hread =>
      by_cases hrest : rest = []
      · subst hrest
        exact (readIpv6Addr_took hread).all
      · simp [hrest] at h
    next => cases h

end Characters

section Colons

/-- What a reader took from `t` holds no colon. -/
def Spared (t rest : Text) : Prop := ∃ used, t = used ++ rest ∧ ':' ∉ used

theorem Spared.trans {mid : Text} (h : Spared t mid) (h' : Spared mid rest) : Spared t rest := by
  obtain ⟨used, rfl, hused⟩ := h
  obtain ⟨more, rfl, hmore⟩ := h'
  exact ⟨used ++ more, by simp, by simp [hused, hmore]⟩

theorem readNumber_spared {radix maxDigits bound : Nat} {zero : Bool} {n : Fin bound}
    (h : readNumber radix maxDigits bound zero t = some (n, rest)) : Spared t rest := by
  unfold readNumber at h
  simp only at h
  split_ifs at h
  obtain ⟨_, rfl⟩ := Prod.mk.inj (some.inj h)
  refine ⟨t.takeWhile (fun c => (toDigit radix c).isSome), ?_, ?_⟩
  · exact List.prefix_iff_eq_append.mp (List.takeWhile_prefix _) |>.symm
  · intro hmem
    have hdigit := List.mem_takeWhile_imp hmem
    have hnone : toDigit radix ':' = none := rfl
    rw [hnone] at hdigit
    cases hdigit

theorem readGivenChar_eq {c : Char} (h : readGivenChar c t = some rest) : t = c :: rest := by
  cases t with
  | nil => cases h
  | cons d t =>
    simp only [readGivenChar] at h
    split_ifs at h with hd
    rw [hd, some.inj h]

theorem readIpv4Addr_spared {addr : Ipv4Addr} (h : readIpv4Addr t = some (addr, rest)) :
    Spared t rest := by
  unfold readIpv4Addr at h
  simp only [bind, bind_eq_some_iff, pure, some.injEq, Prod.mk.injEq] at h
  obtain ⟨⟨a, t₁⟩, ha, t₂, hdot, ⟨b, t₃⟩, hb, t₄, hdot', ⟨c, t₅⟩, hc, t₆, hdot'', ⟨d, t₇⟩, hd, _,
    rfl⟩ := h
  have hgiven : ∀ {t rest : Text}, readGivenChar '.' t = some rest → Spared t rest :=
    fun hread => ⟨['.'], readGivenChar_eq hread, by decide⟩
  exact (readNumber_spared ha).trans <| (hgiven hdot).trans <| (readNumber_spared hb).trans <|
    (hgiven hdot').trans <| (readNumber_spared hc).trans <| (hgiven hdot'').trans <|
    readNumber_spared hd

/-- Groups after the first begin with a colon. -/
theorem readGroups_colon {left : Nat} {t : Text} (h : (readGroups left false t).1 ≠ []) :
    ':' ∈ t := by
  have hskip : ∀ mid, skipColon false t = some mid → ':' ∈ t := by
    intro mid hmid
    rw [readGivenChar_eq hmid]
    exact List.mem_cons_self
  cases left with
  | zero => exact absurd rfl h
  | succ left =>
    unfold readGroups at h
    simp only at h
    split at h
    next addr rest hembedded =>
      split_ifs at hembedded
      obtain ⟨mid, hmid, _⟩ := bind_eq_some_iff.mp hembedded
      exact hskip mid hmid
    next =>
      split at h
      next => exact absurd rfl h
      next group rest hgroup =>
        obtain ⟨mid, hmid, _⟩ := bind_eq_some_iff.mp hgroup
        exact hskip mid hmid

/-- Eight groups hold a colon. -/
theorem readGroups_eight (h : (readGroups 8 true t).1.length = 8) : ':' ∈ t := by
  unfold readGroups at h
  simp only at h
  split at h
  next addr rest hembedded => cases h
  next =>
    split at h
    next => cases h
    next group rest hgroup =>
      obtain ⟨mid, hmid, hread⟩ := bind_eq_some_iff.mp hgroup
      obtain rfl := some.inj hmid
      obtain ⟨used, rfl, -⟩ := readNumber_spared hread
      refine List.mem_append_right _ (@readGroups_colon 7 _ ?_)
      intro hnil
      simp [hnil] at h

theorem readIpv6Addr_colon {addr : Ipv6Addr} (h : readIpv6Addr t = some (addr, rest)) :
    ':' ∈ t := by
  obtain ⟨used, hused, -⟩ := readGroups_took 8 true t
  unfold readIpv6Addr at h
  simp only at h
  split_ifs at h with height
  · exact readGroups_eight height
  · simp only [bind, bind_eq_some_iff] at h
    obtain ⟨t₁, hcolon, _⟩ := h
    rw [hused, readGivenChar_eq hcolon]
    simp

/-- The family of an address shows in its colons. -/
theorem parse_colon {addr : IpAddr} (h : parse t = some addr) : ':' ∈ t ↔ ∃ v6, addr = .v6 v6 := by
  unfold parse at h
  split at h
  next v4 rest hread =>
    split_ifs at h with hrest
    rw [List.isEmpty_iff] at hrest
    subst hrest
    obtain rfl := some.inj h
    obtain ⟨used, rfl, hused⟩ := readIpv4Addr_spared hread
    simpa using hused
  next =>
    split at h
    next v6 rest hread =>
      split_ifs at h with hrest
      obtain rfl := some.inj h
      exact ⟨fun _ => ⟨v6, rfl⟩, fun _ => readIpv6Addr_colon hread⟩
    next => cases h

end Colons

end IpAddr

end Detent.Lib
