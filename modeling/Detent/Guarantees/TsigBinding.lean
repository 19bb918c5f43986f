import Detent.Guarantees.TsigSkips

/-!
# What the MAC of an answer binds

The bytes the MAC of an answer is taken of are the request MAC behind its length, the
message, and the variables. The message has no length of its own, but it says where it
ends: the skip over its records stops there. So equal bytes come of the same request MAC,
the same message and the same variables.
-/
namespace Detent.Guarantees.TsigBinding
open Lib Source.Tsig TsigSkips
open Except (ok.inj)

variable {bytes other response : ByteList} {at_ n : Nat} {key : Key} {tsig : TsigRecord}

theorem take_two {high low : UInt8} (hhigh : bytes[at_]? = some high)
    (hlow : bytes[at_ + 1]? = some low) : (bytes.drop at_).take 2 = [high, low] := by
  apply List.ext_getElem?
  intro i
  match i with
  | 0 => simpa using hhigh
  | 1 => simpa using hlow
  | i + 2 =>
    rw [List.getElem?_take_eq_none (by omega)]
    simp

theorem u16At_bytes (h : u16At bytes at_ = .ok n) :
    ∃ high low : UInt8, bytes[at_]? = some high ∧ bytes[at_ + 1]? = some low ∧
      n = high.toNat * 256 + low.toNat := by
  obtain ⟨piece, hslice, rfl⟩ := u16At_ok h
  obtain ⟨hle, rfl⟩ := slice_ok hslice
  have hhigh := List.getElem?_eq_getElem (by omega : at_ < bytes.length)
  have hlow := List.getElem?_eq_getElem (by omega : at_ + 1 < bytes.length)
  refine ⟨_, _, hhigh, hlow, ?_⟩
  rw [take_two hhigh hlow]
  simp [beNumber]

theorem u16At_lt (h : u16At bytes at_ = .ok n) : n < 65536 := by
  obtain ⟨high, low, -, -, rfl⟩ := u16At_bytes h
  have hhigh := high.toNat_lt
  have hlow := low.toNat_lt
  omega

/-- Where the same number is read, the same bytes are. -/
theorem agree_of_u16At (h : u16At bytes at_ = .ok n) (h' : u16At other at_ = .ok n) :
    TsigSkips.Agree at_ (at_ + 2) bytes other := by
  obtain ⟨high, low, hhigh, hlow, hn⟩ := u16At_bytes h
  obtain ⟨high', low', hhigh', hlow', hn'⟩ := u16At_bytes h'
  have hlt := low.toNat_lt
  have hlt' := low'.toNat_lt
  obtain rfl : high' = high := UInt8.toNat_inj.mp (by omega)
  obtain rfl : low' = low := UInt8.toNat_inj.mp (by omega)
  intro i hi hi'
  rcases (by omega : i = at_ ∨ i = at_ + 1) with rfl | rfl
  · rw [hhigh, hhigh']
  · rw [hlow, hlow']

theorem u16At_of_bytes (hn : n < 65536) (hhigh : bytes[at_]? = some (UInt8.ofNat (n / 256)))
    (hlow : bytes[at_ + 1]? = some (UInt8.ofNat n)) : u16At bytes at_ = .ok n := by
  have hle := (List.getElem?_eq_some_iff.mp hlow).1
  simp only [u16At, slice, if_pos (by omega : at_ + 2 ≤ bytes.length), take_two hhigh hlow,
    Except.map]
  simp [beNumber]
  omega

theorem u16Bytes_inj {m : Nat} (hm : m < 65536) (hn : n < 65536) (h : u16Bytes m = u16Bytes n) :
    m = n := by
  simp only [u16Bytes, List.cons.injEq, and_true] at h
  have hhigh := congrArg UInt8.toNat h.1
  have hlow := congrArg UInt8.toNat h.2
  simp at hhigh hlow
  omega

theorem u48Bytes_inj {m : Nat} (hm : m < 281474976710656) (hn : n < 281474976710656)
    (h : u48Bytes m = u48Bytes n) : m = n := by
  simp only [u48Bytes, u16Bytes, List.cons_append, List.nil_append, List.cons.injEq] at h
  have h1 := congrArg UInt8.toNat h.1
  have h2 := congrArg UInt8.toNat h.2.1
  have h3 := congrArg UInt8.toNat h.2.2.1
  have h4 := congrArg UInt8.toNat h.2.2.2.1
  have h5 := congrArg UInt8.toNat h.2.2.2.2.1
  have h6 := congrArg UInt8.toNat h.2.2.2.2.2.1
  simp at h1 h2 h3 h4 h5 h6
  omega

/-- Writing a number changes its two bytes only. -/
theorem putU16_ok {out : ByteList} {value : Nat} (h : putU16 bytes at_ value = .ok out) :
    out.length = bytes.length ∧ TsigSkips.Agree 0 at_ bytes out ∧
      (∀ last, TsigSkips.Agree (at_ + 2) last bytes out) ∧
      (value < 65536 → u16At out at_ = .ok value) := by
  unfold putU16 at h
  split at h
  · rename_i hle
    obtain rfl := ok.inj h
    have htake : (bytes.take at_).length = at_ := by simp; omega
    refine ⟨by simp [u16Bytes]; omega, ?_, ?_, ?_⟩
    · intro i _ hi
      rw [List.append_assoc, List.getElem?_append_left (by omega), List.getElem?_take_of_lt hi]
    · intro last i hi _
      rw [List.append_assoc, List.getElem?_append_right (by omega),
        List.getElem?_append_right (by simp [u16Bytes]; omega), List.getElem?_drop]
      congr 1
      simp [u16Bytes]
      omega
    · intro hvalue
      refine u16At_of_bytes hvalue ?_ ?_
      all_goals
        rw [List.append_assoc, List.getElem?_append_right (by omega)]
        simp [htake, u16Bytes]
  · cases h

theorem len16_ok {len : Nat} (h : len16 len = .ok n) : n = len ∧ len < 65536 := by
  unfold len16 at h
  split at h
  · rename_i hlt
    exact ⟨(ok.inj h).symm, hlt⟩
  · cases h

theorem time48_ok {seconds : Nat} (h : time48 seconds = .ok bytes) :
    bytes = u48Bytes seconds ∧ seconds < 281474976710656 := by
  unfold time48 at h
  split at h
  · cases h
  · exact ⟨(ok.inj h).symm, by omega⟩

/-- The variables of a key are its names, which are the same for all of them, and five
fields. -/
theorem variables_ok {timeSigned fudge error : Nat} {vars : ByteList}
    (h : key.variables timeSigned fudge error other = .ok vars) :
    ∃ name algorithm, encodeName key.name = .ok name ∧
      encodeName key.algorithm.name = .ok algorithm ∧
      timeSigned < 281474976710656 ∧ other.length < 65536 ∧
      vars = name ++ u16Bytes classAny ++ [0, 0, 0, 0] ++ algorithm ++ u48Bytes timeSigned ++
        u16Bytes fudge ++ u16Bytes error ++ u16Bytes other.length ++ other := by
  obtain ⟨name, hname, h⟩ := ok_of_bind h
  obtain ⟨algorithm, halgorithm, h⟩ := ok_of_bind h
  obtain ⟨time, htime, h⟩ := ok_of_bind h
  obtain ⟨otherLen, hotherLen, h⟩ := ok_of_bind h
  obtain ⟨rfl, htimeLt⟩ := time48_ok htime
  obtain ⟨rfl, hotherLt⟩ := len16_ok hotherLen
  exact ⟨name, algorithm, hname, halgorithm, htimeLt, hotherLt, (ok.inj h).symm⟩

theorem variables_inj {time time' fudge fudge' error error' : Nat} {other' vars : ByteList}
    (h : key.variables time fudge error other = .ok vars)
    (h' : key.variables time' fudge' error' other' = .ok vars) (hfudge : fudge < 65536)
    (hfudge' : fudge' < 65536) : time = time' ∧ fudge = fudge' ∧ other = other' := by
  obtain ⟨name, algorithm, hname, halgorithm, htime, -, rfl⟩ := variables_ok h
  obtain ⟨name', algorithm', hname', halgorithm', htime', -, hsame⟩ := variables_ok h'
  obtain rfl : name' = name := ok.inj (hname'.symm.trans hname)
  obtain rfl : algorithm' = algorithm := ok.inj (halgorithm'.symm.trans halgorithm)
  simp only [List.append_assoc, List.append_cancel_left_eq] at hsame
  obtain ⟨htimes, hsame⟩ := List.append_inj hsame (by simp [u48Bytes, u16Bytes])
  obtain ⟨hfudges, hsame⟩ := List.append_inj hsame (by simp [u16Bytes])
  obtain ⟨-, hsame⟩ := List.append_inj hsame (by simp [u16Bytes])
  obtain ⟨-, hothers⟩ := List.append_inj hsame (by simp [u16Bytes])
  exact ⟨u48Bytes_inj htime htime' htimes, u16Bytes_inj hfudge hfudge' hfudges, hothers⟩

/-- The MAC input: the request MAC behind its length, the message as it was before it was
signed, and the variables. -/
theorem macInput_ok {requestMac input : ByteList} {arcount : Nat}
    (h : key.macInput response requestMac arcount tsig = .ok input)
    (hstart : headerLen ≤ tsig.start) (harcount : arcount ≤ 65536) :
    ∃ unsigned vars, input = u16Bytes requestMac.length ++ requestMac ++ unsigned ++ vars ∧
      requestMac.length < 65536 ∧ unsigned.length = tsig.start ∧
      tsig.start ≤ response.length ∧ AgreeBefore tsig.start response unsigned ∧
      (0 < arcount → u16At unsigned arcountAt = .ok (arcount - 1)) ∧
      key.variables tsig.timeSigned tsig.fudge tsig.error tsig.other = .ok vars := by
  obtain ⟨before, hbefore, h⟩ := ok_of_bind h
  obtain ⟨withId, hwithId, h⟩ := ok_of_bind h
  obtain ⟨unsigned, hunsigned, h⟩ := ok_of_bind h
  obtain ⟨len, hlen, h⟩ := ok_of_bind h
  obtain ⟨vars, hvars, h⟩ := ok_of_bind h
  obtain ⟨hle, rfl⟩ := slice_ok hbefore
  obtain ⟨rfl, hlt⟩ := len16_ok hlen
  obtain ⟨hlength, -, hafter, -⟩ := putU16_ok hwithId
  obtain ⟨hlength', hfirst, hafter', hread⟩ := putU16_ok hunsigned
  have hsize : unsigned.length = tsig.start := by
    simp only [hlength', hlength, List.drop_zero, List.length_take]
    omega
  have hsame : ∀ i, 2 ≤ i → i < tsig.start → (i < arcountAt ∨ headerLen ≤ i) →
      unsigned[i]? = response[i]? := by
    intro i hi hi' hside
    have hid := hafter tsig.start i (by omega) hi'
    have hcount : unsigned[i]? = withId[i]? := by
      rcases hside with hlow | hhigh
      · exact hfirst i (by omega) hlow
      · exact hafter' tsig.start i hhigh hi'
    rw [hcount, hid, List.drop_zero, List.getElem?_take_of_lt hi']
  have hheader : headerLen = 12 := rfl
  have hcounts : arcountAt = 10 := rfl
  refine ⟨unsigned, vars, (ok.inj h).symm, hlt, hsize, by omega, ⟨?_, ?_⟩, ?_, hvars⟩
  · intro i hi hi'
    exact hsame i hi (by omega) (.inl hi')
  · intro i hi hi'
    exact hsame i (by omega) hi' (.inr hi)
  · exact fun hpos => hread (by omega)

theorem check_ok {α : Type} {c : Prop} [Decidable c] {err : Failure} {rest : Except Failure α}
    {a : α} (h : (if c then .error err else rest) = .ok a) : ¬ c ∧ rest = .ok a := by
  split at h
  · cases h
  · rename_i hc
    exact ⟨hc, h⟩

theorem readTsig_ok {fuel arcount : Nat} (h : key.readTsig fuel response arcount = .ok tsig) :
    skipToTsig response arcount = .ok tsig.start ∧ tsig.fudge < 65536 := by
  obtain ⟨start, hstart, h⟩ := ok_of_bind h
  obtain ⟨⟨owner, named⟩, -, h⟩ := ok_of_bind h
  obtain ⟨-, h⟩ := check_ok h
  obtain ⟨record, -, h⟩ := ok_of_bind h
  obtain ⟨-, h⟩ := check_ok h
  obtain ⟨high, -, h⟩ := ok_of_bind h
  obtain ⟨low, -, h⟩ := ok_of_bind h
  obtain ⟨-, h⟩ := check_ok h
  obtain ⟨rdlen, -, h⟩ := ok_of_bind h
  obtain ⟨-, h⟩ := check_ok h
  obtain ⟨⟨algorithm, at_⟩, -, h⟩ := ok_of_bind h
  obtain ⟨-, h⟩ := check_ok h
  obtain ⟨timeSigned, -, h⟩ := ok_of_bind h
  obtain ⟨fudge, hfudge, h⟩ := ok_of_bind h
  obtain ⟨macLen, -, h⟩ := ok_of_bind h
  obtain ⟨mac, -, h⟩ := ok_of_bind h
  obtain ⟨originalId, -, h⟩ := ok_of_bind h
  obtain ⟨error, -, h⟩ := ok_of_bind h
  obtain ⟨otherLen, -, h⟩ := ok_of_bind h
  obtain ⟨other, -, h⟩ := ok_of_bind h
  obtain ⟨-, h⟩ := check_ok h
  obtain rfl := ok.inj h
  exact ⟨hstart, u16At_lt hfudge⟩

/-- An answer that is accepted carries a record whose MAC is that of its input. -/
theorem verifyResponse_ok {fuel requestId now : Nat} {requestMac : ByteList}
    (h : key.verifyResponse fuel response requestId requestMac now = .ok ()) :
    ∃ arcount tsig input, 0 < arcount ∧ u16At response arcountAt = .ok arcount ∧
      key.readTsig fuel response arcount = .ok tsig ∧
      key.macInput response requestMac arcount tsig = .ok input ∧ key.hmac input = tsig.mac := by
  obtain ⟨id, -, h⟩ := ok_of_bind h
  obtain ⟨-, h⟩ := check_ok h
  obtain ⟨flags, -, h⟩ := ok_of_bind h
  obtain ⟨-, h⟩ := check_ok h
  obtain ⟨arcount, harcount, h⟩ := ok_of_bind h
  obtain ⟨hpos, h⟩ := check_ok h
  obtain ⟨tsig, htsig, h⟩ := ok_of_bind h
  obtain ⟨-, h⟩ := check_ok h
  obtain ⟨-, h⟩ := check_ok h
  obtain ⟨input, hinput, h⟩ := ok_of_bind h
  obtain ⟨hmac, h⟩ := check_ok h
  exact ⟨arcount, tsig, input, Nat.pos_of_ne_zero hpos, harcount, htsig, hinput,
    not_not.mp hmac⟩

theorem u16At_append (h : u16At bytes at_ = .ok n) (more : ByteList) :
    u16At (bytes ++ more) at_ = .ok n := by
  have hle := u16At_length h
  refine u16At_agree h (fun i _ hi => ?_)
  exact List.getElem?_append_left (by omega)

theorem AgreeBefore.append {start : Nat} (h : AgreeBefore start bytes other)
    (hstart : headerLen ≤ start) (hlength : other.length = start) (more : ByteList) :
    AgreeBefore start bytes (other ++ more) := by
  have hheader : headerLen = 12 := rfl
  have hcounts : arcountAt = 10 := rfl
  constructor
  · intro i hi hi'
    rw [List.getElem?_append_left (by omega)]
    exact h.1 i hi hi'
  · intro i hi hi'
    rw [List.getElem?_append_left (by omega)]
    exact h.2 i hi hi'

/-- The bytes of two messages behind their ids, when they agree but for the count of
additional records and that count is the same. -/
theorem take_drop_eq {start : Nat}
    (hagree : ∀ i, 2 ≤ i → i < start → i < arcountAt ∨ headerLen ≤ i → bytes[i]? = other[i]?)
    (hcount : u16At bytes arcountAt = .ok n) (hcount' : u16At other arcountAt = .ok n) :
    (bytes.take start).drop 2 = (other.take start).drop 2 := by
  have hheader : headerLen = 12 := rfl
  have hcounts : arcountAt = 10 := rfl
  apply List.ext_getElem?
  intro i
  rw [List.getElem?_drop, List.getElem?_drop]
  by_cases hi : 2 + i < start
  · rw [List.getElem?_take_of_lt hi, List.getElem?_take_of_lt hi]
    by_cases hside : 2 + i < arcountAt ∨ headerLen ≤ 2 + i
    · exact hagree (2 + i) (by omega) hi hside
    · exact (agree_of_u16At hcount hcount' (2 + i) (by omega) (by omega)).symm
  · rw [List.getElem?_take_eq_none (by omega), List.getElem?_take_eq_none (by omega)]

/-- The record `response` carries, as the check reads it. -/
def Carries (key : Key) (fuel : Nat) (response : ByteList) (tsig : TsigRecord) : Prop :=
  ∃ arcount, u16At response arcountAt = .ok arcount ∧
    key.readTsig fuel response arcount = .ok tsig

/-- **Binding.** Two answers accepted for one key that carry the same MAC answer the same
request MAC, and are equal up to their records, their ids apart, and in the time signed,
the fudge and the other data. -/
theorem accepted_binding (hinj : Function.Injective key.hmac)
    {fuel fuel' requestId requestId' now now' : Nat} {r r' q q' : ByteList} {tsig' : TsigRecord}
    (hok : key.verifyResponse fuel r requestId q now = .ok ())
    (hok' : key.verifyResponse fuel' r' requestId' q' now' = .ok ())
    (hcarries : Carries key fuel r tsig) (hcarries' : Carries key fuel' r' tsig')
    (hmac : tsig.mac = tsig'.mac) :
    q = q' ∧ tsig.start = tsig'.start ∧
      (r.take tsig.start).drop 2 = (r'.take tsig.start).drop 2 ∧
      tsig.timeSigned = tsig'.timeSigned ∧ tsig.fudge = tsig'.fudge ∧ tsig.other = tsig'.other := by
  obtain ⟨arcount, t, input, hpos, harcount, ht, hinput, hsigned⟩ := verifyResponse_ok hok
  obtain ⟨arcount', t', input', hpos', harcount', ht', hinput', hsigned'⟩ := verifyResponse_ok hok'
  obtain rfl : t = tsig := by
    obtain ⟨a, ha, htsig⟩ := hcarries
    obtain rfl : a = arcount := ok.inj (ha.symm.trans harcount)
    exact ok.inj (ht.symm.trans htsig)
  obtain rfl : t' = tsig' := by
    obtain ⟨a, ha, htsig⟩ := hcarries'
    obtain rfl : a = arcount' := ok.inj (ha.symm.trans harcount')
    exact ok.inj (ht'.symm.trans htsig)
  obtain ⟨hskip, hfudge⟩ := readTsig_ok ht
  obtain ⟨hskip', hfudge'⟩ := readTsig_ok ht'
  have hlt := u16At_lt harcount
  have hlt' := u16At_lt harcount'
  obtain ⟨hstart, -⟩ := skipToTsig_agree hskip ⟨fun i _ _ => rfl, fun i _ _ => rfl⟩
  obtain ⟨hstart', -⟩ := skipToTsig_agree hskip' ⟨fun i _ _ => rfl, fun i _ _ => rfl⟩
  obtain ⟨unsigned, vars, rfl, hq, hlen, hin, hagree, hcount, hvars⟩ :=
    macInput_ok hinput hstart (by omega)
  obtain ⟨unsigned', vars', rfl, hq', hlen', hin', hagree', hcount', hvars'⟩ :=
    macInput_ok hinput' hstart' (by omega)
  have hsame := hinj (hsigned.trans (hmac.trans hsigned'.symm))
  simp only [List.append_assoc] at hsame
  -- the request MACs come behind their lengths
  obtain ⟨hlens, hbehind⟩ := List.append_inj hsame (by simp [u16Bytes])
  obtain ⟨rfl, hmessages⟩ := List.append_inj hbehind (u16Bytes_inj hq hq' hlens)
  -- the two messages end where their own records say
  have hhold : AgreeBefore t.start r (unsigned ++ vars) := AgreeBefore.append hagree hstart hlen vars
  have hhold' : AgreeBefore t'.start r' (unsigned' ++ vars') := AgreeBefore.append hagree' hstart' hlen' vars'
  have hcounted := u16At_append (hcount hpos) vars
  have hcounted' := u16At_append (hcount' hpos') vars'
  rw [← hmessages] at hhold' hcounted'
  obtain rfl : arcount = arcount' := by
    have hcounts := ok.inj (hcounted.symm.trans hcounted')
    omega
  have hstarts : t.start = t'.start := ok.inj
    ((skipToTsig_agree hskip hhold).2.symm.trans (skipToTsig_agree hskip' hhold').2)
  obtain ⟨rfl, rfl⟩ := List.append_inj hmessages (by omega)
  obtain ⟨htime, hfudges, hothers⟩ := variables_inj hvars hvars' hfudge hfudge'
  refine ⟨rfl, hstarts, take_drop_eq (fun i hi hi' hside => ?_) harcount harcount', htime, hfudges,
    hothers⟩
  rcases hside with hlow | hhigh
  · exact (hagree.1 i hi hlow).symm.trans (hagree'.1 i hi hlow)
  · exact (hagree.2 i hhigh hi').symm.trans (hagree'.2 i hhigh (hstarts ▸ hi'))

end Detent.Guarantees.TsigBinding
