import Detent.Source.Tsig

/-!
# Skipping the records of a DNS message

Where a skip ends depends only on the bytes it passes: two byte strings that agree from
its start to its end give the same end. So the place of the last record is found again
in any byte string that holds the bytes before it.
-/
namespace Detent.Guarantees.TsigSkips
open Lib Source.Tsig

/-- The two byte strings hold the same bytes from `first` up to `last`. -/
def Agree (first last : Nat) (bytes other : ByteList) : Prop :=
  ∀ i, first ≤ i → i < last → other[i]? = bytes[i]?

variable {bytes other : ByteList} {at_ : Nat}

theorem Agree.narrow {first last first' last' : Nat} (h : Agree first last bytes other)
    (hfirst : first ≤ first') (hlast : last' ≤ last) : Agree first' last' bytes other :=
  fun i hi hi' => h i (by omega) (by omega)

/-- Where the bytes that agree are there, they are there in both. -/
theorem Agree.length {first last : Nat} (h : Agree first last bytes other) (hlt : first < last)
    (hlast : last ≤ bytes.length) : last ≤ other.length := by
  have hbyte := h (last - 1) (by omega) (by omega)
  rw [List.getElem?_eq_getElem (by omega : last - 1 < bytes.length)] at hbyte
  have hinside := (List.getElem?_eq_some_iff.mp hbyte).1
  omega

theorem slice_ok {piece : ByteList} {len : Nat} (h : slice bytes at_ len = .ok piece) :
    at_ + len ≤ bytes.length ∧ piece = (bytes.drop at_).take len := by
  unfold slice at h
  split at h
  · rename_i hle
    exact ⟨hle, (Except.ok.inj h).symm⟩
  · cases h

theorem slice_agree {piece : ByteList} {len : Nat} (h : slice bytes at_ len = .ok piece)
    (hlen : 0 < len) (hagree : Agree at_ (at_ + len) bytes other) :
    slice other at_ len = .ok piece := by
  obtain ⟨hle, rfl⟩ := slice_ok h
  have hother := hagree.length (by omega) hle
  unfold slice
  rw [if_pos hother]
  congr 1
  apply List.ext_getElem?
  intro i
  by_cases hi : i < len
  · rw [List.getElem?_take_of_lt hi, List.getElem?_take_of_lt hi, List.getElem?_drop,
      List.getElem?_drop]
    exact hagree (at_ + i) (by omega) (by omega)
  · rw [List.getElem?_take_eq_none (by omega), List.getElem?_take_eq_none (by omega)]

theorem u16At_ok {n : Nat} (h : u16At bytes at_ = .ok n) :
    ∃ piece, slice bytes at_ 2 = .ok piece ∧ n = beNumber piece := by
  unfold u16At at h
  cases hslice : slice bytes at_ 2 with
  | error err =>
    rw [hslice] at h
    cases h
  | ok piece =>
    rw [hslice] at h
    exact ⟨piece, rfl, (Except.ok.inj h).symm⟩

theorem u16At_agree {n : Nat} (h : u16At bytes at_ = .ok n)
    (hagree : Agree at_ (at_ + 2) bytes other) : u16At other at_ = .ok n := by
  obtain ⟨piece, hslice, rfl⟩ := u16At_ok h
  simp only [u16At, slice_agree hslice (by omega) hagree, Except.map]

theorem u16At_length {n : Nat} (h : u16At bytes at_ = .ok n) : at_ + 2 ≤ bytes.length := by
  obtain ⟨piece, hslice, -⟩ := u16At_ok h
  exact (slice_ok hslice).1

/-- A skip that ended passed at least a byte and looked at no other. -/
def Local (skip : ByteList → Nat → Except Failure Nat) : Prop :=
  ∀ {bytes at_ after}, skip bytes at_ = .ok after →
    at_ < after ∧ ∀ other, Agree at_ after bytes other → skip other at_ = .ok after

/-- The loop over the labels of a name, with any bound that is long enough. -/
theorem skipLabels_agree (fuel : Nat) {after : Nat} (h : skipLabels bytes fuel at_ = .ok after) :
    at_ < after ∧ after ≤ bytes.length ∧ ∀ other fuel', Agree at_ after bytes other →
      after ≤ at_ + fuel' → skipLabels other fuel' at_ = .ok after := by
  induction fuel generalizing at_ with
  | zero => cases h
  | succ fuel ih =>
    unfold skipLabels at h
    cases hbyte : bytes[at_]? with
    | none =>
      rw [hbyte] at h
      cases h
    | some len =>
      have hat := (List.getElem?_eq_some_iff.mp hbyte).1
      simp only [hbyte] at h
      split at h
      · rename_i hzero
        cases h
        refine ⟨by omega, by omega, fun other fuel' hagree hfuel => ?_⟩
        obtain ⟨more, rfl⟩ : ∃ more, fuel' = more + 1 := ⟨fuel' - 1, by omega⟩
        have hsame := hagree at_ (by omega) (by omega)
        rw [hbyte] at hsame
        simp [skipLabels, hsame, hzero]
      · rename_i hzero
        split at h
        · rename_i hpointer
          cases hslice : slice bytes at_ 2 with
          | error err =>
            rw [hslice] at h
            cases h
          | ok piece =>
            rw [hslice] at h
            have hafter : at_ + 2 = after := Except.ok.inj h
            subst hafter
            refine ⟨by omega, (slice_ok hslice).1, fun other fuel' hagree hfuel => ?_⟩
            obtain ⟨more, rfl⟩ : ∃ more, fuel' = more + 1 := ⟨fuel' - 1, by omega⟩
            have hsame := hagree at_ (by omega) (by omega)
            rw [hbyte] at hsame
            simp [skipLabels, hsame, hzero, hpointer, slice_agree hslice (by omega) hagree,
              Except.map]
        · rename_i hpointer
          split at h
          · cases h
          · rename_i hlabel
            obtain ⟨hlt, hle, hlocal⟩ := ih h
            refine ⟨by omega, hle, fun other fuel' hagree hfuel => ?_⟩
            obtain ⟨more, rfl⟩ : ∃ more, fuel' = more + 1 := ⟨fuel' - 1, by omega⟩
            have hsame := hagree at_ (by omega) (by omega)
            rw [hbyte] at hsame
            have hrest := hlocal other more (hagree.narrow (by omega) (by omega)) (by omega)
            simp [skipLabels, hsame, hzero, hpointer, hlabel, hrest]

theorem skipName_agree {after : Nat} (h : skipName bytes at_ = .ok after) :
    at_ < after ∧ after ≤ bytes.length ∧ ∀ other, Agree at_ after bytes other →
      skipName other at_ = .ok after := by
  obtain ⟨hlt, hle, hlocal⟩ := skipLabels_agree _ h
  refine ⟨hlt, hle, fun other hagree => hlocal other _ hagree ?_⟩
  have hother := hagree.length hlt hle
  omega

/-- The skip of a question: its name, type and class. -/
def skipQuestion (bytes : ByteList) (at_ : Nat) : Except Failure Nat :=
  (skipName bytes at_).map (· + 4)

theorem skipQuestion_local : Local skipQuestion := by
  intro bytes at_ after h
  unfold skipQuestion at h
  cases hname : skipName bytes at_ with
  | error err =>
    rw [hname] at h
    cases h
  | ok named =>
    rw [hname] at h
    have hafter : named + 4 = after := Except.ok.inj h
    subst hafter
    obtain ⟨hlt, -, hlocal⟩ := skipName_agree hname
    refine ⟨by omega, fun other hagree => ?_⟩
    simp [skipQuestion, hlocal other (hagree.narrow (by omega) (by omega)), Except.map]

theorem skipRecord_local : Local skipRecord := by
  intro bytes at_ after h
  obtain ⟨named, hname, h⟩ := ok_of_bind h
  obtain ⟨rdlen, hrdlen, h⟩ := ok_of_bind h
  obtain ⟨hlt, -, hlocal⟩ := skipName_agree hname
  dsimp only at h
  split at h
  · cases h
  · rename_i hinside
    cases h
    refine ⟨by omega, fun other hagree => ?_⟩
    have hother := hagree.length (by omega) (by omega)
    have hname' := hlocal other (hagree.narrow (by omega) (by omega))
    have hrdlen' := u16At_agree hrdlen (hagree.narrow (by omega) (by omega))
    simp only [skipRecord, hname', hrdlen', bind, Except.bind]
    rw [if_neg (by omega)]

theorem repeatSkip_agree {skip : ByteList → Nat → Except Failure Nat} (hskip : Local skip)
    (count : Nat) {after : Nat} (h : repeatSkip (skip bytes) count at_ = .ok after) :
    at_ ≤ after ∧ ∀ other, Agree at_ after bytes other →
      repeatSkip (skip other) count at_ = .ok after := by
  induction count generalizing at_ with
  | zero =>
    cases h
    exact ⟨Nat.le_refl _, fun other _ => rfl⟩
  | succ count ih =>
    obtain ⟨next, hnext, hrest⟩ := ok_of_bind h
    obtain ⟨hlt, hlocal⟩ := hskip hnext
    obtain ⟨hle, hlater⟩ := ih hrest
    refine ⟨by omega, fun other hagree => ?_⟩
    have hfirst := hlocal other (hagree.narrow (by omega) hle)
    have hsecond := hlater other (hagree.narrow (by omega) (by omega))
    simp [repeatSkip, hfirst, hsecond, bind, Except.bind]

/-- Two messages agree up to `start`, but for their ids and the counts of their
additional records. -/
def AgreeBefore (start : Nat) (bytes other : ByteList) : Prop :=
  Agree 2 arcountAt bytes other ∧ Agree headerLen start bytes other

/-- **Found again.** The last record starts where it does in every byte string that
holds the bytes before it, the id and the count of additional records apart. -/
theorem skipToTsig_agree {arcount start : Nat} (h : skipToTsig bytes arcount = .ok start)
    (hagree : AgreeBefore start bytes other) :
    headerLen ≤ start ∧ skipToTsig other arcount = .ok start := by
  obtain ⟨questions, hquestions, h⟩ := ok_of_bind h
  obtain ⟨middle, hmiddle, h⟩ := ok_of_bind h
  obtain ⟨answers, hanswers, h⟩ := ok_of_bind h
  obtain ⟨authorities, hauthorities, hstart⟩ := ok_of_bind h
  obtain ⟨hheader, hbody⟩ := hagree
  have hcount : ∀ {at_ n}, 2 ≤ at_ → at_ + 2 ≤ arcountAt → u16At bytes at_ = .ok n →
      u16At other at_ = .ok n :=
    fun hlow hhigh hread => u16At_agree hread (hheader.narrow hlow hhigh)
  obtain ⟨hle, hskipped⟩ := repeatSkip_agree skipQuestion_local questions hmiddle
  obtain ⟨hle', hskipped'⟩ := repeatSkip_agree skipRecord_local _ hstart
  have hfirst := hskipped other (hbody.narrow (Nat.le_refl _) hle')
  have hsecond := hskipped' other (hbody.narrow hle (Nat.le_refl _))
  refine ⟨Nat.le_trans hle hle', ?_⟩
  unfold skipQuestion at hfirst
  simp only [skipToTsig, hcount (by decide) (by decide) hquestions,
    hcount (by decide) (by decide) hanswers, hcount (by decide) (by decide) hauthorities,
    hfirst, hsecond, bind, Except.bind]

end Detent.Guarantees.TsigSkips
