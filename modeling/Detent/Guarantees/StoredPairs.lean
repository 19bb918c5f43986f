import Detent.Guarantees.AtomicWrite
import Detent.Guarantees.Framing
import Detent.Lib.Except
import Detent.Source.Tls

/-!
# Which stored pairs are found again

The writer and the reader of the pair file agree on every file the reader accepts: both
are the bytes of one pair, and the reader's only other demand is that the certificates
are at most `maxPairCerts`. The writer has no such limit. A longer chain is stored with
success, and reading the file again reports it as absent.
-/
namespace Detent.Guarantees.StoredPairs
open Lib Source Source.Transport Source.Tls
open Source.Atomic (WriteRequest WriteOutcome AtomicError writeAtomic)
open Framing (fromBeBytes_toBeBytes)
open Fallible (exec exec_bind exec_bind_eq_ok)
open List (append_assoc append_nil)

variable {head rest : Bytes}

theorem toBeBytes_fromBeBytes (h : head.length = 4) : toBeBytes (fromBeBytes head) = head := by
  match head, h with
  | [a, b, c, d], _ =>
    have ha := a.toNat_lt
    have hb := b.toNat_lt
    have hc := c.toNat_lt
    have hd := d.toNat_lt
    simp only [fromBeBytes, toBeBytes, List.map_cons, List.map_nil, List.foldl_cons,
      List.foldl_nil, List.cons.injEq, and_true, ← UInt8.toNat_inj, UInt8.toNat_ofNat']
    refine ⟨?_, ?_, ?_, ?_⟩ <;> omega

theorem fromBeBytes_lt (h : head.length = 4) : fromBeBytes head < 2 ^ 32 := by
  match head, h with
  | [a, b, c, d], _ =>
    have ha := a.toNat_lt
    have hb := b.toNat_lt
    have hc := c.toNat_lt
    have hd := d.toNat_lt
    simp only [fromBeBytes, List.foldl_cons, List.foldl_nil]
    omega

variable {input encoded : Bytes} {pair : CertifiedKeyPair} {err : TlsError}

theorem splitAtChecked_ok_iff {mid : Nat} :
    splitAtChecked input mid = .ok (head, rest) ↔ head.length = mid ∧ input = head ++ rest := by
  unfold splitAtChecked
  constructor
  · intro h
    split at h
    · rename_i hroom
      cases h
      exact ⟨by rw [List.length_take]; omega, (List.take_append_drop mid input).symm⟩
    · cases h
  · intro ⟨hlength, hinput⟩
    subst hlength hinput
    rw [if_pos (by simp), List.take_left', List.drop_left'] <;> rfl

theorem splitAtChecked_append (head rest : Bytes) :
    splitAtChecked (head ++ rest) head.length = .ok (head, rest) :=
  splitAtChecked_ok_iff.mpr ⟨rfl, rfl⟩

/-- A value the format can hold. -/
def Fits (value : Bytes) : Prop := value ≠ [] ∧ value.length < 2 ^ 32

/-- A value behind its length. -/
def frame (value : Bytes) : Bytes := toBeBytes value.length ++ value

theorem writeLenPrefixed_ok_iff {output value written : Bytes} :
    writeLenPrefixed output value = .ok written ↔ Fits value ∧ written = output ++ frame value := by
  unfold writeLenPrefixed Fits frame
  dsimp only
  rw [ne_eq, ← List.length_eq_zero_iff]
  constructor
  · intro h
    split at h
    · cases h
    · split at h
      · cases h
      · rename_i hshort hsome
        cases h
        exact ⟨⟨hsome, by omega⟩, by rw [append_assoc]⟩
  · intro ⟨⟨hsome, hshort⟩, hwritten⟩
    rw [if_neg (by omega), if_neg hsome, hwritten, append_assoc]

theorem foldlM_writeLenPrefixed_ok_iff {values : List Bytes} {output written : Bytes} :
    values.foldlM writeLenPrefixed output = .ok written ↔
      (∀ value ∈ values, Fits value) ∧ written = output ++ values.flatMap frame := by
  induction values generalizing output with
  | nil =>
    rw [List.foldlM_nil, List.flatMap_nil, append_nil]
    constructor
    · intro h
      cases h
      exact ⟨by simp, rfl⟩
    · intro ⟨_, hwritten⟩
      rw [hwritten]
      rfl
  | cons value values ih =>
    rw [List.foldlM_cons, List.flatMap_cons, List.forall_mem_cons]
    constructor
    · intro h
      obtain ⟨next, hfirst, hrest⟩ := ok_of_bind h
      obtain ⟨hvalue, hnext⟩ := writeLenPrefixed_ok_iff.mp hfirst
      obtain ⟨hvalues, hwritten⟩ := ih.mp hrest
      exact ⟨⟨hvalue, hvalues⟩, by rw [hwritten, hnext, append_assoc]⟩
    · intro ⟨⟨hvalue, hvalues⟩, hwritten⟩
      rw [writeLenPrefixed_ok_iff.mpr ⟨hvalue, rfl⟩]
      exact ih.mpr ⟨hvalues, by rw [hwritten, append_assoc]⟩

theorem takeLenPrefixed_ok_iff {value : Bytes} :
    takeLenPrefixed input = .ok (value, rest) ↔ Fits value ∧ input = frame value ++ rest := by
  constructor
  · intro h
    obtain ⟨⟨head, tail⟩, hhead, h⟩ := ok_of_bind h
    obtain ⟨⟨value', rest'⟩, hvalue, h⟩ := ok_of_bind h
    obtain ⟨hfour, hinput⟩ := splitAtChecked_ok_iff.mp hhead
    obtain ⟨hlength, htail⟩ := splitAtChecked_ok_iff.mp hvalue
    dsimp only at h
    split at h
    · cases h
    · rename_i hsome
      cases h
      have hlt := fromBeBytes_lt hfour
      refine ⟨⟨by simpa using hsome, by rw [hlength]; exact hlt⟩, ?_⟩
      rw [frame, hlength, toBeBytes_fromBeBytes hfour, hinput, htail, append_assoc]
  · intro ⟨⟨hsome, hshort⟩, hinput⟩
    have hhead : splitAtChecked input 4 = .ok (toBeBytes value.length, value ++ rest) := by
      rw [splitAtChecked_ok_iff, hinput, frame, append_assoc]
      exact ⟨rfl, rfl⟩
    have hvalue : splitAtChecked (value ++ rest) (fromBeBytes (toBeBytes value.length)) =
        .ok (value, rest) := by
      rw [fromBeBytes_toBeBytes hshort]
      exact splitAtChecked_append value rest
    unfold takeLenPrefixed
    rw [hhead]
    change (splitAtChecked (value ++ rest) (fromBeBytes (toBeBytes value.length)) >>= _) = _
    rw [hvalue]
    cases value with
    | nil => exact absurd rfl hsome
    | cons b value => rfl

theorem takeCerts_ok_iff {count : Nat} {certs : List Bytes} :
    takeCerts count input = .ok (certs, rest) ↔
      certs.length = count ∧ (∀ cert ∈ certs, Fits cert) ∧
        input = certs.flatMap frame ++ rest := by
  induction count generalizing input certs with
  | zero =>
    rw [takeCerts, List.length_eq_zero_iff]
    constructor
    · intro h
      cases h
      exact ⟨rfl, by simp, rfl⟩
    · rintro ⟨rfl, _, rfl⟩
      rfl
  | succ count ih =>
    rw [takeCerts]
    constructor
    · intro h
      obtain ⟨⟨cert, tail⟩, hcert, h⟩ := ok_of_bind h
      obtain ⟨⟨others, rest'⟩, hothers, h⟩ := ok_of_bind h
      cases h
      obtain ⟨hfits, hinput⟩ := takeLenPrefixed_ok_iff.mp hcert
      obtain ⟨hlength, hall, htail⟩ := ih.mp hothers
      refine ⟨by rw [List.length_cons, hlength], List.forall_mem_cons.mpr ⟨hfits, hall⟩, ?_⟩
      rw [hinput, List.flatMap_cons, append_assoc, htail]
    · intro ⟨hlength, hall, hinput⟩
      cases certs with
      | nil => cases hlength
      | cons cert others =>
        rw [List.forall_mem_cons] at hall
        rw [List.flatMap_cons, append_assoc] at hinput
        rw [takeLenPrefixed_ok_iff.mpr ⟨hall.1, hinput⟩]
        change (takeCerts count (others.flatMap frame ++ rest) >>= _) = _
        rw [ih.mpr ⟨Nat.succ.inj hlength, hall.2, rfl⟩]
        rfl

/-- The certificates of a pair, the leaf first. -/
def chain (pair : CertifiedKeyPair) : List Bytes := pair.certDer :: pair.intermediates

/-- A pair the format can hold. -/
def Whole (pair : CertifiedKeyPair) : Prop :=
  (chain pair).length < 2 ^ 32 ∧ (∀ cert ∈ chain pair, Fits cert) ∧ Fits pair.keyPkcs8Der

/-- The file of a pair. -/
def file (pair : CertifiedKeyPair) : Bytes :=
  pairMagic ++ (toBeBytes (chain pair).length ++
    ((chain pair).flatMap frame ++ frame pair.keyPkcs8Der))

/-- The writer writes every pair the format can hold. -/
theorem encodePair_ok_iff : encodePair pair = .ok encoded ↔ Whole pair ∧ encoded = file pair := by
  unfold encodePair Whole file chain
  dsimp only
  constructor
  · intro h
    split at h
    · cases h
    · rename_i hcount
      obtain ⟨framed, hcerts, hkey⟩ := ok_of_bind h
      obtain ⟨hall, hframed⟩ := foldlM_writeLenPrefixed_ok_iff.mp hcerts
      obtain ⟨hfits, hencoded⟩ := writeLenPrefixed_ok_iff.mp hkey
      refine ⟨⟨by omega, hall, hfits⟩, ?_⟩
      rw [hencoded, hframed, append_assoc, append_assoc]
  · intro ⟨⟨hcount, hall, hfits⟩, hencoded⟩
    rw [if_neg (by omega), foldlM_writeLenPrefixed_ok_iff.mpr ⟨hall, rfl⟩]
    refine writeLenPrefixed_ok_iff.mpr ⟨hfits, ?_⟩
    rw [hencoded, append_assoc, append_assoc]

/-- The reader reads every pair the format can hold that has few enough certificates. -/
theorem decodePair_ok_iff :
    decodePair encoded = .ok pair ↔
      Whole pair ∧ (chain pair).length ≤ maxPairCerts ∧ encoded = file pair := by
  constructor
  · intro h
    obtain ⟨⟨magic, tail⟩, hmagic, h⟩ := ok_of_bind h
    dsimp only at h
    split at h
    · cases h
    rename_i hsame
    obtain ⟨⟨head, tail₁⟩, hhead, h⟩ := ok_of_bind h
    dsimp only at h
    split at h
    · cases h
    rename_i hcount
    obtain ⟨⟨certs, tail₂⟩, hcerts, h⟩ := ok_of_bind h
    obtain ⟨⟨key, tail₃⟩, hkey, h⟩ := ok_of_bind h
    dsimp only at h
    split at h
    · cases h
    rename_i hend
    obtain ⟨hlength, hall, htail₁⟩ := takeCerts_ok_iff.mp hcerts
    obtain ⟨hfits, htail₂ : tail₂ = _⟩ := takeLenPrefixed_ok_iff.mp hkey
    obtain ⟨hfour, htail⟩ := splitAtChecked_ok_iff.mp hhead
    obtain ⟨-, hencoded⟩ := splitAtChecked_ok_iff.mp hmagic
    have hbound := fromBeBytes_lt hfour
    cases certs with
    | nil => cases h
    | cons leaf intermediates =>
      cases h
      have hempty : tail₃ = [] := by simpa using hend
      refine ⟨⟨?_, hall, hfits⟩, ?_, ?_⟩
      · exact hlength ▸ hbound
      · have hchain : (chain (.fromDerChain leaf intermediates key)).length = fromBeBytes head :=
          hlength
        omega
      · have hchain : chain (.fromDerChain leaf intermediates key) = leaf :: intermediates := rfl
        rw [file, hchain, hlength, toBeBytes_fromBeBytes hfour, hencoded, htail, htail₁, htail₂,
          hempty, not_ne_iff.mp hsame, append_nil]
        rfl
  · rintro ⟨⟨hcount, hall, hfits⟩, hfew, rfl⟩
    have hmagic : splitAtChecked (file pair) pairMagic.length = .ok (pairMagic, _) :=
      splitAtChecked_append pairMagic _
    have hhead : splitAtChecked (toBeBytes (chain pair).length ++
        ((chain pair).flatMap frame ++ frame pair.keyPkcs8Der)) 4 = .ok (_, _) :=
      splitAtChecked_append (toBeBytes (chain pair).length) _
    have hcerts : takeCerts (chain pair).length
        ((chain pair).flatMap frame ++ frame pair.keyPkcs8Der) = .ok (chain pair, _) :=
      takeCerts_ok_iff.mpr ⟨rfl, hall, rfl⟩
    have hkey := takeLenPrefixed_ok_iff.mpr ⟨hfits, (append_nil _).symm⟩
    have hsome : (chain pair).length ≠ 0 := by simp [chain]
    unfold decodePair
    simp only [hmagic, hhead, hcerts, hkey, fromBeBytes_toBeBytes hcount, bind, Except.bind]
    rw [if_neg (by simp), if_neg (by omega)]
    rfl

/-- Two pairs have different files: what is read from the front of a file is one value. -/
theorem file_inj {other : CertifiedKeyPair} (hpair : Whole pair) (hother : Whole other)
    (hsame : file pair = file other) : pair = other := by
  obtain ⟨hcounts, hframes⟩ := List.append_inj (List.append_cancel_left hsame) rfl
  have hlength : (chain pair).length = (chain other).length := by
    rw [← fromBeBytes_toBeBytes hpair.1, hcounts, fromBeBytes_toBeBytes hother.1]
  have hcerts : takeCerts (chain pair).length ((chain pair).flatMap frame ++
      frame pair.keyPkcs8Der) = .ok (chain pair, frame pair.keyPkcs8Der) :=
    takeCerts_ok_iff.mpr ⟨rfl, hpair.2.1, rfl⟩
  rw [takeCerts_ok_iff.mpr ⟨hlength.symm, hother.2.1, hframes⟩] at hcerts
  injection hcerts with hcerts
  obtain ⟨hchain, hframe⟩ := Prod.mk.inj hcerts
  have hkey : takeLenPrefixed (frame pair.keyPkcs8Der) = .ok (pair.keyPkcs8Der, []) :=
    takeLenPrefixed_ok_iff.mpr ⟨hpair.2.2, (append_nil _).symm⟩
  rw [← hframe, takeLenPrefixed_ok_iff.mpr ⟨hother.2.2, (append_nil _).symm⟩] at hkey
  injection hkey with hkey
  obtain ⟨hleaf, hintermediates⟩ := List.cons.inj hchain
  cases pair
  cases other
  exact CertifiedKeyPair.mk.injEq .. ▸ ⟨hleaf.symm, hintermediates.symm, (Prod.mk.inj hkey).1.symm⟩

theorem splitAtChecked_error {mid : Nat} (h : splitAtChecked input mid = .error err) :
    err = .pem := by
  unfold splitAtChecked at h
  split at h
  · cases h
  · cases h
    rfl

theorem takeLenPrefixed_error (h : takeLenPrefixed input = .error err) : err = .pem := by
  rcases error_of_bind h with hhead | ⟨⟨head, tail⟩, -, h⟩
  · exact splitAtChecked_error hhead
  rcases error_of_bind h with hvalue | ⟨⟨value, rest⟩, -, h⟩
  · exact splitAtChecked_error hvalue
  dsimp only at h
  split at h
  · cases h
    rfl
  · cases h

theorem takeCerts_error {count : Nat} (h : takeCerts count input = .error err) : err = .pem := by
  induction count generalizing input with
  | zero => cases h
  | succ count ih =>
    rw [takeCerts] at h
    rcases error_of_bind h with hcert | ⟨⟨cert, tail⟩, -, h⟩
    · exact takeLenPrefixed_error hcert
    rcases error_of_bind h with hothers | ⟨⟨others, rest⟩, -, h⟩
    · exact ih hothers
    · cases h

/-- Every failure of the reader is the one `load_acme` reports as an absent pair. -/
theorem decodePair_error (h : decodePair encoded = .error err) : err = .pem := by
  rcases error_of_bind h with hmagic | ⟨⟨magic, tail⟩, -, h⟩
  · exact splitAtChecked_error hmagic
  dsimp only at h
  split at h
  · cases h
    rfl
  rcases error_of_bind h with hhead | ⟨⟨head, tail₁⟩, -, h⟩
  · exact splitAtChecked_error hhead
  dsimp only at h
  split at h
  · cases h
    rfl
  rcases error_of_bind h with hcerts | ⟨⟨certs, tail₂⟩, -, h⟩
  · exact takeCerts_error hcerts
  rcases error_of_bind h with hkey | ⟨⟨key, tail₃⟩, -, h⟩
  · exact takeLenPrefixed_error hkey
  dsimp only at h
  split at h
  · cases h
    rfl
  · cases certs with
    | nil =>
      cases h
      rfl
    | cons leaf intermediates => cases h

theorem join_ne {dir : Path} {name name' : String} (h : name ≠ name') :
    join dir name ≠ join dir name' := by
  unfold join
  intro hsame
  split at hsame
  all_goals exact h ((String.append_right_inj _).mp hsame)

/-- The call leaves the file at `path` alone. -/
def Spares (path : Path) : {β : Type} → DirOp β → Prop
  | _, .removeFile gone => gone ≠ path
  | _, _ => True

variable {host : CertHost} {d d' : Disk} {certDir path : Path}

theorem perform_node {β : Type} {op : DirOp β} {result : Except ErrorKind β}
    (hspares : Spares path op) (h : op.perform host d = (result, d')) :
    d'.node path = d.node path := by
  unfold DirOp.perform at h
  split at h
  · cases h
    rfl
  · cases op with
    | removeFile gone =>
      simp only [DirOp.effect] at h
      split at h
      · cases h
        exact Function.update_of_ne (Ne.symm hspares) _ _
      · cases h
        rfl
    | read file =>
      simp only [DirOp.effect] at h
      split at h <;> cases h <;> rfl
    | createDirAll | mode | setPermissions =>
      cases h
      rfl

section Calls

variable [Sha256]

theorem exec_certCall {β : Type} (op : DirOp β) (d : Disk) :
    exec (certs host) (Fallible.perform (.call op) : CertM _) d =
      (.ok (op.perform host d).1, (op.perform host d).2) := rfl

theorem exec_liftExcept {α : Type} (x : Except TlsError α) (d : Disk) :
    exec (certs host) (liftExcept x : CertM α) d = (x, d) := by
  cases x <;> rfl

theorem call_node {β : Type} {err : ErrorKind → TlsError} {op : DirOp β}
    {result : Except TlsError β} (hspares : Spares path op)
    (h : exec (certs host) (call err op) d = (result, d')) :
    d'.node path = d.node path := by
  unfold call at h
  rw [exec_bind, exec_certCall] at h
  rcases hcall : op.perform host d with ⟨kind | value, t⟩
  all_goals
    rw [hcall] at h
    cases h
    exact perform_node hspares hcall

/-- A key file that was written holds its contents. -/
theorem writeKeyFile_ok {filename : String} {contents : Bytes}
    (h : exec (certs host) (writeKeyFile certDir filename contents) d = (.ok (), d')) :
    d'.node (join certDir filename) = some (.file contents) := by
  obtain ⟨outcome, d₁, hwrite, h⟩ := exec_bind_eq_ok _ h
  rw [Fallible.exec_perform] at hwrite
  injection hwrite with hresult hd₁
  injection hresult with hresult
  cases outcome with
  | error source => cases h
  | ok outcome =>
    have hmode : Spares (join certDir filename)
      (.setPermissions (join certDir filename) keyMode) := trivial
    rw [call_node hmode h]
    obtain ⟨previous, hwrote⟩ := writeAtomic_ok (Prod.ext hresult hd₁)
    rw [hwrote.written]
    exact Function.update_self ..

/-- The removal of the legacy files leaves every other file alone. -/
theorem removeLegacy_node {names : List String} {result : Except TlsError Unit}
    (hothers : ∀ name ∈ names, join certDir name ≠ path)
    (h : exec (certs host) (removeLegacy certDir names) d = (result, d')) :
    d'.node path = d.node path := by
  induction names generalizing d with
  | nil =>
    cases h
    rfl
  | cons name names ih =>
    rw [List.forall_mem_cons] at hothers
    have hspares : Spares path (.removeFile (join certDir name)) := hothers.1
    rw [removeLegacy, exec_bind, exec_certCall] at h
    rcases hcall : (DirOp.removeFile (join certDir name)).perform host d with ⟨kind | _, t⟩
    · rw [hcall] at h
      have hnode : t.node path = d.node path := perform_node hspares hcall
      cases kind with
      | notFound => rw [ih hothers.2 h, hnode]
      | _ =>
        cases h
        exact hnode
    · rw [hcall] at h
      rw [ih hothers.2 h, perform_node hspares hcall]

/-- A pair that was stored was encoded, and its file is the encoding. -/
theorem storePair_ok {filename : String} {legacy : List String}
    (hothers : ∀ name ∈ legacy, name ≠ filename)
    (h : exec (certs host) (storePair certDir filename pair legacy) d = (.ok (), d')) :
    Whole pair ∧ d'.node (join certDir filename) = some (.file (file pair)) := by
  obtain ⟨isDir, d₁, hdir, h⟩ := exec_bind_eq_ok _ h
  obtain ⟨_, d₂, hcreate, h⟩ := exec_bind_eq_ok _ h
  obtain ⟨_, d₃, hconfine, h⟩ := exec_bind_eq_ok _ h
  obtain ⟨encoded, d₄, hencode, h⟩ := exec_bind_eq_ok _ h
  obtain ⟨_, d₅, hwrite, hremove⟩ := exec_bind_eq_ok _ h
  rw [exec_liftExcept] at hencode
  injection hencode with hencoded _
  obtain ⟨hwhole, hencoded⟩ := encodePair_ok_iff.mp hencoded
  refine ⟨hwhole, ?_⟩
  rw [removeLegacy_node (fun name hname => join_ne (hothers name hname)) hremove,
    writeKeyFile_ok hwrite, hencoded]

theorem readOptional_file {contents : Bytes} (hfile : d.node path = some (.file contents))
    (hreads : host.refused d.tick (.read path) = none) :
    exec (certs host) (readOptional path) d =
      (.ok (some contents), { d with tick := d.tick + 1 }) := by
  have hcall : (DirOp.read path).perform host d = (.ok contents, { d with tick := d.tick + 1 }) := by
    simp only [DirOp.perform, hreads, DirOp.effect, hfile]
  unfold readOptional
  rw [exec_bind, exec_certCall, hcall]
  rfl

variable {fits : CertifiedKeyPair → Bool}

theorem loadAcme_file (hfile : d.node (join certDir acmePairFile) = some (.file encoded))
    (hreads : host.refused d.tick (.read (join certDir acmePairFile)) = none) :
    (exec (certs host) (loadAcme fits certDir) d).1 =
      .ok ((decodePair encoded).toOption.filter fits) := by
  unfold loadAcme storedAcme
  rw [exec_bind, exec_bind, readOptional_file hfile hreads]
  dsimp only
  cases hdecode : decodePair encoded with
  | ok pair => rfl
  | error err =>
    rw [decodePair_error hdecode]
    rfl

omit [Sha256] in
theorem decodePair_file (hwhole : Whole pair) :
    (decodePair (file pair)).toOption =
      if (chain pair).length ≤ maxPairCerts then some pair else none := by
  split
  · rename_i hfew
    rw [decodePair_ok_iff.mpr ⟨hwhole, hfew, rfl⟩]
    rfl
  · rename_i hmany
    cases hdecode : decodePair (file pair) with
    | error err => rfl
    | ok other =>
      obtain ⟨hother, hfew, hsame⟩ := decodePair_ok_iff.mp hdecode
      exact absurd (file_inj hwhole hother hsame ▸ hfew) hmany

/-- What is loaded of a pair that was stored, when nothing else wrote its file. -/
theorem storeAcme_loadAcme {host' : CertHost} {d₁ d₂ : Disk}
    (hstored : exec (certs host) (storeAcme certDir pair) d = (.ok (), d₁))
    (hfile : d₂.node (join certDir acmePairFile) = d₁.node (join certDir acmePairFile))
    (hreads : host'.refused d₂.tick (.read (join certDir acmePairFile)) = none) :
    (exec (certs host') (loadAcme fits certDir) d₂).1 =
      .ok ((if (chain pair).length ≤ maxPairCerts then some pair else none).filter fits) := by
  have hothers : ∀ name ∈ [legacyAcmeCertFile, legacyAcmeKeyFile], name ≠ acmePairFile := by
    decide
  obtain ⟨hwhole, hwritten⟩ := storePair_ok hothers hstored
  rw [loadAcme_file (hfile.trans hwritten) hreads, decodePair_file hwhole]

/-- A pair that was encoded is found again in its file exactly when it has at most
`maxPairCerts` certificates; what is found in a file has that file; and a pair that was
stored and fits is loaded exactly when it has at most that many certificates. -/
theorem stored_pair_found_iff (fits : CertifiedKeyPair → Bool) (host host' : CertHost)
    (certDir : Path) (pair : CertifiedKeyPair) :
    (∀ encoded, encodePair pair = .ok encoded →
      (decodePair encoded = .ok pair ↔ 1 + pair.intermediates.length ≤ maxPairCerts)) ∧
    (∀ encoded, decodePair encoded = .ok pair → encodePair pair = .ok encoded) ∧
    ∀ d d₁ d₂, Fallible.exec (certs host) (storeAcme certDir pair) d = (.ok (), d₁) →
      fits pair = true →
      d₂.node (join certDir acmePairFile) = d₁.node (join certDir acmePairFile) →
      host'.refused d₂.tick (.read (join certDir acmePairFile)) = none →
      ((Fallible.exec (certs host') (loadAcme fits certDir) d₂).1 = .ok (some pair) ↔
        1 + pair.intermediates.length ≤ maxPairCerts) := by
  have hcount : (chain pair).length = 1 + pair.intermediates.length := Nat.add_comm _ _
  rw [← hcount]
  refine ⟨?_, ?_, ?_⟩
  · intro encoded hencoded
    obtain ⟨hwhole, rfl⟩ := encodePair_ok_iff.mp hencoded
    rw [decodePair_ok_iff]
    constructor
    · intro ⟨_, hfew, _⟩
      exact hfew
    · intro hfew
      exact ⟨hwhole, hfew, rfl⟩
  · intro encoded hdecoded
    obtain ⟨hwhole, -, hencoded⟩ := decodePair_ok_iff.mp hdecoded
    exact encodePair_ok_iff.mpr ⟨hwhole, hencoded⟩
  · intro d d₁ d₂ hstored hfits hfile hreads
    rw [storeAcme_loadAcme hstored hfile hreads]
    by_cases hfew : (chain pair).length ≤ maxPairCerts
    · simp [hfew, hfits]
    · simp [hfew]

end Calls

local instance : Sha256 := ⟨fun _ => ⟨""⟩⟩

/-- A host on which every call succeeds. -/
def willing : CertHost where
  systemTime := fun _ => 0
  instant := fun _ => 0
  modified := fun _ => 0
  fault := fun _ _ _ => none
  tempRefused := fun _ => false
  ownerPreserved := fun _ => true
  runCheck := fun _ _ _ => .error (.unavailable "")
  hook := fun _ _ _ => .error (.unavailable "")
  isDir := fun _ _ => true
  mode := fun _ _ => 0o755
  through := fun _ _ => .error .other
  refused := fun _ _ _ => none

/-- A certificate directory without files. -/
def emptyStore : Disk where
  node := fun _ => none
  backups := fun _ => BackupDir.empty
  inPlace := none
  pending := none
  taken := []
  tick := 0

/-- A pair of a leaf and `n` intermediates. -/
def chained (n : Nat) : CertifiedKeyPair :=
  { certDer := [1], intermediates := List.replicate n [2], keyPkcs8Der := [3] }

/-- The pair of `chained` stored in an empty directory. -/
def storedChain (n : Nat) : Except TlsError Unit × Disk :=
  exec (certs willing) (storeAcme "certs" (chained n)) emptyStore

/-- Seventeen certificates are stored, and not found again. -/
theorem long_chain_lost :
    (∃ encoded, encodePair (chained 16) = .ok encoded ∧ decodePair encoded = .error .pem) ∧
      (storedChain 16).1 = .ok () ∧
      (Fallible.exec (certs willing) (loadAcme (fun _ => true) "certs") (storedChain 16).2).1 =
        .ok none := by
  refine ⟨⟨file (chained 16), ?_, ?_⟩, ?_, ?_⟩
  all_goals decide +kernel

/-- A leaf and two intermediates are stored, and found again. -/
theorem short_chain_found :
    (Fallible.exec (certs willing) (loadAcme (fun _ => true) "certs") (storedChain 2).2).1 =
      .ok (some (chained 2)) := by
  obtain ⟨-, -, hloaded⟩ :=
    stored_pair_found_iff (fun _ => true) willing willing "certs" (chained 2)
  have hstored : (storedChain 2).1 = .ok () := by decide +kernel
  exact (hloaded emptyStore (storedChain 2).2 (storedChain 2).2 (Prod.ext hstored rfl) rfl rfl
    rfl).mpr (by decide)

end Detent.Guarantees.StoredPairs
