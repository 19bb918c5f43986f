import Detent.Lib.Except
import Detent.Source.Verify

/-!
# What a log entry binds

`crates/detent-update/src/verify.rs:109-212,289-303,360-426,863-933`. Two bundles that
are accepted with one log body: what of the signature, the leaf's key, the payload type
and the payload they share. A `hashedrekord` entry and a Rekor v2 entry name the
signature and the key, and the signature covers the encoding of type and payload. A
`dsse` entry is compared by signature and payload hash only.
-/
namespace Detent.Guarantees.EntryBinding
open Lib Lib.Text Source Source.SerdeJson Source.Verify

variable {x : Libraries} {d d₁ d₂ : Decoded} {error : VerificationError} {leafDer : Bytes}

theorem check_ok {condition : Bool} {u : Unit} (h : check error condition = .ok u) :
    condition = true := by
  unfold check at h
  split at h
  · assumption
  · cases h

theorem orRefuse_ok {α : Type} {o : Option α} {a : α} (h : orRefuse error o = .ok a) :
    o = some a := by
  cases o with
  | none => cases h
  | some b => exact congrArg some (Except.ok.inj h)

/-- Decimal digits are encoded without a space. -/
theorem space_not_mem_decimal (n : Nat) : (32 : UInt8) ∉ utf8 (decimal n) := by
  intro hmem
  obtain ⟨c, hc, hbyte⟩ := List.mem_flatMap.mp hmem
  have hdigit : c.isDigit = true := Nat.isDigit_of_mem_toDigits (by decide) (by decide) hc
  have hascii : c.val.toNat ≤ 57 ∧ 48 ≤ c.val.toNat := by
    simp only [Char.isDigit, Bool.and_eq_true, decide_eq_true_eq] at hdigit
    exact ⟨hdigit.2, hdigit.1⟩
  unfold String.utf8EncodeChar at hbyte
  dsimp only at hbyte
  rw [if_pos (by omega)] at hbyte
  have hval := congrArg UInt8.toNat (List.mem_singleton.mp hbyte)
  simp only [UInt8.toNat_ofNat'] at hval
  have : (32 : UInt8).toNat = 32 := rfl
  omega

theorem decimal_injective : Function.Injective decimal := by
  intro m n h
  have hread := congrArg (Nat.ofDigitChars 10 · 0) h
  simpa only [decimal, Nat.ofDigitChars_ten_toDigits] using hread

/-- A number and a space at the front of two equal byte strings. -/
theorem number_inj {m n : Nat} {s t : Bytes}
    (h : utf8 (decimal m) ++ 32 :: s = utf8 (decimal n) ++ 32 :: t) : m = n ∧ s = t := by
  obtain ⟨hnumber, hrest⟩ :=
    append_sep_inj (space_not_mem_decimal m) (space_not_mem_decimal n) h
  exact ⟨decimal_injective (utf8_injective hnumber), hrest⟩

theorem dssePae_injective {type₁ type₂ payload₁ payload₂ : Bytes}
    (h : dssePae type₁ payload₁ = dssePae type₂ payload₂) :
    type₁ = type₂ ∧ payload₁ = payload₂ := by
  have hspace : utf8 [' '] = [32] := rfl
  simp only [dssePae, hspace, List.append_assoc, List.singleton_append] at h
  obtain ⟨hlength, htypes⟩ := number_inj (List.append_cancel_left h)
  obtain ⟨htype, hrest⟩ := List.append_inj htypes hlength
  exact ⟨htype, (number_inj (List.cons.inj hrest).2).2⟩

/-- The decoded text of the body at a pointer. -/
def decodedAt (x : Libraries) (body : Bytes) (tokens : List String) : Option Bytes :=
  (((x.fromSlice body).bind (fun value => value.pointer tokens)).bind Value.asStr).bind
    (fun s => Base64.decode s.toList)

/-- Where a `dsse` body and a `hashedrekord` body have the signature. -/
def dsseSignatureAt : List String := ["spec", "signatures", "0", "signature"]
def hashedrekordSignatureAt : List String := ["spec", "signature", "content"]

/-- What the body of an accepted bundle agrees on with it. -/
inductive Bound (x : Libraries) (d : Decoded) (leafDer : Bytes) (leaf : Certificate) : Prop
  | dsse (hkind : d.kind = "dsse")
      (hsignature : decodedAt x d.body dsseSignatureAt = some d.dsseSignature)
      (hpayload : ∃ value s, x.fromSlice d.body = some value ∧
        value.pointer ["spec", "payloadHash", "value"] = some (.string s) ∧
        s.toList = hexLower (x.sha256 d.dssePayload))
  | hashedrekord (hkind : d.kind = "hashedrekord") (hversion : d.isRekorV2 = false)
      (hsignature : decodedAt x d.body hashedrekordSignatureAt = some d.dsseSignature)
      (hkey : ∃ pem keyDer, decodedAt x d.body ["spec", "signature", "publicKey"] = some pem ∧
        pemBody pem "PUBLIC KEY".toList = some keyDer ∧
        x.subjectPublicKey keyDer = some leaf.publicKey)
  | rekorV2 (hkind : d.kind = "hashedrekord") (hversion : d.isRekorV2 = true)
      (hbody : d.body = utf8 (rekorV2Text
        (Base64.encode (x.sha256 (dssePae (utf8 d.dssePayloadType) d.dssePayload)))
        (Base64.encode d.dsseSignature) (Base64.encode leafDer)))

variable {tokens : List String} {leaf : Certificate}

theorem textAt_ok {value : Value} {t : Text} (h : textAt value tokens = .ok t) :
    ∃ s, value.pointer tokens = some (.string s) ∧ s.toList = t := by
  obtain ⟨found, hpointer, hstr⟩ := Option.bind_eq_some_iff.mp (orRefuse_ok h)
  cases found with
  | string s => exact ⟨s, hpointer, Option.some.inj hstr⟩
  | null | bool | number | array | object => cases hstr

theorem decodedAt_of {body : Bytes} {value : Value} {t : Text} {bytes : Bytes}
    (hvalue : x.fromSlice body = some value) (htext : textAt value tokens = .ok t)
    (hbytes : Base64.decode t = some bytes) : decodedAt x body tokens = some bytes := by
  obtain ⟨s, hpointer, rfl⟩ := textAt_ok htext
  simp only [decodedAt, hvalue, Option.bind_some, hpointer, Value.asStr, hbytes]

theorem bound_of_agreement {u : Unit} (hversion : d.isRekorV2 = false)
    (h : verifyBodyAgreement x d leaf.publicKey = .ok u) : Bound x d leafDer leaf := by
  obtain ⟨value, hvalue, h⟩ := ok_of_bind h
  have hvalue := orRefuse_ok hvalue
  split at h
  · rename_i hkind
    obtain ⟨signature, hsignature, h⟩ := ok_of_bind h
    obtain ⟨bytes, hbytes, h⟩ := ok_of_bind h
    obtain ⟨_, hsame, h⟩ := ok_of_bind h
    obtain ⟨payloadHash, hhash, hlast⟩ := ok_of_bind h
    obtain rfl : bytes = d.dsseSignature := of_decide_eq_true (check_ok hsame)
    obtain ⟨s, hpointer, hs⟩ := textAt_ok hhash
    have hpayload : payloadHash = hexLower (x.sha256 d.dssePayload) := of_decide_eq_true (check_ok hlast)
    exact .dsse hkind (decodedAt_of hvalue hsignature (orRefuse_ok hbytes))
      ⟨value, s, hvalue, hpointer, hs.trans hpayload⟩
  · split at h
    · rename_i hkind
      obtain ⟨content, hcontent, h⟩ := ok_of_bind h
      obtain ⟨publicKey, hpublicKey, h⟩ := ok_of_bind h
      obtain ⟨bytes, hbytes, h⟩ := ok_of_bind h
      obtain ⟨_, hsame, h⟩ := ok_of_bind h
      obtain ⟨pem, hpem, h⟩ := ok_of_bind h
      obtain ⟨keyDer, hkeyDer, h⟩ := ok_of_bind h
      obtain ⟨point, hpoint, hlast⟩ := ok_of_bind h
      obtain rfl : bytes = d.dsseSignature := of_decide_eq_true (check_ok hsame)
      obtain rfl : point = leaf.publicKey := of_decide_eq_true (check_ok hlast)
      exact .hashedrekord hkind hversion (decodedAt_of hvalue hcontent (orRefuse_ok hbytes))
        ⟨pem, keyDer, decodedAt_of hvalue hpublicKey (orRefuse_ok hpem), orRefuse_ok hkeyDer,
          orRefuse_ok hpoint⟩
    · cases h

/-- An accepted bundle: its leaf, the signature under the leaf's key and the agreement
with the body. -/
structure Accepted (x : Libraries) (d : Decoded) (leafDer : Bytes) (leaf : Certificate) : Prop where
  first : d.certs.head? = some leafDer
  parsed : x.certificate leafDer = some leaf
  signed : x.p256Verify leaf.publicKey (dssePae (utf8 d.dssePayloadType) d.dssePayload)
    d.dsseSignature = true
  bound : Bound x d leafDer leaf

theorem accepted_of_verify {fileDigest : Bytes} {pinned : String} {trust : TrustRoot} {u : Unit}
    (h : verifyForIdentity x d fileDigest pinned trust = .ok u) :
    ∃ leafDer leaf, Accepted x d leafDer leaf := by
  obtain ⟨times, -, h⟩ := ok_of_bind h
  obtain ⟨_, -, h⟩ := ok_of_bind h
  split at h
  · cases h
  · rename_i leafRaw intermediateRaws hcerts
    obtain ⟨leaf, hleaf, h⟩ := ok_of_bind h
    obtain ⟨_, -, h⟩ := ok_of_bind h
    obtain ⟨issuerSpki, -, h⟩ := ok_of_bind h
    obtain ⟨_, -, h⟩ := ok_of_bind h
    obtain ⟨_, -, h⟩ := ok_of_bind h
    obtain ⟨_, hsigned, h⟩ := ok_of_bind h
    obtain ⟨_, -, h⟩ := ok_of_bind h
    have hsigned := (Bool.and_eq_true _ _).mp (check_ok hsigned)
    refine ⟨leafRaw, leaf, by rw [hcerts]; rfl, orRefuse_ok hleaf, hsigned.2, ?_⟩
    split at h
    · rename_i hversion
      obtain ⟨key, -, h⟩ := ok_of_bind h
      obtain ⟨_, -, h⟩ := ok_of_bind h
      obtain ⟨body, hbody, h⟩ := ok_of_bind h
      obtain ⟨_, hsame, h⟩ := ok_of_bind h
      obtain ⟨_, -, hbody⟩ := ok_of_bind hbody
      cases hbody
      have hkind : d.kind = "hashedrekord" := by
        have := (Bool.and_eq_true _ _).mp hversion
        exact of_decide_eq_true this.1
      exact .rekorV2 hkind hversion (of_decide_eq_true (check_ok hsame)).symm
    · rename_i hversion
      obtain ⟨_, hinclusion, h⟩ := ok_of_bind h
      obtain ⟨_, -, hinclusion⟩ := ok_of_bind hinclusion
      obtain ⟨_, -, hagreement⟩ := ok_of_bind hinclusion
      exact bound_of_agreement (by simpa using hversion) hagreement

/-- The key of the leaf. -/
def leafKey (x : Libraries) (d : Decoded) : Option Bytes :=
  (d.certs.head?.bind x.certificate).map Certificate.publicKey

/-- The two bundles sign one thing with one key. -/
def SameSigned (x : Libraries) (d₁ d₂ : Decoded) : Prop :=
  d₁.dsseSignature = d₂.dsseSignature ∧ leafKey x d₁ = leafKey x d₂ ∧
    d₁.dssePayloadType = d₂.dssePayloadType ∧ d₁.dssePayload = d₂.dssePayload

/-- The value of a Rekor v2 body. -/
def rekorV2Value (digest content rawBytes : Text) : Value :=
  .object [("apiVersion", .string "0.0.2"), ("kind", .string "hashedrekord"),
    ("spec", .object [("hashedRekordV002", .object [
      ("data", .object [("algorithm", .string "SHA2_256"), ("digest", .string (String.ofList digest))]),
      ("signature", .object [("content", .string (String.ofList content)),
        ("verifier", .object [("keyDetails", .string "PKIX_ECDSA_P256_SHA_256"),
          ("x509Certificate", .object [("rawBytes", .string (String.ofList rawBytes))])])])])])]

/-- The JSON reader gives a Rekor v2 body the members it has. -/
def ReadsRekorV2 (x : Libraries) : Prop :=
  ∀ digest content rawBytes value,
    x.fromSlice (utf8 (rekorV2Text (Base64.encode digest) (Base64.encode content)
      (Base64.encode rawBytes))) = some value →
    value = rekorV2Value (Base64.encode digest) (Base64.encode content) (Base64.encode rawBytes)

theorem Accepted.leafKey (h : Accepted x d leafDer leaf) : leafKey x d = some leaf.publicKey := by
  unfold EntryBinding.leafKey
  rw [h.first, Option.bind_some, h.parsed]
  rfl

theorem same_of_signature {leafDer₁ leafDer₂ : Bytes} {leaf₁ leaf₂ : Certificate}
    (hunique : ∀ key m m' signature, x.p256Verify key m signature = true →
      x.p256Verify key m' signature = true → m = m')
    (h₁ : Accepted x d₁ leafDer₁ leaf₁) (h₂ : Accepted x d₂ leafDer₂ leaf₂)
    (hsignature : d₁.dsseSignature = d₂.dsseSignature)
    (hkey : leafKey x d₁ = leafKey x d₂) : SameSigned x d₁ d₂ := by
  have hkeys : leaf₁.publicKey = leaf₂.publicKey := by
    rw [h₁.leafKey, h₂.leafKey] at hkey
    exact Option.some.inj hkey
  have hsigned := h₂.signed
  rw [← hsignature, ← hkeys] at hsigned
  obtain ⟨htype, hpayload⟩ := dssePae_injective (hunique _ _ _ _ h₁.signed hsigned)
  exact ⟨hsignature, hkey, utf8_injective htype, hpayload⟩

theorem quote_not_mem_encode (bytes : Bytes) : '"' ∉ Base64.encode bytes :=
  Base64.not_mem_encode (by decide) (by decide) bytes

theorem quoted_inj {p₀ p₁ p₂ p₃ p₄ p₅ p₆ digest₁ digest₂ content₁ content₂ raw₁ raw₂ : Text}
    (hdigest₁ : '"' ∉ digest₁) (hdigest₂ : '"' ∉ digest₂) (hcontent₁ : '"' ∉ content₁)
    (hcontent₂ : '"' ∉ content₂) (hraw₁ : '"' ∉ raw₁) (hraw₂ : '"' ∉ raw₂)
    (h : p₀ ++ p₁ ++ digest₁ ++ '"' :: p₂ ++ p₃ ++ content₁ ++ '"' :: p₄ ++ p₅ ++ raw₁ ++ '"' :: p₆
      = p₀ ++ p₁ ++ digest₂ ++ '"' :: p₂ ++ p₃ ++ content₂ ++ '"' :: p₄ ++ p₅ ++ raw₂ ++ '"' :: p₆) :
    content₁ = content₂ ∧ raw₁ = raw₂ := by
  simp only [List.append_assoc, List.cons_append] at h
  have hdigest := List.append_cancel_left (List.append_cancel_left h)
  obtain ⟨-, hcontent⟩ := append_sep_inj hdigest₁ hdigest₂ hdigest
  have hcontent := List.append_cancel_left (List.append_cancel_left hcontent)
  obtain ⟨hsame, hraw⟩ := append_sep_inj hcontent₁ hcontent₂ hcontent
  have hraw := List.append_cancel_left (List.append_cancel_left hraw)
  exact ⟨hsame, (append_sep_inj hraw₁ hraw₂ hraw).1⟩

/-- The text of a Rekor v2 body tells the signature and the certificate. -/
theorem rekorV2Text_inj {digest₁ digest₂ content₁ content₂ raw₁ raw₂ : Bytes}
    (h : rekorV2Text (Base64.encode digest₁) (Base64.encode content₁) (Base64.encode raw₁)
      = rekorV2Text (Base64.encode digest₂) (Base64.encode content₂) (Base64.encode raw₂)) :
    content₁ = content₂ ∧ raw₁ = raw₂ := by
  unfold rekorV2Text at h
  obtain ⟨hcontent, hraw⟩ := quoted_inj (quote_not_mem_encode digest₁) (quote_not_mem_encode digest₂)
    (quote_not_mem_encode content₁) (quote_not_mem_encode content₂) (quote_not_mem_encode raw₁)
    (quote_not_mem_encode raw₂) h
  exact ⟨Base64.encode_injective hcontent, Base64.encode_injective hraw⟩

/-- A Rekor v2 body has none of the members of the other bodies. -/
theorem rekorV2_bare {bytes : Bytes} (hjson : ReadsRekorV2 x) (h : Bound x d leafDer leaf)
    (hversion : d.isRekorV2 = true)
    (htokens : tokens = dsseSignatureAt ∨ tokens = hashedrekordSignatureAt) :
    decodedAt x d.body tokens ≠ some bytes := by
  intro hat
  cases h with
  | dsse hkind =>
    simp [Decoded.isRekorV2, hkind] at hversion
  | hashedrekord hkind hold =>
    rw [hold] at hversion
    cases hversion
  | rekorV2 hkind _ hbody =>
    cases hvalue : x.fromSlice d.body with
    | none =>
      rw [decodedAt, hvalue] at hat
      cases hat
    | some value =>
      have hread : x.fromSlice d.body = some value := hvalue
      rw [hbody] at hread
      have hvalue' := hjson _ _ _ _ hread
      rw [decodedAt, hvalue, hvalue'] at hat
      rcases htokens with rfl | rfl
      · simp [rekorV2Value, Value.pointer, Value.member, dsseSignatureAt, List.lookup_cons] at hat
      · simp [rekorV2Value, Value.pointer, Value.member, hashedrekordSignatureAt,
          List.lookup_cons] at hat

/-- For two accepted bundles with one body. Neither entry declared `dsse`: both sign one
thing with one key. Both declared `dsse`: they share signature and payload, and sign one
thing exactly when their leaves have one key. One of them declared `dsse`: the other is a
Rekor v1 `hashedrekord` entry, and they sign one thing exactly when their leaves have one
key and the body has one signature in both places. -/
theorem entries_bind (hsha : Function.Injective x.sha256)
    (hunique : ∀ key m m' signature, x.p256Verify key m signature = true →
      x.p256Verify key m' signature = true → m = m')
    (hjson : ReadsRekorV2 x) {trust : TrustRoot} {digest₁ digest₂ : Bytes} {pinned₁ pinned₂ : String}
    (h₁ : verifyForIdentity x d₁ digest₁ pinned₁ trust = .ok ())
    (h₂ : verifyForIdentity x d₂ digest₂ pinned₂ trust = .ok ()) (hbody : d₁.body = d₂.body) :
    (d₁.kind ≠ "dsse" → d₂.kind ≠ "dsse" → SameSigned x d₁ d₂) ∧
    (d₁.kind = "dsse" → d₂.kind = "dsse" →
      d₁.dsseSignature = d₂.dsseSignature ∧ d₁.dssePayload = d₂.dssePayload ∧
      (SameSigned x d₁ d₂ ↔ leafKey x d₁ = leafKey x d₂)) ∧
    (d₁.kind = "dsse" → d₂.kind ≠ "dsse" → d₂.isRekorV2 = false ∧
      (SameSigned x d₁ d₂ ↔ leafKey x d₁ = leafKey x d₂ ∧
        decodedAt x d₁.body dsseSignatureAt = decodedAt x d₁.body hashedrekordSignatureAt)) := by
  obtain ⟨leafDer₁, leaf₁, hfirst⟩ := accepted_of_verify h₁
  obtain ⟨leafDer₂, leaf₂, hsecond⟩ := accepted_of_verify h₂
  have hsame := same_of_signature hunique hfirst hsecond
  refine ⟨fun hkind₁ hkind₂ => ?_, fun hkind₁ hkind₂ => ?_, fun hkind₁ hkind₂ => ?_⟩
  · cases hfirst.bound with
    | dsse hkind => exact absurd hkind hkind₁
    | hashedrekord hkind hversion hsignature hkey =>
      cases hsecond.bound with
      | dsse hkind => exact absurd hkind hkind₂
      | hashedrekord _ _ hsignature₂ hkey₂ =>
        obtain ⟨pem, keyDer, hpem, hbodyOf, hpoint⟩ := hkey
        obtain ⟨pem₂, keyDer₂, hpem₂, hbodyOf₂, hpoint₂⟩ := hkey₂
        rw [hbody] at hsignature hpem
        obtain rfl : pem = pem₂ := Option.some.inj (hpem.symm.trans hpem₂)
        obtain rfl : keyDer = keyDer₂ := Option.some.inj (hbodyOf.symm.trans hbodyOf₂)
        refine hsame (Option.some.inj (hsignature.symm.trans hsignature₂)) ?_
        rw [hfirst.leafKey, hsecond.leafKey, ← hpoint, ← hpoint₂]
      | rekorV2 _ hversion₂ _ =>
        rw [hbody] at hsignature
        exact absurd hsignature (rekorV2_bare hjson hsecond.bound hversion₂ (.inr rfl))
    | rekorV2 _ hversion hbody₁ =>
      cases hsecond.bound with
      | dsse hkind => exact absurd hkind hkind₂
      | hashedrekord _ _ hsignature₂ _ =>
        rw [← hbody] at hsignature₂
        exact absurd hsignature₂ (rekorV2_bare hjson hfirst.bound hversion (.inr rfl))
      | rekorV2 _ _ hbody₂ =>
        rw [hbody₁, hbody₂] at hbody
        obtain ⟨hsignature, rfl⟩ := rekorV2Text_inj (utf8_injective hbody)
        obtain rfl : leaf₁ = leaf₂ := Option.some.inj (hfirst.parsed.symm.trans hsecond.parsed)
        exact hsame hsignature (hfirst.leafKey.trans hsecond.leafKey.symm)
  · cases hfirst.bound with
    | hashedrekord hkind | rekorV2 hkind => simp [hkind] at hkind₁
    | dsse _ hsignature hpayload =>
      cases hsecond.bound with
      | hashedrekord hkind | rekorV2 hkind => simp [hkind] at hkind₂
      | dsse _ hsignature₂ hpayload₂ =>
        obtain ⟨value, s, hvalue, hpointer, hs⟩ := hpayload
        obtain ⟨value₂, s₂, hvalue₂, hpointer₂, hs₂⟩ := hpayload₂
        rw [hbody] at hsignature hvalue
        obtain rfl : value = value₂ := Option.some.inj (hvalue.symm.trans hvalue₂)
        obtain rfl : s = s₂ := by simpa using hpointer.symm.trans hpointer₂
        have hsignatures := Option.some.inj (hsignature.symm.trans hsignature₂)
        have hhashes : x.sha256 d₁.dssePayload = x.sha256 d₂.dssePayload :=
          hexPairs_injective (hs.symm.trans hs₂)
        exact ⟨hsignatures, hsha hhashes, fun h => h.2.1, hsame hsignatures⟩
  · cases hfirst.bound with
    | hashedrekord hkind | rekorV2 hkind => simp [hkind] at hkind₁
    | dsse _ hsignature _ =>
      cases hsecond.bound with
      | dsse hkind => exact absurd hkind hkind₂
      | rekorV2 _ hversion₂ _ =>
        rw [hbody] at hsignature
        exact absurd hsignature (rekorV2_bare hjson hsecond.bound hversion₂ (.inl rfl))
      | hashedrekord _ hversion hsignature₂ _ =>
        rw [← hbody] at hsignature₂
        refine ⟨hversion, fun h => ⟨h.2.1, ?_⟩, fun h => ?_⟩
        · rw [hsignature, hsignature₂, h.1]
        · rw [hsignature, hsignature₂] at h
          exact hsame (Option.some.inj h.2) h.1

namespace DsseSample

/-- The log body, and the value it reads as. -/
def body : Bytes := [7]

def payload : Bytes := [1]

def payloadType : Text := "t".toList

/-- A signature is the message it signs. -/
def signature : Bytes := dssePae (utf8 payloadType) payload

def bodyValue : Value :=
  .object [("spec", .object [
    ("signatures", .array [.object [("signature", .string (String.ofList (Base64.encode signature)))]]),
    ("payloadHash", .object [("value", .string (String.ofList (hexLower payload)))])])]

/-- A `TBSCertificate` of one extension. -/
def tbs : Bytes := [0x30, 0x12, 0xa3, 0x10, 0x30, 0x0e, 0x30, 0x0c] ++ sctListOidDer

def unsignedSct : Sct :=
  { versionIsV1 := true, keyId := [], timestamp := 0, extensions := [], hashAlg := 4, signAlg := 3,
    signature := [] }

def sct : Sct :=
  { unsignedSct with signature := signedEntry unsignedSct [] ((precertTbs tbs).getD []) }

/-- A certificate whose key is its DER. -/
def certificate (der : Bytes) : Certificate :=
  { publicKeyRaw := [], publicKey := der, tbs, signature := [], subject := [], issuer := []
    subjectAlternativeName := .ok (some [.uri "release"])
    extensions := [{ oid := issuerOid, value := utf8 issuerName.toList, scts := none },
      { oid := sctListOid, value := [], scts := some [sct] }] }

/-- Crates under which a signature does not tell its key. -/
def libraries : Libraries :=
  { sha256 := id
    fromSlice := fun bytes => if bytes = body then some bodyValue else none
    certificate := fun der => some (certificate der)
    subjectPublicKey := some
    p256Key := fun _ => true
    p256Signature := fun _ => true
    p256Verify := fun _ message signature => signature = message
    ecdsaVerify := fun _ _ _ => true
    ed25519Verify := fun _ _ _ => true
    anchor := fun _ => true
    endEntity := fun _ => true
    verifyForUsage := fun _ _ _ _ => .ok ()
    verifyTimestamp := fun _ _ _ => none }

def trust : TrustRoot :=
  { fulcioRoots := [[9]], rekorKey := [3], rootWindows := [(0, 10)]
    ctLogs := [{ logId := [], key := [4] }], rekorV2Keys := [], tsas := [] }

/-- The checkpoint of a log with this entry. -/
def signedNote : Text := "log\n1\n".toList ++ Base64.encode (0 :: body) ++ ['\n']

def checkpoint : Text :=
  signedNote ++ ['\n'] ++ noteSignaturePrefix ++ "log ".toList ++
    Base64.encode (p256SpkiPrefix.take 4 ++ utf8 signedNote) ++ ['\n']

/-- A bundle whose leaf has the key `[leaf]`. -/
def bundle (leaf : UInt8) : Decoded :=
  { integratedTime := 0, certs := [[leaf]], subjects := [hexLower []], dssePayload := payload
    dssePayloadType := payloadType, dsseSignature := signature, logIndex := 0, logKeyId := []
    kind := "dsse", kindVersion := "0.0.1", body, treeSize := 1, proofLogIndex := 0
    pathHashes := [], checkpoint, signedEntryTimestamp := utf8 (rekorSetPayload body 0 [] 0)
    rfc3161Timestamps := [] }

end DsseSample

theorem sample_unique (key m m' signature : Bytes)
    (h : DsseSample.libraries.p256Verify key m signature = true)
    (h' : DsseSample.libraries.p256Verify key m' signature = true) : m = m' := by
  have h : signature = m := of_decide_eq_true h
  have h' : signature = m' := of_decide_eq_true h'
  exact h.symm.trans h'

/-- A Rekor v2 body starts with a brace, the sample's does not. -/
theorem sample_readsRekorV2 : ReadsRekorV2 DsseSample.libraries := by
  intro digest content rawBytes value hvalue
  have hne : utf8 (rekorV2Text (Base64.encode digest) (Base64.encode content)
      (Base64.encode rawBytes)) ≠ DsseSample.body := by
    intro h
    have hhead : (utf8 (rekorV2Text (Base64.encode digest) (Base64.encode content)
        (Base64.encode rawBytes))).head? = some 0x7b := rfl
    rw [h] at hhead
    exact absurd hhead (by decide)
  simp only [DsseSample.libraries, if_neg hne] at hvalue
  cases hvalue

theorem sample_accepted (leaf : UInt8) (hleaf : leaf = 1 ∨ leaf = 2) :
    verifyForIdentity DsseSample.libraries (DsseSample.bundle leaf) [] "release" DsseSample.trust
      = .ok () := by
  rcases hleaf with rfl | rfl
  all_goals exact eq_ok_of_toOption (by decide +kernel)

/-- Two bundles with one body are accepted under two keys. -/
theorem dsse_leaf_not_bound :
    Function.Injective DsseSample.libraries.sha256 ∧
    (∀ key m m' signature, DsseSample.libraries.p256Verify key m signature = true →
      DsseSample.libraries.p256Verify key m' signature = true → m = m') ∧
    verifyForIdentity DsseSample.libraries (DsseSample.bundle 1) [] "release" DsseSample.trust
      = .ok () ∧
    verifyForIdentity DsseSample.libraries (DsseSample.bundle 2) [] "release" DsseSample.trust
      = .ok () ∧
    (DsseSample.bundle 1).body = (DsseSample.bundle 2).body ∧
    leafKey DsseSample.libraries (DsseSample.bundle 1)
      ≠ leafKey DsseSample.libraries (DsseSample.bundle 2) :=
  ⟨fun _ _ h => h, sample_unique, sample_accepted 1 (.inl rfl), sample_accepted 2 (.inr rfl), rfl,
    by decide +kernel⟩

/-- Their signatures and payloads are bound. -/
theorem entries_bind_sample :
    (DsseSample.bundle 1).dssePayload = (DsseSample.bundle 2).dssePayload := by
  have hbind := entries_bind (x := DsseSample.libraries) (fun _ _ h => h) sample_unique
    sample_readsRekorV2 (sample_accepted 1 (.inl rfl)) (sample_accepted 2 (.inr rfl)) rfl
  exact (hbind.2.1 rfl rfl).2.1

end Detent.Guarantees.EntryBinding
