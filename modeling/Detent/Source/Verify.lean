import Mathlib.Algebra.Group.Nat.Defs
import Detent.Lib.Base64
import Detent.Source.SerdeJson
import Detent.Source.Sha256

/-!
# The Sigstore verifier

`crates/detent-update/src/verify.rs:1-980`, with `Decoded` of `bundle.rs:263-316` and
`pem_body` and `window_covers` of `trust.rs:295-350`. What the `sha2`, `p256`, `webpki`,
`x509-parser` and `serde_json` crates decide is a field of `Libraries`; so is
`tsa::verify_timestamp`, which gives a signing time and nothing else. The release
profile checks for overflow, and `Fault.overflow` is the panic.
-/
namespace Detent.Source.Verify
open Lib Lib.Text Source.SerdeJson

/-- A signed certificate timestamp. -/
structure Sct where
  versionIsV1 : Bool
  keyId : Bytes
  timestamp : Nat
  extensions : Bytes
  hashAlg : Nat
  signAlg : Nat
  signature : Bytes

/-- An extension of a certificate; `scts` is its parsed SCT list. -/
structure Extension where
  oid : String
  value : Bytes
  scts : Option (List Sct)

inductive GeneralName where
  | uri (uri : String)
  | other

/-- A parsed certificate: `publicKeyRaw` is the `SubjectPublicKeyInfo` and `publicKey` the
key in it. -/
structure Certificate where
  publicKeyRaw : Bytes
  publicKey : Bytes
  tbs : Bytes
  signature : Bytes
  subject : Bytes
  issuer : Bytes
  subjectAlternativeName : Except Unit (Option (List GeneralName))
  extensions : List Extension

inductive WebpkiError where
  | certExpired
  | certNotValidYet
  | other
  deriving DecidableEq

/-- A timestamp authority of the trust root. -/
structure TsaChain where
  leaf : Bytes
  root : Bytes
  window : Int × Int

structure Libraries where
  sha256 : Bytes → Bytes
  /-- `serde_json::from_slice`. -/
  fromSlice : Bytes → Option Value
  /-- `X509Certificate::from_der`. -/
  certificate : Bytes → Option Certificate
  /-- The key of `SubjectPublicKeyInfo::from_der`. -/
  subjectPublicKey : Bytes → Option Bytes
  /-- `VerifyingKey::from_sec1_bytes` and `Signature::from_der`. -/
  p256Key : Bytes → Bool
  p256Signature : Bytes → Bool
  /-- `VerifyingKey::verify` of a message and a signature. -/
  p256Verify : (key message signature : Bytes) → Bool
  /-- `webpki::aws_lc_rs::ECDSA_P256_SHA256` or `ECDSA_P384_SHA384`. -/
  ecdsaVerify : (key message signature : Bytes) → Bool
  ed25519Verify : (key message signature : Bytes) → Bool
  /-- `anchor_from_trusted_cert` and `EndEntityCert::try_from`. -/
  anchor : Bytes → Bool
  endEntity : Bytes → Bool
  verifyForUsage : (leaf : Bytes) → (anchors intermediates : List Bytes) → (time : Nat) →
    Except WebpkiError Unit
  /-- `tsa::verify_timestamp`. -/
  verifyTimestamp : (token signature : Bytes) → TsaChain → Option Int

/-- `Decoded`; of the statement, the SHA-256 of its subjects. -/
structure Decoded where
  integratedTime : Int
  certs : List Bytes
  subjects : List Text
  dssePayload : Bytes
  dssePayloadType : Text
  dsseSignature : Bytes
  logIndex : Int
  logKeyId : Bytes
  kind : String
  kindVersion : String
  body : Bytes
  treeSize : Nat
  proofLogIndex : Int
  pathHashes : List Bytes
  checkpoint : Text
  signedEntryTimestamp : Bytes
  rfc3161Timestamps : List Bytes

/-- `Decoded::is_rekor_v2`. -/
def Decoded.isRekorV2 (decoded : Decoded) : Bool :=
  decoded.kind = "hashedrekord" && decoded.kindVersion = "0.0.2"

structure CtLogKey where
  logId : Bytes
  key : Bytes

structure NoteLogKey where
  origin : Text
  key : Bytes
  logId : Bytes
  window : Int × Int

/-- Keys are given by their SEC1 points. -/
structure TrustRoot where
  fulcioRoots : List Bytes
  rekorKey : Bytes
  rootWindows : List (Int × Int)
  ctLogs : List CtLogKey
  rekorV2Keys : List NoteLogKey
  tsas : List TsaChain

inductive VerificationError where
  | trustRootUnavailable
  | certChainInvalid
  | certExpired
  | identityMismatch
  | issuerMismatch
  | signatureInvalid
  | digestMismatch
  | setInvalid
  | sctInvalid
  | timestampInvalid
  | unsupportedEntryKind
  deriving DecidableEq, Repr

/-- Why a verification stops. -/
inductive Fault where
  | refused (error : VerificationError)
  | overflow
  deriving DecidableEq, Repr

abbrev VerifyM := Except Fault

def refuse {α : Type} (error : VerificationError) : VerifyM α := .error (.refused error)

/-- `ok_or` and `map_err`. -/
def orRefuse {α : Type} (error : VerificationError) : Option α → VerifyM α
  | some a => .ok a
  | none => refuse error

def check (error : VerificationError) (condition : Bool) : VerifyM Unit :=
  if condition then .ok () else refuse error

/-- `hex_lower`. -/
def hexLower (bytes : Bytes) : Text :=
  bytes.flatMap (fun byte => [Nat.digitChar (byte.toNat / 16), Nat.digitChar (byte.toNat % 16)])

/-- `to_string` of an unsigned integer. -/
def decimal (n : Nat) : Text := Nat.toDigits 10 n

/-- `to_be_bytes`, the last `count` of them. -/
def toBeBytes (count n : Nat) : Bytes :=
  (List.range count).reverse.map (fun i => UInt8.ofNat (n / 256 ^ i))

/-- `dsse_pae`. -/
def dssePae (payloadType payload : Bytes) : Bytes :=
  utf8 "DSSEv1 ".toList ++ utf8 (decimal payloadType.length) ++ utf8 [' '] ++ payloadType ++
    utf8 [' '] ++ utf8 (decimal payload.length) ++ utf8 [' '] ++ payload

/-- `window_covers`. -/
def windowCovers (window : Int × Int) (instant : Int) : Bool :=
  window.1 ≤ instant && instant ≤ window.2

/-- `P256_SPKI_PREFIX`. -/
def p256SpkiPrefix : Bytes :=
  [0x30, 0x59, 0x30, 0x13, 0x06, 0x07, 0x2a, 0x86, 0x48, 0xce, 0x3d, 0x02, 0x01, 0x06, 0x08, 0x2a,
    0x86, 0x48, 0xce, 0x3d, 0x03, 0x01, 0x07, 0x03, 0x42, 0x00]

/-- The lines of a block up to its end line, and the lines after it. -/
def pemBlock (label : Text) : List Text → Text → Option (Text × List Text)
  | [], body => some (body, [])
  | line :: rest, body =>
    match stripStart "-----END ".toList line with
    | some finish =>
      if trim (finish.rdropWhile (· = '-')) = label then some (body, rest) else none
    | none => pemBlock label rest (body ++ trim line)

theorem pemBlock_length {label : Text} {rows rest : List Text} {start body : Text}
    (h : pemBlock label rows start = some (body, rest)) : rest.length ≤ rows.length := by
  induction rows generalizing start with
  | nil =>
    cases h
    exact Nat.le_refl 0
  | cons line rows ih =>
    simp only [pemBlock] at h
    split at h
    · split at h
      · cases h
        exact Nat.le_succ _
      · cases h
    · exact Nat.le_succ_of_le (ih h)

/-- `pems`, from the lines of the text. -/
def pems (label : Text) (rows : List Text) : Option (List Bytes) :=
  match _hfind : rows.dropWhile (fun line => !startsWith "-----BEGIN ".toList line) with
  | [] => some []
  | line :: rest =>
    match (stripStart "-----BEGIN ".toList line).bind
        (fun tail => if endsWith "-----".toList tail then some (tail.take (tail.length - 5)) else none) with
    | none => none
    | some beginLabel =>
      if beginLabel ≠ label then pems label rest
      else
        match _hblock : pemBlock label rest [] with
        | none => none
        | some (body, after) => do
          let der ← Base64.decode body
          let others ← pems label after
          pure (der :: others)
  termination_by rows.length
  decreasing_by
    all_goals
      have hdrop := (List.dropWhile_suffix (l := rows)
        (fun line => !startsWith "-----BEGIN ".toList line)).length_le
      rw [_hfind, List.length_cons] at hdrop
    · omega
    · have hle := pemBlock_length _hblock
      omega

/-- `pem_body`. -/
def pemBody (bytes : Bytes) (label : Text) : Option Bytes := do
  let text ← ofUtf8 bytes
  let all ← pems label (lines text)
  all.head?

/-- `der_tlv`: tag, contents and rest. -/
def derTlv : Bytes → Option (UInt8 × Bytes × Bytes)
  | tag :: first :: input =>
    if first.toNat < 0x80 then
      if first.toNat ≤ input.length then
        some (tag, input.take first.toNat, input.drop first.toNat)
      else none
    else
      let count := first.toNat % 0x80
      if count = 0 ∨ count > 3 ∨ count > input.length then none
      else
        let len := (input.take count).foldl (fun len byte => len * 256 + byte.toNat) 0
        let rest := input.drop count
        if len ≤ rest.length then some (tag, rest.take len, rest.drop len) else none
  | _ => none

/-- `der_push`: the field with a length of minimal form. -/
def derPush (tag : UInt8) (content : Bytes) : Bytes :=
  let len := content.length
  if len < 0x80 then tag :: UInt8.ofNat len :: content
  else
    let significant := (toBeBytes 8 len).dropWhile (· = 0)
    tag :: UInt8.ofNat (0x80 + significant.length) :: significant ++ content

/-- `SCT_LIST_OID_DER`. -/
def sctListOidDer : Bytes :=
  [0x06, 0x0a, 0x2b, 0x06, 0x01, 0x04, 0x01, 0xd6, 0x79, 0x02, 0x04, 0x02]

/-- The loop over the extensions: the kept ones and how many were removed. Each round
takes a field, of two bytes at least, so `rounds` is the length of the input. -/
def keptExtensions : (rounds : Nat) → Bytes → Option (Bytes × Nat)
  | _, [] => some ([], 0)
  | 0, _ => none
  | rounds + 1, extensions => do
    let (tag, extension, next) ← derTlv extensions
    if tag ≠ 0x30 then none
    else
      let whole := extensions.take (extensions.length - next.length)
      let (kept, removed) ← keptExtensions rounds next
      if sctListOidDer.isPrefixOf extension then pure (kept, removed + 1)
      else pure (whole ++ kept, removed)

/-- The loop over the fields of a `TBSCertificate`. -/
def keptFields : (rounds : Nat) → Bytes → Option (Bytes × Nat)
  | _, [] => some ([], 0)
  | 0, _ => none
  | rounds + 1, fields => do
    let (tag, content, rest) ← derTlv fields
    if tag = 0xa3 then do
      let (inner, extensions, after) ← derTlv content
      if inner ≠ 0x30 ∨ after ≠ [] then none
      else
        let (kept, removed) ← keptExtensions extensions.length extensions
        let (later, removedLater) ← keptFields rounds rest
        pure (derPush 0xa3 (derPush 0x30 kept) ++ later, removed + removedLater)
    else do
      let (later, removed) ← keptFields rounds rest
      pure (fields.take (fields.length - rest.length) ++ later, removed)

/-- `precert_tbs`. -/
def precertTbs (tbs : Bytes) : Option Bytes := do
  let (tag, fields, after) ← derTlv tbs
  if tag ≠ 0x30 ∨ after ≠ [] then none
  else
    let (out, removed) ← keptFields fields.length fields
    if removed ≠ 1 then none else pure (derPush 0x30 out)

/-- `der_utf8_string`. -/
def derUtf8String (value : Bytes) : Option Bytes :=
  match derTlv value with
  | some (tag, content, rest) => if tag = 0x0c ∧ rest = [] then some content else none
  | none => none

def issuerName : String := "https://token.actions.githubusercontent.com"
def issuerOid : String := "1.3.6.1.4.1.57264.1.1"
def issuerV2Oid : String := "1.3.6.1.4.1.57264.1.8"
def buildSignerUriOid : String := "1.3.6.1.4.1.57264.1.9"
def sctListOid : String := "1.3.6.1.4.1.11129.2.4.2"

variable (x : Libraries)

/-- `signing_times`. -/
def signingTimes (decoded : Decoded) (trust : TrustRoot) : VerifyM (List Int) := do
  let first := if decoded.isRekorV2 then [] else [decoded.integratedTime]
  let stamped ← decoded.rfc3161Timestamps.mapM (fun token =>
    orRefuse .timestampInvalid
      (trust.tsas.findSome? (x.verifyTimestamp token decoded.dsseSignature)))
  let times := first ++ stamped
  check .timestampInvalid (!times.isEmpty)
  pure times

/-- `verify_chain_at`. -/
def verifyChainAt (decoded : Decoded) (trust : TrustRoot) (time : Int) : VerifyM Unit := do
  let usableRoots :=
    ((trust.fulcioRoots.zip trust.rootWindows).filter (fun p => windowCovers p.2 time)).map Prod.fst
  check .trustRootUnavailable (!usableRoots.isEmpty)
  check .certChainInvalid (usableRoots.all x.anchor)
  match decoded.certs with
  | [] => refuse .certChainInvalid
  | leaf :: intermediates => do
    check .certChainInvalid (x.endEntity leaf)
    match x.verifyForUsage leaf usableRoots intermediates time.toNat with
    | .ok () => pure ()
    | .error .certExpired | .error .certNotValidYet => refuse .certExpired
    | .error .other => refuse .certChainInvalid

/-- `build_signer_is`. -/
def buildSignerIs (leaf : Certificate) (pinned : String) : Bool :=
  leaf.extensions.any (fun extension =>
    extension.oid = buildSignerUriOid && derUtf8String extension.value = some (utf8 pinned.toList))

/-- Step 3: the identity and its issuer. -/
def checkIdentity (leaf : Certificate) (pinned : String) : VerifyM Unit := do
  match leaf.subjectAlternativeName with
  | .error () => refuse .certChainInvalid
  | .ok san => do
    let sanMatches := san.any (fun names => names.any (fun
      | .uri uri => uri = pinned
      | .other => false))
    check .identityMismatch (sanMatches || buildSignerIs leaf pinned)
    let modernIssuer := leaf.extensions.any (fun extension =>
      extension.oid = issuerV2Oid &&
        derUtf8String extension.value = some (utf8 issuerName.toList))
    let legacyIssuer := leaf.extensions.any (fun extension =>
      extension.oid = issuerOid && extension.value = utf8 issuerName.toList)
    check .issuerMismatch (modernIssuer || legacyIssuer)

/-- `sct_issuer_spki`. -/
def sctIssuerSpki (leaf : Certificate) (candidates : List Bytes) : Option Bytes :=
  candidates.findSome? (fun der => do
    let cert ← x.certificate der
    if cert.subject = leaf.issuer ∧ x.ecdsaVerify cert.publicKey leaf.tbs leaf.signature then
      some cert.publicKeyRaw
    else none)

/-- What a log signs for a certificate. -/
def signedEntry (sct : Sct) (issuerKeyHash tbs : Bytes) : Bytes :=
  [0, 0] ++ toBeBytes 8 sct.timestamp ++ [0, 1] ++ issuerKeyHash ++ toBeBytes 3 tbs.length ++ tbs ++
    toBeBytes 2 sct.extensions.length ++ sct.extensions

/-- `verify_embedded_scts`. -/
def verifyEmbeddedScts (leaf : Certificate) (issuerSpki : Bytes) (ctLogs : List CtLogKey) :
    VerifyM Unit := do
  let scts ← orRefuse .sctInvalid (leaf.extensions.findSome? (fun extension =>
    if extension.oid = sctListOid then extension.scts else none))
  let tbs ← orRefuse .sctInvalid (precertTbs leaf.tbs)
  check .sctInvalid (tbs.length < 256 ^ 3)
  let issuerKeyHash := x.sha256 issuerSpki
  check .sctInvalid (scts.any (fun sct =>
    match ctLogs.find? (fun log => log.logId = sct.keyId) with
    | none => false
    | some log =>
      sct.extensions.length < 256 ^ 2 && sct.versionIsV1 && sct.hashAlg = 4 && sct.signAlg = 3 &&
        x.p256Signature sct.signature &&
        x.p256Verify log.key (signedEntry sct issuerKeyHash tbs) sct.signature))

/-- `rekor_leaf_hash`. -/
def rekorLeafHash (body : Bytes) : Bytes := x.sha256 (0x00 :: body)

/-- `u64::next_power_of_two`, which panics where the power does not fit. -/
def nextPowerOfTwo (size : Nat) : VerifyM Nat :=
  let power := if size ≤ 1 then 1 else 2 ^ ((size - 1).log2 + 1)
  if power < 2 ^ 64 then .ok power else .error .overflow

/-- `root_from_path`, which takes the path from its end. -/
def rootFromReversed (index size : Nat) (leaf : Bytes) : List Bytes → VerifyM Bytes
  | [] =>
    if size = 0 ∨ index ≥ size then refuse .setInvalid
    else if size = 1 then .ok leaf else refuse .setInvalid
  | head :: rest => do
    if size = 0 ∨ index ≥ size then refuse .setInvalid
    else if size = 1 then refuse .setInvalid
    else do
      let power ← nextPowerOfTwo size
      let k := power / 2
      if index < k then
        let sub ← rootFromReversed index k leaf rest
        pure (x.sha256 (0x01 :: sub ++ head))
      else
        let sub ← rootFromReversed (index - k) (size - k) leaf rest
        pure (x.sha256 (0x01 :: head ++ sub))

def rootFromPath (index size : Nat) (leaf : Bytes) (path : List Bytes) : VerifyM Bytes :=
  rootFromReversed x index size leaf path.reverse

/-- `inclusion_root`. -/
def inclusionRoot (decoded : Decoded) : VerifyM Bytes := do
  check .setInvalid (decoded.pathHashes.all (fun hash => hash.length = 32))
  check .setInvalid (0 ≤ decoded.proofLogIndex && decoded.treeSize ≠ 0)
  rootFromPath x decoded.proofLogIndex.toNat decoded.treeSize (rekorLeafHash x decoded.body)
    decoded.pathHashes

/-- `CheckpointKey`. -/
inductive CheckpointKey where
  | rekor (key : Bytes)
  | note (key : NoteLogKey)

/-- `checkpoint_key_hint`, and the hint of a note key. -/
def CheckpointKey.hint : CheckpointKey → Bytes
  | .rekor key => (x.sha256 (p256SpkiPrefix ++ key)).take 4
  | .note key => key.logId.take 4

/-- `NOTE_SIGNATURE_PREFIX`. -/
def noteSignaturePrefix : Text := [Char.ofNat 0x2014, ' ']

/-- One signature line: whether it is the log's, when it is well formed and, if the log's,
verifies. -/
def checkSignatureLine (key : CheckpointKey) (signedBody : Bytes) (line : Text) : VerifyM Bool := do
  let fields ← orRefuse .setInvalid (stripStart noteSignaturePrefix line)
  match fields.splitOn ' ' with
  | [name, encoded] => do
    let raw ← orRefuse .setInvalid (Base64.decode encoded)
    check .setInvalid (4 ≤ raw.length)
    let signature := raw.drop 4
    check .setInvalid (!name.isEmpty && !signature.isEmpty)
    if raw.take 4 ≠ key.hint x then pure false
    else
      match key with
      | .rekor rekor => do
        check .setInvalid (x.p256Signature signature && x.p256Verify rekor signedBody signature)
        pure true
      | .note note =>
        if name ≠ note.origin then pure false
        else do
          check .setInvalid (x.ed25519Verify note.key signedBody signature)
          pure true
  | _ => refuse .setInvalid

/-- `verify_checkpoint`. -/
def verifyCheckpoint (checkpoint : Text) (treeSize : Nat) (root : Bytes) (key : CheckpointKey) :
    VerifyM Unit := do
  let (body, separated) ← orRefuse .setInvalid (splitAtMatch ['\n', '\n'] checkpoint)
  let signatureLines := separated.drop 2
  check .setInvalid (endsWith ['\n'] signatureLines)
  match body.splitOn '\n' with
  | origin :: size :: rootLine :: _ => do
    let foreign := match key with
      | .note note => decide (origin ≠ note.origin)
      | .rekor _ => false
    check .setInvalid (!origin.isEmpty && !foreign && !size.isEmpty && size.all isAsciiDigit &&
      numberOf size = treeSize)
    let checkpointRoot ← orRefuse .setInvalid (Base64.decode rootLine)
    check .setInvalid (checkpointRoot = root)
    let signedBody := utf8 (body ++ ['\n'])
    let signers ← (signatureLines.splitOn '\n').dropLast.mapM (checkSignatureLine x key signedBody)
    check .setInvalid (signers.any id)
  | _ => refuse .setInvalid

/-- `rekor_v2_body`, its digest, signature and leaf certificate in base64. -/
def rekorV2Text (digest content rawBytes : Text) : Text :=
  "\x7b\"apiVersion\":\"0.0.2\",\"kind\":\"hashedrekord\",\"spec\":\x7b\"hashedRekordV002\":\x7b".toList ++
  "\"data\":\x7b\"algorithm\":\"SHA2_256\",\"digest\":\"".toList ++ digest ++ '"' :: "\x7d,".toList ++
  "\"signature\":\x7b\"content\":\"".toList ++ content ++
  '"' :: ",\"verifier\":\x7b\"keyDetails\":\"PKIX_ECDSA_P256_SHA_256\",".toList ++
  "\"x509Certificate\":\x7b\"rawBytes\":\"".toList ++ rawBytes ++
  '"' :: "\x7d\x7d\x7d\x7d\x7d\x7d".toList

def rekorV2Body (decoded : Decoded) (leafDer : Bytes) (leaf : Certificate) : VerifyM Text := do
  check .unsupportedEntryKind
    (p256SpkiPrefix.isPrefixOf leaf.publicKeyRaw && leaf.publicKeyRaw.length = 26 + 65)
  let digest := x.sha256 (dssePae (utf8 decoded.dssePayloadType) decoded.dssePayload)
  pure (rekorV2Text (Base64.encode digest) (Base64.encode decoded.dsseSignature)
    (Base64.encode leafDer))

/-- A text of the body at a pointer. -/
def textAt (body : Value) (tokens : List String) : VerifyM Text :=
  orRefuse .setInvalid ((body.pointer tokens).bind (fun value => value.asStr.map String.toList))

/-- `verify_dsse_body`. -/
def verifyDsseBody (decoded : Decoded) (body : Value) : VerifyM Unit := do
  let signature ← textAt body ["spec", "signatures", "0", "signature"]
  let bytes ← orRefuse .setInvalid (Base64.decode signature)
  check .setInvalid (bytes = decoded.dsseSignature)
  let payloadHash ← textAt body ["spec", "payloadHash", "value"]
  check .setInvalid (payloadHash = hexLower (x.sha256 decoded.dssePayload))

/-- `verify_hashedrekord_body`. -/
def verifyHashedrekordBody (decoded : Decoded) (body : Value) (leafPoint : Bytes) : VerifyM Unit := do
  let content ← textAt body ["spec", "signature", "content"]
  let publicKey ← textAt body ["spec", "signature", "publicKey"]
  let bytes ← orRefuse .setInvalid (Base64.decode content)
  check .setInvalid (bytes = decoded.dsseSignature)
  let pem ← orRefuse .setInvalid (Base64.decode publicKey)
  let keyDer ← orRefuse .setInvalid (pemBody pem "PUBLIC KEY".toList)
  let point ← orRefuse .setInvalid (x.subjectPublicKey keyDer)
  check .setInvalid (point = leafPoint)

/-- `verify_body_agreement`. -/
def verifyBodyAgreement (decoded : Decoded) (leafPoint : Bytes) : VerifyM Unit := do
  let body ← orRefuse .setInvalid (x.fromSlice decoded.body)
  if decoded.kind = "dsse" then verifyDsseBody x decoded body
  else if decoded.kind = "hashedrekord" then verifyHashedrekordBody x decoded body leafPoint
  else refuse .unsupportedEntryKind

/-- `verify_inclusion`. -/
def verifyInclusion (decoded : Decoded) (trust : TrustRoot) (leafPoint : Bytes) : VerifyM Unit := do
  let root ← inclusionRoot x decoded
  verifyCheckpoint x decoded.checkpoint decoded.treeSize root (.rekor trust.rekorKey)
  verifyBodyAgreement x decoded leafPoint

/-- `rekor_set_payload`. -/
def rekorSetPayload (body : Bytes) (integratedTime : Int) (logId : Bytes) (logIndex : Int) : Text :=
  "\x7b\"body\":\"".toList ++ Base64.encode body ++ "\",\"integratedTime\":".toList ++
  (toString integratedTime).toList ++ ",\"logID\":\"".toList ++ hexLower logId ++
  "\",\"logIndex\":".toList ++ (toString logIndex).toList ++ ['}']

/-- `verify_set`. -/
def verifySet (decoded : Decoded) (rekorKey : Bytes) : VerifyM Unit := do
  let payload := rekorSetPayload decoded.body decoded.integratedTime decoded.logKeyId decoded.logIndex
  check .setInvalid (x.p256Signature decoded.signedEntryTimestamp &&
    x.p256Verify rekorKey (utf8 payload) decoded.signedEntryTimestamp)

/-- `verify_rekor_v2_entry`. -/
def verifyRekorV2Entry (decoded : Decoded) (trust : TrustRoot) (times : List Int) (leafDer : Bytes)
    (leaf : Certificate) : VerifyM Unit := do
  let key ← orRefuse .setInvalid (trust.rekorV2Keys.find? (fun key => key.logId = decoded.logKeyId))
  check .setInvalid (times.all (windowCovers key.window))
  let body ← rekorV2Body x decoded leafDer leaf
  check .setInvalid (utf8 body = decoded.body)
  let root ← inclusionRoot x decoded
  verifyCheckpoint x decoded.checkpoint decoded.treeSize root (.note key)

/-- `verify_for_identity`. -/
def verifyForIdentity (decoded : Decoded) (fileDigest : Bytes) (pinned : String)
    (trust : TrustRoot) : VerifyM Unit := do
  let times ← signingTimes x decoded trust
  times.forM (verifyChainAt x decoded trust)
  match decoded.certs with
  | [] => refuse .certChainInvalid
  | leafRaw :: intermediateRaws => do
    let leaf ← orRefuse .certChainInvalid (x.certificate leafRaw)
    checkIdentity leaf pinned
    let issuerSpki ← orRefuse .sctInvalid
      (sctIssuerSpki x leaf (trust.fulcioRoots ++ intermediateRaws))
    verifyEmbeddedScts x leaf issuerSpki trust.ctLogs
    check .certChainInvalid (x.p256Key leaf.publicKey)
    let pae := dssePae (utf8 decoded.dssePayloadType) decoded.dssePayload
    check .signatureInvalid (x.p256Signature decoded.dsseSignature &&
      x.p256Verify leaf.publicKey pae decoded.dsseSignature)
    let matching := decoded.subjects.countP (fun subject => subject = hexLower fileDigest)
    check .digestMismatch (matching = 1)
    if decoded.isRekorV2 then verifyRekorV2Entry x decoded trust times leafRaw leaf
    else do
      verifyInclusion x decoded trust leaf.publicKey
      verifySet x decoded trust.rekorKey

end Detent.Source.Verify
