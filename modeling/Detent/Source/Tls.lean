import Detent.Source.Transport

/-!
# The certificate store

`crates/detent-web/src/tls.rs:58-80,183-236,701-764,786-904,918-975`: the framed pair
file, and how the pair of an ACME order is stored in `cert_dir` and read from it again. `write_atomic` is
one effect with the meaning `Atomic` gives it; the other calls on the directory are
effects of their own. Modes are not kept: the mode a directory has is an answer of the
host. What rustls makes of a pair (`to_certified_key`) is the parameter `fits`.
-/
namespace Detent.Source.Tls
open Lib Source.Transport
open Source.Atomic (AtomicError WriteRequest WriteOutcome writeAtomic)

def acmePairFile : String := "acme.pair"

def legacyAcmeCertFile : String := "acme.cert.der"

def legacyAcmeKeyFile : String := "acme.key.der"

def pairMagic : Bytes := utf8 "DETENTPK".toList

def maxPairCerts : Nat := 16

/-- `KEY_MODE`. -/
def keyMode : Nat := 0o600

/-- `CERT_DIR_MODE`. -/
def certDirMode : Nat := 0o700

/-- `GROUP_AND_OTHER`. -/
def groupAndOther : Nat := 0o077

/-- One end-entity certificate, its intermediates in the order they are sent, and the
private key, each as DER. -/
structure CertifiedKeyPair where
  certDer : Bytes
  intermediates : List Bytes
  keyPkcs8Der : Bytes
  deriving DecidableEq, Repr

/-- `CertifiedKeyPair::from_der_chain`. -/
def CertifiedKeyPair.fromDerChain (certDer : Bytes) (intermediates : List Bytes)
    (keyPkcs8Der : Bytes) : CertifiedKeyPair :=
  { certDer, intermediates, keyPkcs8Der }

/-- `TlsError`, as far as the store raises it. -/
inductive TlsError where
  | pem
  | read (path : Path) (source : ErrorKind)
  | prepare (path : Path) (source : ErrorKind)
  | persist (path : Path) (source : AtomicError)
  deriving DecidableEq, Repr

/-- `write_len_prefixed`: the output after it. -/
def writeLenPrefixed (output value : Bytes) : Except TlsError Bytes :=
  let len := value.length
  -- `u32::try_from`
  if 2 ^ 32 ≤ len then .error .pem
  else if len = 0 then .error .pem
  else .ok (output ++ toBeBytes len ++ value)

/-- `encode_pair`. -/
def encodePair (pair : CertifiedKeyPair) : Except TlsError Bytes := do
  let certs := pair.certDer :: pair.intermediates
  if 2 ^ 32 ≤ certs.length then throw .pem
  else do
    let encoded ← certs.foldlM writeLenPrefixed (pairMagic ++ toBeBytes certs.length)
    writeLenPrefixed encoded pair.keyPkcs8Der

/-- `split_at_checked`, with the error both readers give it. -/
def splitAtChecked (input : Bytes) (mid : Nat) : Except TlsError (Bytes × Bytes) :=
  if mid ≤ input.length then .ok (input.take mid, input.drop mid) else .error .pem

/-- `take_len_prefixed`: the value, and the input after it. -/
def takeLenPrefixed (input : Bytes) : Except TlsError (Bytes × Bytes) := do
  let (head, rest) ← splitAtChecked input 4
  let (value, rest) ← splitAtChecked rest (fromBeBytes head)
  if value.isEmpty then throw .pem else pure (value, rest)

/-- The loop of `decode_pair` over the certificates. -/
def takeCerts : Nat → Bytes → Except TlsError (List Bytes × Bytes)
  | 0, rest => .ok ([], rest)
  | count + 1, rest => do
    let (cert, rest) ← takeLenPrefixed rest
    let (certs, rest) ← takeCerts count rest
    pure (cert :: certs, rest)

/-- `decode_pair`. -/
def decodePair (encoded : Bytes) : Except TlsError CertifiedKeyPair := do
  let (magic, rest) ← splitAtChecked encoded pairMagic.length
  if magic ≠ pairMagic then throw .pem
  else do
    let (head, rest) ← splitAtChecked rest 4
    let count := fromBeBytes head
    if count = 0 ∨ maxPairCerts < count then throw .pem
    else do
      let (certs, rest) ← takeCerts count rest
      let (key, rest) ← takeLenPrefixed rest
      if ¬rest.isEmpty then throw .pem
      else
        match certs with
        | leaf :: intermediates => pure (.fromDerChain leaf intermediates key)
        -- never taken: `count` is not zero
        | [] => throw .pem

/-- The calls on `cert_dir` that are none of `write_atomic`. -/
inductive DirOp : Type → Type
  | createDirAll (path : Path) : DirOp Unit
  /-- `fs::metadata`: the mode. -/
  | mode (path : Path) : DirOp Nat
  | setPermissions (path : Path) (mode : Nat) : DirOp Unit
  | removeFile (path : Path) : DirOp Unit
  /-- `fs::read`. -/
  | read (path : Path) : DirOp Bytes

inductive CertOp : Type → Type 1
  | isDir (path : Path) : CertOp Bool
  | call {β : Type} (op : DirOp β) : CertOp (Except ErrorKind β)
  | writeAtomic (req : WriteRequest) : CertOp (Except AtomicError WriteOutcome)

/-- What the code cannot choose. `through` is what `fs::read` gives of a symlink or a
special file. The removal of a directory is a call that fails. -/
structure CertHost extends Host where
  isDir : Nat → Path → Bool
  mode : Nat → Path → Nat
  through : Nat → Path → Except ErrorKind Bytes
  refused : Nat → {β : Type} → DirOp β → Option ErrorKind

/-- What a call does when the host does not fail it. -/
def DirOp.effect (host : CertHost) (tick : Nat) :
    {β : Type} → DirOp β → Files → Except ErrorKind β × Files
  | _, .createDirAll _, f => (.ok (), f)
  | _, .mode path, f => (.ok (host.mode tick path), f)
  | _, .setPermissions _ _, f => (.ok (), f)
  | _, .removeFile path, f =>
    match f.node path with
    | some _ => (.ok (), { f with node := Function.update f.node path none })
    | none => (.error .notFound, f)
  | _, .read path, f =>
    match f.node path with
    | some (.file contents) => (.ok contents, f)
    | some _ => (host.through tick path, f)
    | none => (.error .notFound, f)

def DirOp.perform (host : CertHost) {β : Type} (op : DirOp β) (d : Disk) :
    Except ErrorKind β × Disk :=
  match host.refused d.tick op with
  | some kind => (.error kind, { d with tick := d.tick + 1 })
  | none =>
    let (result, f) := op.effect host d.tick d.toFiles
    (result, { f with tick := d.tick + 1 })

/-- The meaning of the effects on a host. -/
def certs [Sha256] (host : CertHost) : Handler CertOp Disk where
  apply
    | .isDir path, d => (host.isDir d.tick path, { d with tick := d.tick + 1 })
    | .call op, d => op.perform host d
    | .writeAtomic req, d => Fallible.exec (sys host.toHost) (writeAtomic req) d
  torn
    | .writeAtomic req, d, d' => Fallible.Cut (sys host.toHost) (writeAtomic req) d d'
    | _, _, _ => False

/-- Programs of this module. -/
abbrev CertM := ExceptT TlsError (Prog CertOp)

/-- A call whose error is reported as `err` says. -/
def call {β : Type} (err : ErrorKind → TlsError) (op : DirOp β) : CertM β := do
  match ← Fallible.perform (.call op) with
  | .ok value => pure value
  | .error kind => throw (err kind)

/-- `Path::join` of a directory and a file name. -/
def join (dir : Path) (name : String) : Path :=
  if dir = "" ∨ dir.endsWith "/" then dir ++ name else dir ++ "/" ++ name

/-- `confine_cert_dir`. -/
def confineCertDir (certDir : Path) : CertM Unit := do
  let mode ← call (.prepare certDir) (.mode certDir)
  if mode &&& groupAndOther ≠ 0 then
    call (.prepare certDir) (.setPermissions certDir certDirMode)
  else pure ()

/-- `write_key_file` of a file in `certDir`, which is the parent of its path. -/
def writeKeyFile (certDir : Path) (filename : String) (contents : Bytes) : CertM Unit := do
  let path := join certDir filename
  let request := { WriteRequest.new path contents certDir with keepBackups := 0 }
  match ← Fallible.perform (.writeAtomic request) with
  | .error source => throw (.persist path source)
  | .ok _ => call (.prepare path) (.setPermissions path keyMode)

/-- The loop of `store_pair` over the legacy files. -/
def removeLegacy (certDir : Path) : List String → CertM Unit
  | [] => pure ()
  | name :: names => do
    match ← Fallible.perform (.call (.removeFile (join certDir name))) with
    | .ok () => removeLegacy certDir names
    | .error .notFound => removeLegacy certDir names
    | .error source => throw (.prepare (join certDir name) source)

/-- `store_pair`. -/
def storePair (certDir : Path) (filename : String) (pair : CertifiedKeyPair)
    (legacy : List String) : CertM Unit := do
  let isDir ← Fallible.perform (.isDir certDir)
  (if isDir then pure () else call (.prepare certDir) (.createDirAll certDir))
  confineCertDir certDir
  let encoded ← liftExcept (encodePair pair)
  writeKeyFile certDir filename encoded
  removeLegacy certDir legacy

/-- `store_acme`. -/
def storeAcme (certDir : Path) (pair : CertifiedKeyPair) : CertM Unit :=
  storePair certDir acmePairFile pair [legacyAcmeCertFile, legacyAcmeKeyFile]

/-- `read_optional`. -/
def readOptional (path : Path) : CertM (Option Bytes) := do
  match ← Fallible.perform (.call (.read path)) with
  | .ok bytes => pure (some bytes)
  | .error .notFound => pure none
  | .error source => throw (.read path source)

/-- The loop of `load_acme` over the legacy chain. Each round takes five bytes at least,
so `rounds` is the length of the chain. -/
def takeChain : Nat → Bytes → Except TlsError (List Bytes)
  | 0, rest => if rest.isEmpty then .ok [] else .error .pem
  | rounds + 1, rest =>
    if rest.isEmpty then .ok []
    else do
      let (cert, rest) ← takeLenPrefixed rest
      let certs ← takeChain rounds rest
      pure (cert :: certs)

/-- The pair `load_acme` finds, before rustls sees it. Every failure of the two readers
is `TlsError::Pem`, which is reported as absent. -/
def storedAcme (certDir : Path) : CertM (Option CertifiedKeyPair) := do
  match ← readOptional (join certDir acmePairFile) with
  | some encoded =>
    match decodePair encoded with
    | .ok pair => pure (some pair)
    | .error .pem => pure none
    | .error error => throw error
  | none =>
    match ← readOptional (join certDir legacyAcmeCertFile) with
    | none => pure none
    | some chain =>
      match ← readOptional (join certDir legacyAcmeKeyFile) with
      | none => pure none
      | some key =>
        match takeChain chain.length chain with
        | .error .pem => pure none
        | .error error => throw error
        | .ok [] => pure none
        | .ok (leaf :: certs) => pure (some (.fromDerChain leaf certs key))

/-- `load_acme`. -/
def loadAcme (fits : CertifiedKeyPair → Bool) (certDir : Path) :
    CertM (Option CertifiedKeyPair) := do
  let pair ← storedAcme certDir
  pure (pair.filter fits)

end Detent.Source.Tls
