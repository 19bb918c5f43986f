import Mathlib.Tactic.Common

/-!
# Bytes and digests

`crates/detent-platform/src/fs/atomic.rs` hashes file contents with the `sha2`
crate and shows a digest as 64 hex characters. The hash is outside the
repository, so the function is a parameter. No law of it is assumed here; a
result that needs one says so.
-/
namespace Detent.Source

/-- File contents and frames: the source's `Vec<u8>` and `&[u8]`. -/
abbrev Bytes := List UInt8

/-- `Sha256Digest`, by the text its `Display` shows. -/
structure Sha256Digest where
  hex : String
  deriving DecidableEq, Repr

/-- The hash of the `sha2` crate. -/
class Sha256 where
  of : Bytes → Sha256Digest

/-- Length of the digest part of a backup file name (`BACKUP_DIGEST_HEX_LEN`). -/
def backupDigestHexLen : Nat := 8

/-- `Sha256Digest::short_hex`: the first eight hex characters. -/
def Sha256Digest.shortHex (digest : Sha256Digest) : String :=
  String.ofList (digest.hex.toList.take backupDigestHexLen)

end Detent.Source
