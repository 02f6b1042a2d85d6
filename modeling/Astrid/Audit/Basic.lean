import Astrid.Lib.Try
import Astrid.Audit.Cbor
import Astrid.Durable.Format

/-!
# Primitives of the audit log

The types that every part of `astrid-audit` shares: keys, signatures, identifiers and times, the
errors of the crate, and SHA-256, BLAKE3 and Ed25519 as the crate calls them. A UUID is a 128-bit
word, a time the number of nanoseconds since the Unix epoch.
-/

namespace Astrid.Audit

/-- An Ed25519 public key, as its 32 bytes. -/
abbrev PublicKey := Digest

/-- An Ed25519 signature. -/
structure Signature where
  bytes : Bytes
  length_eq : bytes.length = 64
  deriving DecidableEq

theorem Signature.length_zero : (List.replicate 64 (0 : UInt8)).length = 64 :=
  List.length_replicate

/-- A UUID. -/
abbrev Uuid := BitVec 128

def Uuid.asBytes (id : Uuid) : Bytes := beBytes 16 id.toNat

/-- Nanoseconds since the Unix epoch. -/
abbrev Timestamp := Int

/-- Nanoseconds since the Unix epoch, when they fit both `i64` and `u64`. -/
def timestampNanos (timestamp : Timestamp) : Option UInt64 :=
  if 0 ≤ timestamp ∧ timestamp < 2 ^ 63 then some (UInt64.ofNat timestamp.toNat) else none

/-- `chrono`'s whole seconds, rounded down. -/
def timestampSeconds (timestamp : Timestamp) : Int := timestamp / 1000000000

/-- The hash functions and the signature scheme. -/
structure Crypto where
  sha256 : Bytes → Digest
  hmacSha256 : Bytes → Bytes → Digest
  blake3 : Bytes → Digest
  verify : PublicKey → Bytes → Signature → Bool
  verifyStrict : PublicKey → Bytes → Signature → Bool

/-- The all-zero hash, which stands for "no predecessor". -/
def zeroHash : Digest := ⟨List.replicate 32 0, by simp⟩

def isZero (hash : Digest) : Bool := decide (hash = zeroHash)

inductive AuditError
  | storageError (detail : String)
  | retentionCapReached
  | unanchoredPrune (detail : String)
  | anchorRejected (detail : String)
  | unsupportedOperation (operation : String)
  | serializationError (detail : String)
  | entryNotFound (entryId : String)
  | integrityViolation (entryId reason : String)
  | invalidSignature (entryId : String)
  | sessionNotFound (sessionId : String)
  | keyRegistry (reason : String)
  | keyNotRegistered (key : String)
  | staleAuditKey (keyEpoch : UInt64)
  | v1Closed (reason : String)
  deriving DecidableEq

abbrev AuditResult := Except AuditError

def hexDigit (n : Nat) : Char := if n < 10 then Char.ofNat (48 + n) else Char.ofNat (87 + n)

/-- Lower-case hexadecimal. -/
def toHex (bytes : Bytes) : String :=
  String.ofList (bytes.flatMap fun b => [hexDigit (b.toNat / 16), hexDigit (b.toNat % 16)])

end Astrid.Audit
