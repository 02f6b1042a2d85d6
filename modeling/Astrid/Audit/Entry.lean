import Astrid.Audit.Json
import Astrid.Audit.Registry

/-!
# Audit entries

`astrid-audit`, `entry.rs`, `entry_v2/fields.rs` and `entry_v2/body.rs`: an entry, what of it is
hashed and signed, and how the hash of an entry is the link of the next. A format-v1 entry signs
a concatenation of its fields. A format-v2 entry signs the hash of a CBOR body. The action, the
authorization and the outcome enter the body as sections, in which every field is hidden behind
a salted commitment.

The three enums that an entry carries are read only through their `serde` form, by one rule for
all of them (`sectionOf`); they are parameters here.
-/

namespace Astrid.Audit

open Std

/-- The enums `AuditAction`, `AuthorizationProof` and `AuditOutcome` with their `serde` forms. -/
structure Payloads where
  Action : Type
  Authorization : Type
  Outcome : Type
  /-- `serde_json::to_value` of an action; then of the others. -/
  actionValue : Action → Except String Value
  authorizationValue : Authorization → Except String Value
  outcomeValue : Outcome → Except String Value
  /-- `serde_json::to_vec`, which the signing data of format v1 contains. -/
  actionVec : Action → Option Bytes
  authorizationVec : Authorization → Option Bytes
  isSuccess : Outcome → Bool

/-- The code that performed an audited action. -/
structure AuditActor where
  capsuleId : String
  wasmSha256 : Option Digest
  deriving DecidableEq

/-- Format-v2 data stored with an entry. -/
structure EntryV2Seal where
  chainId : Digest
  seq : UInt64
  keyEpoch : UInt64
  principalUid : Option Digest
  actor : Option AuditActor
  saltKey : Digest
  deriving DecidableEq

structure AuditEntry (P : Payloads) where
  id : Uuid
  timestamp : Timestamp
  sessionId : Uuid
  principal : Option String
  action : P.Action
  authorization : P.Authorization
  outcome : P.Outcome
  previousHash : Digest
  runtimeKey : PublicKey
  signature : Signature
  v2 : Option EntryV2Seal

/-! ## Sections -/

/-- A section before commitments are computed: its kind and each field's name and value. -/
structure Section where
  kind : String
  fields : List (String × Cbor)

/-- The tag member of an internally tagged enum names the variant, every other member is a
field. -/
def sectionOf (value : Except String Value) (tag what : String) : AuditResult Section :=
  let unencodable (reason : String) : AuditError :=
    .serializationError ("cannot encode the " ++ what ++ " of a v2 entry: " ++ reason)
  match value with
  | .error error => .error (unencodable error)
  | .ok (.object members) =>
    match members.lookup tag with
    | some (.string kind) =>
      .ok ⟨kind, (members.filter fun member => decide (member.1 ≠ tag)).map
        fun member => (member.1, toCbor member.2)⟩
    | _ => .error (unencodable "its serde form has no text tag")
  | .ok _ => .error (unencodable "its serde form is not an object")

def typeTag : String := "type"
def statusTag : String := "status"

def sectionAction : UInt64 := 9
def sectionAuthorization : UInt64 := 10
def sectionOutcome : UInt64 := 11

/-! ## Domain tags -/

def entryTag : String := "astrid.audit.entry.v2"
def fieldTag : String := "astrid.audit.field.v2"
def saltTag : String := "astrid.audit.salt.v2"
def chainIdTag : String := "astrid.audit.chain-id.v2"

/-- Hash input reported for a v2 entry whose body cannot be encoded. -/
def unencodableTag : Bytes := Cbor.utf8 "astrid.audit.entry.v2: body cannot be encoded"

/-! ## Chain ids and commitments -/

/-- Element 7: `[uid / null, alias / null]`. -/
def principalItem (principalAlias : Option String) (uid : Option Digest) : Cbor :=
  .array [(uid.map fun uid => Cbor.bytes uid.bytes).getD .null,
    (principalAlias.map Cbor.text).getD .null]

def chainIdInput (registryId : Digest) (session : Uuid) (principal : Option String)
    (principalUid : Option Digest) : Bytes :=
  (Cbor.array [.text chainIdTag, .bytes registryId.bytes, .bytes session.asBytes,
    principalItem principal principalUid]).encode

section

variable (crypto : Crypto)

/-- The chain a principal's entries in `session` join under the key registry. -/
def deriveChainId (registryId : Digest) (session : Uuid) (principal : Option String)
    (principalUid : Option Digest) : Digest :=
  crypto.sha256 (chainIdInput registryId session principal principalUid)

/-- The salt of field `name` in `index`, from an entry's salt key. -/
def fieldSalt (saltKey : Digest) (index : UInt64) (name : String) : Bytes :=
  (crypto.hmacSha256 saltKey.bytes
    (Cbor.array [.text saltTag, .uint index, .text name]).encode).bytes.take 16

def commitmentInput (chainId : Digest) (seq index : UInt64) (name : String) (salt : Bytes)
    (value : Cbor) : Bytes :=
  (Cbor.array [.text fieldTag, .bytes chainId.bytes, .uint seq, .uint index, .text name,
    .bytes salt, value]).encode

def commitment (chainId : Digest) (seq index : UInt64) (name : String) (salt : Bytes)
    (value : Cbor) : Digest :=
  crypto.sha256 (commitmentInput chainId seq index name salt value)

def sectionItem (index : UInt64) (content : Section) (v2 : EntryV2Seal) : Cbor :=
  .array [.text content.kind, .map (content.fields.map fun field =>
    (.text field.1, .bytes (commitment crypto v2.chainId v2.seq index field.1
      (fieldSalt crypto v2.saltKey index field.1) field.2).bytes))]

end

/-! ## Bodies and hashes -/

def actorItem (actor : AuditActor) : Cbor :=
  .array [.text actor.capsuleId,
    (actor.wasmSha256.map fun hash => Cbor.bytes hash.bytes).getD .null]

/-- The bytes Ed25519 signs for an entry with hash `entryHash`. -/
def signingInput (entryHash : Digest) : Bytes :=
  (Cbor.array [.text signatureTag, .text "entry", .bytes entryHash.bytes]).encode

namespace AuditEntry

variable {P : Payloads} (crypto : Crypto) (entry : AuditEntry P)

def actionSection : AuditResult Section :=
  sectionOf (P.actionValue entry.action) typeTag "action"

def authorizationSection : AuditResult Section :=
  sectionOf (P.authorizationValue entry.authorization) typeTag "authorization"

def outcomeSection : AuditResult Section :=
  sectionOf (P.outcomeValue entry.outcome) statusTag "outcome"

section

variable (v2 : EntryV2Seal)

/-- The body array of a v2 entry. -/
def bodyItem : AuditResult Cbor := do
  let action ← entry.actionSection
  let authorization ← entry.authorizationSection
  let outcome ← entry.outcomeSection
  .ok (.array [.text entryTag, .bytes v2.chainId.bytes, .uint v2.seq,
    .bytes entry.previousHash.bytes,
    .uint ((timestampNanos entry.timestamp).getD 0),
    .bytes (Uuid.asBytes entry.id),
    .bytes (Uuid.asBytes entry.sessionId),
    principalItem entry.principal v2.principalUid,
    (v2.actor.map actorItem).getD .null,
    sectionItem crypto sectionAction action v2,
    sectionItem crypto sectionAuthorization authorization v2,
    sectionItem crypto sectionOutcome outcome v2,
    .array [.uint v2.keyEpoch, .bytes entry.runtimeKey.bytes]])

/-- Deterministic CBOR bytes of the signed body. -/
def bodyBytes : AuditResult Bytes :=
  (entry.bodyItem crypto v2).map Cbor.encode

def v2EntryHash : AuditResult Digest :=
  (entry.bodyBytes crypto v2).map crypto.sha256

/-- SHA-256 of the v2 body, or a value no signature or link can match. -/
def v2HashOrUnencodable : Digest :=
  match entry.v2EntryHash crypto v2 with
  | .ok hash => hash
  | .error _ => crypto.sha256 unencodableTag

end

/-- Presence marker, length and bytes of the principal, or an absence marker. -/
def v1Principal : Bytes :=
  match entry.principal with
  | some principal =>
    0xff :: (leBytes 4 ((Cbor.utf8 principal).length % 2 ^ 32) ++ Cbor.utf8 principal)
  | none => [0x00]

def v1SigningData : Bytes :=
  Uuid.asBytes entry.id ++ leBytes 8 (timestampSeconds entry.timestamp % 2 ^ 64).toNat ++
    Uuid.asBytes entry.sessionId ++ entry.v1Principal ++
    (P.actionVec entry.action).getD [] ++ (P.authorizationVec entry.authorization).getD [] ++
    [if P.isSuccess entry.outcome then 1 else 0] ++ entry.previousHash.bytes ++
    entry.runtimeKey.bytes

def signingData : Bytes :=
  match entry.v2 with
  | some v2 => Audit.signingInput (entry.v2HashOrUnencodable crypto v2)
  | none => entry.v1SigningData

/-- The hash by which the next entry links to this one. -/
def contentHash : Digest :=
  match entry.v2 with
  | some v2 => entry.v2HashOrUnencodable crypto v2
  | none => crypto.blake3 entry.v1SigningData

/-- Whether the signature matches under the key embedded in the entry. -/
def verifySignature : Bool :=
  if entry.v2.isSome then
    crypto.verifyStrict entry.runtimeKey (entry.signingData crypto) entry.signature
  else crypto.verify entry.runtimeKey (entry.signingData crypto) entry.signature

def follows (previous : AuditEntry P) : Bool :=
  decide (entry.previousHash = previous.contentHash crypto)

end AuditEntry

end Astrid.Audit
