import Astrid.Durable.Format

/-!
# ASTWAL2 records

The record grammar of `engine/durable/wal/codec.rs`. A physical record is a
52-byte header (magic, version, two zero bytes, payload length, checksum) and a
payload: a 20-byte record header (kind, flags, sequence, ordinal) and a body.

BLAKE3 and LZ4 are parameters of `WalEnv`: the checksum and the digest are
arbitrary functions, and what is assumed of the compressor is stated where it
is used. A hasher is the bytes it was fed. I/O and allocation failures are not
modelled, and a stream is shorter than `2 ^ 64` bytes by its type, so the checked
additions that only bound positions inside a stream are plain ones here.
-/

namespace Astrid

/-! ## Types -/

/-- A parser or writer failure. -/
inductive WalError
  | corrupt (offset : Nat) (detail : String)
  | interiorCorruption (offset : Nat) (detail : String)
  | frameTooLarge (offset declared limit : Nat)
  | lengthOverflow (value : Nat)
  | countOverflow (field : String)
  | sequenceRegression (previous current : Nat)
  | sequenceMismatch (expected found : Nat)
  | ordinalMismatch (expected found : Nat)
  | commitSequenceMismatch (expected found : Nat)
  | commitCountMismatch (field : String)
  | digestMismatch
  | identitySchemeMismatch
  | objectIdentityMismatch (object : Digest)
  | principalMismatch
  | orderingViolation
  | zeroRoots
  | invalidTransaction (detail : String)
  | encoding (detail : String)
  deriving DecidableEq

/-- What a WAL is opened with: the identity, the principal codec, the hash and
compression functions, and the per-record bound of the recovery limits. -/
structure WalEnv (P : Type) where
  scheme : IdentityScheme
  identify : ObjectRecord Digest → Digest
  encodePrincipal : P → Bytes
  decodePrincipal : Bytes → Option P
  frameChecksum : Bytes → Nat → Bytes → Digest
  digest : Bytes → Digest
  compress : Bytes → Bytes
  decompress : Bytes → Nat → Option Bytes
  maxFrameBytes : Nat
  maxFrameBytes_pos : 0 < maxFrameBytes
  maxFrameBytes_lt : maxFrameBytes < wordLimit

/-- A digest that repeats no byte. -/
def countedDigest (first : Nat) : Digest :=
  ⟨(List.range 32).map fun i => UInt8.ofNat (first + i), by simp⟩

/-- An instance to run the model on: one-byte principals, the first payload bytes as checksum, and
a compressor that gains nothing. LZ4 gains nothing on bytes without repetitions, and it is run on
such objects only. -/
def WalEnv.plain : WalEnv UInt8 where
  scheme := ⟨1, 1, version_one_ne, version_one_ne⟩
  identify _ := countedDigest 200
  encodePrincipal principal := [principal]
  decodePrincipal bytes := bytes.head?
  frameChecksum _ _ payload := ⟨(payload ++ (countedDigest 100).bytes).take 32, by
    simp [(countedDigest 100).length_eq]⟩
  digest _ := countedDigest 200
  compress body := body
  decompress body _ := some body
  maxFrameBytes := 4096
  maxFrameBytes_pos := by decide
  maxFrameBytes_lt := by decide

/-- A non-zero 64-bit transaction sequence. -/
@[ext]
structure WalSequence where
  value : Nat
  pos : 0 < value
  lt : value < wordLimit

instance : DecidableEq WalSequence := fun _ _ => decidable_of_iff _ WalSequence.ext_iff.symm

def WalSequence.new (value : Nat) : Option WalSequence :=
  if h : 0 < value ∧ value < wordLimit then some ⟨value, h.1, h.2⟩ else none

theorem WalSequence.new_value (sequence : WalSequence) :
    WalSequence.new sequence.value = some sequence := by
  simp [WalSequence.new, sequence.pos, sequence.lt]

/-- A kind byte in the logical record grammar. -/
inductive WalRecordKind
  | begin
  | object
  | root
  | commit
  deriving DecidableEq, Repr

def WalRecordKind.tag : WalRecordKind → UInt8
  | .begin => 1
  | .object => 2
  | .root => 3
  | .commit => 4

def WalRecordKind.fromTag : UInt8 → Option WalRecordKind
  | 1 => some .begin
  | 2 => some .object
  | 3 => some .root
  | 4 => some .commit
  | _ => none

theorem WalRecordKind.fromTag_tag (kind : WalRecordKind) : fromTag kind.tag = some kind := by
  cases kind <;> rfl

/-- Optional non-authoritative Begin hints. -/
structure WalBeginHints where
  objectCount : UInt64
  rootCount : UInt64
  logicalBytes : UInt64
  deriving DecidableEq

/-- A root transition with canonical principal bytes. -/
structure WalRootTransition where
  principal : Bytes
  expected : Option (RootState Digest)
  replacement : RootState Digest
  deriving DecidableEq

structure PhysicalHeader where
  version : Nat
  payloadLen : Nat
  checksum : Digest
  deriving DecidableEq

structure RecordHeader where
  kind : WalRecordKind
  flags : UInt8
  sequence : WalSequence
  ordinal : Nat
  deriving DecidableEq

structure CommitBody where
  sequence : WalSequence
  logicalCount : Nat
  objectCount : Nat
  rootCount : Nat
  logicalBytes : Nat
  digest : Digest
  deriving DecidableEq

/-! ## Constants -/

/-- `ASTWAL2\0`. -/
def walMagic : Bytes := [65, 83, 84, 87, 65, 76, 50, 0]

def physicalHeaderLen : Nat := 52

def recordHeaderLen : Nat := 20

def legacyVersion : Nat := 1

def compressedObjectVersion : Nat := 2

def objectFlagLz4 : UInt8 := 1

def compressedObjectLengthLen : Nat := 8

section Records

variable {P : Type} (env : WalEnv P)

/-- The payload bound: the frame bound and a record header, saturating. -/
def walPhysicalLimit : Nat := min (env.maxFrameBytes + recordHeaderLen) (wordLimit - 1)

/-- Enforce the frame bound on a logical body; returns its length. -/
def validateLogicalBody (body : Bytes) (offset : Nat) : Except WalError Nat :=
  if body.length > env.maxFrameBytes then
    .error (.frameTooLarge offset body.length env.maxFrameBytes)
  else .ok body.length

/-! ## Physical records -/

def physicalHeader (version payloadLen : Nat) (checksum : Digest) : Bytes :=
  walMagic ++ (leBytes 2 version ++ ([0, 0] ++ (leBytes 8 payloadLen ++ checksum.bytes)))

variable (kind : WalRecordKind)

def recordHeader (flags : UInt8) (sequence ordinal : Nat) : Bytes :=
  [kind.tag, flags, 0, 0] ++ (leBytes 8 sequence ++ leBytes 8 ordinal)

/-- The bytes of a record, without the bounds. -/
def physicalRecord (flags : UInt8) (payload : Bytes) : Bytes :=
  physicalHeader (if flags = 0 then legacyVersion else compressedObjectVersion) payload.length
    (env.frameChecksum walMagic payload.length payload) ++ payload

def encodePhysicalRecordWithFlags (flags : UInt8) (sequence : WalSequence) (ordinal : Nat)
    (body : Bytes) : Except WalError Bytes :=
  match validateLogicalBody env body 0 with
  | .error e => .error e
  | .ok _ =>
    match checkedAdd recordHeaderLen body.length with
    | none => .error (.encoding "WAL record length overflow")
    | some payloadLen =>
      if payloadLen > walPhysicalLimit env then
        .error (.frameTooLarge 0 payloadLen (walPhysicalLimit env))
      else
        match checkedAdd physicalHeaderLen payloadLen with
        | none => .error (.encoding "WAL physical length overflow")
        | some _ =>
          .ok (physicalRecord env flags
            (recordHeader kind flags sequence.value ordinal ++ body))

def encodePhysicalRecord (sequence : WalSequence) (ordinal : Nat) (body : Bytes) :
    Except WalError Bytes :=
  encodePhysicalRecordWithFlags env kind 0 sequence ordinal body

end Records

/-- Parse a physical header; both callers only ask whether it is one. -/
def decodePhysicalHeader (header : Bytes) : Option PhysicalHeader :=
  if slice header 0 8 ≠ walMagic ∨ ¬ (ofLe (slice header 8 2) = legacyVersion ∨
        ofLe (slice header 8 2) = compressedObjectVersion) ∨
      slice header 10 2 ≠ [0, 0] then none
  else
    match Digest.ofBytes (slice header 20 32) with
    | none => none
    | some checksum => some ⟨ofLe (slice header 8 2), ofLe (slice header 12 8), checksum⟩

def checksumValid {P : Type} (env : WalEnv P) (header : PhysicalHeader) (payload : Bytes) : Bool :=
  env.frameChecksum walMagic header.payloadLen payload = header.checksum

/-- Record features must match the physical version that defines them. -/
def validateRecordVersion (physical : PhysicalHeader) (record : RecordHeader) (offset : Nat) :
    Except WalError Unit :=
  let valid :=
    if physical.version = legacyVersion then decide (record.flags = 0)
    else if physical.version = compressedObjectVersion then
      decide (record.kind = .object ∧ record.flags = objectFlagLz4)
    else false
  if valid then .ok ()
  else .error (.corrupt offset "WAL record features do not match its physical version")

def decodeRecordHeader (payload : Bytes) (offset : Nat) : Except WalError RecordHeader :=
  if payload.length < recordHeaderLen then
    .error (.corrupt offset "WAL record header is truncated")
  else
    match WalRecordKind.fromTag (payload.headD 0) with
    | none => .error (.corrupt offset "WAL record kind is unknown")
    | some kind =>
      let flags := (payload.drop 1).headD 0
      if slice payload 2 2 ≠ [0, 0] ∨ (kind = .object ∧ flags &&& ~~~objectFlagLz4 ≠ 0) ∨
          (kind ≠ .object ∧ flags ≠ 0) then
        .error (.corrupt offset "WAL record flags or reserved bytes are non-zero")
      else
        match WalSequence.new (ofLe (slice payload 4 8)) with
        | none => .error (.corrupt offset "WAL record sequence is zero")
        | some sequence => .ok ⟨kind, flags, sequence, ofLe (slice payload 12 8)⟩

/-- The body after a validated record header. -/
def recordBody (payload : Bytes) : Bytes := payload.drop recordHeaderLen

/-! ## Begin and Commit bodies -/

def beginFixedLen : Nat := 8

def encodeBeginBody (scheme : IdentityScheme) (hints : Option WalBeginHints) : Bytes :=
  leBytes 2 scheme.algorithm.toNat ++ (leBytes 2 scheme.construction.toNat ++
    ([if hints.isSome then 1 else 0, 0, 0, 0] ++ match hints with
      | none => []
      | some hints => leBytes 8 hints.objectCount.toNat ++
          (leBytes 8 hints.rootCount.toNat ++ leBytes 8 hints.logicalBytes.toNat)))

def decodeBeginBody (body : Bytes) (offset : Nat) :
    Except WalError (IdentityScheme × Option WalBeginHints) :=
  if body.length < beginFixedLen ∨ slice body 5 3 ≠ [0, 0, 0] then
    .error (.corrupt offset "WAL Begin body is invalid")
  else
    match IdentityScheme.new (UInt16.ofNat (ofLe (slice body 0 2)))
        (UInt16.ofNat (ofLe (slice body 2 2))) with
    | none => .error (.corrupt offset "WAL Begin identity scheme is invalid")
    | some scheme =>
      let hintTag := slice body 4 1
      if hintTag = [0] ∧ body.length = beginFixedLen then .ok (scheme, none)
      else if hintTag = [1] ∧ body.length = beginFixedLen + 24 then
        .ok (scheme, some ⟨UInt64.ofNat (ofLe (slice body 8 8)),
          UInt64.ofNat (ofLe (slice body 16 8)), UInt64.ofNat (ofLe (slice body 24 8))⟩)
      else .error (.corrupt offset "WAL Begin hint encoding is invalid")

def commitBodyLen : Nat := 8 + 8 + 8 + 8 + 8 + 32

def encodeCommitBody (commit : CommitBody) : Bytes :=
  leBytes 8 commit.sequence.value ++ (leBytes 8 commit.logicalCount ++
    (leBytes 8 commit.objectCount ++ (leBytes 8 commit.rootCount ++
      (leBytes 8 commit.logicalBytes ++ commit.digest.bytes))))

def decodeCommitBody (body : Bytes) (offset : Nat) : Except WalError CommitBody :=
  if body.length ≠ commitBodyLen then
    .error (.corrupt offset "WAL Commit body length is invalid")
  else
    match WalSequence.new (ofLe (slice body 0 8)) with
    | none => .error (.corrupt offset "WAL Commit sequence is zero")
    | some sequence =>
      match Digest.ofBytes (slice body 40 32) with
      | none => .error (.corrupt offset "WAL Commit digest is truncated")
      | some digest =>
        .ok ⟨sequence, ofLe (slice body 8 8), ofLe (slice body 16 8), ofLe (slice body 24 8),
          ofLe (slice body 32 8), digest⟩

/-! ## Object bodies -/

section Bodies

variable {P : Type} (env : WalEnv P)

def encodeObjectBody (scheme : IdentityScheme) (id : Digest) (record : ObjectRecord Digest) :
    Except WalError Bytes :=
  if env.scheme ≠ scheme ∨ env.identify record ≠ id then .error (.objectIdentityMismatch id)
  else
    match encodeObjectFrame scheme id record with
    | none => .error (.encoding "WAL object-frame encoding failed")
    | some bytes => .ok bytes

variable (body : Bytes)

/-- Decode and structurally validate one object frame. -/
def decodeObjectBody (scheme : IdentityScheme) (offset : Nat) : Except WalError (Digest × Nat) :=
  if env.scheme ≠ scheme then .error .identitySchemeMismatch
  else
    match decodeObjectFrame body scheme with
    | .error detail => .error (.corrupt offset detail)
    | .ok (id, record) =>
      match encodeObjectFrame scheme id record with
      | none => .error (.corrupt offset "WAL object canonical encoding failed")
      | some canonical =>
        if canonical ≠ body then .error (.corrupt offset "WAL object frame is not canonical")
        else if env.identify record ≠ id then .error (.objectIdentityMismatch id)
        else .ok (id, body.length)

/-- Compress only when prefix and compressed bytes are strictly smaller. -/
def encodeObjectStorageBody : UInt8 × Bytes :=
  if compressedObjectLengthLen + (env.compress body).length ≥ body.length then (0, body)
  else (objectFlagLz4, leBytes 8 body.length ++ env.compress body)

def decodeObjectStorageBody (flags : UInt8) (offset : Nat) : Except WalError Bytes :=
  if flags = 0 then (validateLogicalBody env body offset).map fun _ => body
  else if flags ≠ objectFlagLz4 ∨ body.length < compressedObjectLengthLen then
    .error (.corrupt offset "WAL compressed object body is invalid")
  else
    let declared := ofLe (slice body 0 8)
    if declared > env.maxFrameBytes then
      .error (.frameTooLarge offset declared env.maxFrameBytes)
    else
      match env.decompress (body.drop compressedObjectLengthLen) declared with
      | none => .error (.corrupt offset "WAL compressed object payload is invalid")
      | some decoded =>
        if decoded.length ≠ declared then
          .error (.corrupt offset "WAL compressed object length does not match payload")
        else .ok decoded

/-! ## Root bodies -/

/-- The principal bytes must be a fixed point of the codec. -/
def validatePrincipal (bytes : Bytes) : Except WalError Unit :=
  match env.decodePrincipal bytes with
  | none => .error .principalMismatch
  | some principal =>
    if env.encodePrincipal principal ≠ bytes then .error .principalMismatch else .ok ()

/-- A root starts at the initial generation and then advances by one. -/
def rootGenerationValid (expected : Option (RootState Digest)) (replacement : RootState Digest) :
    Bool :=
  match expected with
  | none => replacement.generation = RootGeneration.initial
  | some expected => expected.generation.checkedNext = some replacement.generation

def encodeRootBody (scheme : IdentityScheme) (principal : P)
    (expected : Option (RootState Digest)) (replacement : RootState Digest) :
    Except WalError (Bytes × Bytes) :=
  if !rootGenerationValid expected replacement then
    .error (.invalidTransaction "WAL root generation transition is invalid")
  else
    let bytes := env.encodePrincipal principal
    match validatePrincipal env bytes with
    | .error e => .error e
    | .ok () =>
      match encodeRootRecord scheme bytes expected replacement with
      | none => .error (.encoding "WAL root-record encoding failed")
      | some payload => .ok (bytes, payload)

def bodyErrors (offset : Nat) : ReaderErrors WalError where
  overflow len := .lengthOverflow len
  truncated := .corrupt offset "WAL root record is truncated"

open Reads

def readBodyIdentity (scheme : IdentityScheme) (offset : Nat) : Reads WalError Digest := do
  let algorithm ← word (bodyErrors offset) 2
  let construction ← word (bodyErrors offset) 2
  let digestLen ← word (bodyErrors offset) 4
  ensure (algorithm = scheme.algorithm.toNat ∧ construction = scheme.construction.toNat ∧
    digestLen = 32) .identitySchemeMismatch
  let digest ← take (bodyErrors offset) 32
  accept (Digest.ofBytes digest) (.corrupt offset "WAL root identity is truncated")

def readRootState (scheme : IdentityScheme) (offset : Nat) :
    Reads WalError (RootState Digest) := do
  let generation ← word (bodyErrors offset) 8
  let commit ← readBodyIdentity scheme offset
  pure ⟨UInt64.ofNat generation, commit⟩

def readExpected (scheme : IdentityScheme) (offset : Nat) :
    Reads WalError (Option (RootState Digest)) := do
  let tag ← byte (bodyErrors offset)
  if tag = 0 then pure none
  else if tag = 1 then
    let root ← readRootState scheme offset
    pure (some root)
  else fun _ => .error (.corrupt offset "WAL root expected tag is invalid")

/-- The fields of a root record; the principal is validated as soon as it is read. -/
def readRootBody (scheme : IdentityScheme) (offset : Nat) : Reads WalError WalRootTransition := do
  let principalLen ← word (bodyErrors offset) 8
  let principal ← take (bodyErrors offset) principalLen
  let _ ← fun reader => (validatePrincipal env principal).map (·, reader)
  let expected ← readExpected scheme offset
  let replacement ← readRootState scheme offset
  pure ⟨principal, expected, replacement⟩

def decodeRootBody (scheme : IdentityScheme) (offset : Nat) : Except WalError WalRootTransition :=
  match readRootBody env scheme offset ⟨0, body⟩ with
  | .error e => .error e
  | .ok (transition, reader) =>
    if reader.rest.length ≠ 0 then
      .error (.corrupt offset "WAL root record has trailing bytes")
    else if !rootGenerationValid transition.expected transition.replacement then
      .error (.corrupt offset "WAL root generation transition is invalid")
    else
      match encodeRootRecord scheme transition.principal transition.expected
          transition.replacement with
      | none => .error (.corrupt offset "WAL root canonical encoding failed")
      | some canonical =>
        if canonical ≠ body then .error (.corrupt offset "WAL root record is not canonical")
        else .ok transition

end Bodies

/-! ## Transaction digests -/

/-- The bytes one logical record feeds into the transaction digest. -/
def digestRecordWithFlags (kind : WalRecordKind) (flags : UInt8) (sequence : WalSequence)
    (ordinal : Nat) (body : Bytes) : Bytes :=
  (if flags = 0 then [kind.tag] else [255, kind.tag, flags]) ++
    (leBytes 8 sequence.value ++ (leBytes 8 ordinal ++ (leBytes 8 body.length ++ body)))

/-- The canonical logical record length used by Commit accounting. -/
def logicalRecordLength (body : Bytes) : Except WalError Nat :=
  match checkedAdd recordHeaderLen body.length with
  | none => .error (.countOverflow "logical bytes")
  | some length => .ok length

end Astrid
