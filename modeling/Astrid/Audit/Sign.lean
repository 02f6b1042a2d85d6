import Astrid.Audit.Verifier

/-!
# Signing entries

`astrid-audit`, `log/v2.rs`, `entry.rs` and `entry_v2/body.rs`: how the log makes the next entry
of a chain. Without a format-v2 signer the entry is of format v1, signed by the runtime key. With
one, it is of format v2, signed by the audit key in the latest registry state; it takes the next
sequence number if the head of the chain is in the same v2 chain, and 1 otherwise.

What a signed entry has from its request, from the head of its chain and from the signer is in
`signEntry_fields` and `signEntry_v2`.
-/

namespace Astrid.Audit

variable {P : Payloads} {crypto : Crypto}

/-- An Ed25519 key pair: what it signs verifies. -/
structure KeyPair (crypto : Crypto) where
  exportPublicKey : PublicKey
  sign : Bytes → Signature
  verify_sign : ∀ message, crypto.verify exportPublicKey message (sign message) = true
  verifyStrict_sign : ∀ message, crypto.verifyStrict exportPublicKey message (sign message) = true

/-- What to record, independent of the entry format. -/
structure EntryRequest (P : Payloads) where
  sessionId : Uuid
  principal : Option String
  actor : Option AuditActor
  action : P.Action
  authorization : P.Authorization
  outcome : P.Outcome

/-- What a call draws from its surroundings: a new id, the time, a random salt key, and the UID
that the resolver has for the principal at this moment. -/
structure Draw where
  id : Uuid
  timestamp : Timestamp
  saltKey : Digest
  uid : Option Digest

/-- The active v2 signer: the audit key and the registry it is valid in. -/
structure V2Signer (crypto : Crypto) where
  key : KeyPair crypto
  registry : KeyRegistry

/-- A v2 chain position, cached with a chain head. -/
structure V2Position where
  chainId : Digest
  seq : UInt64
  keyEpoch : UInt64

def V2Position.of (entry : AuditEntry P) : Option V2Position :=
  entry.v2.map fun v2 => ⟨v2.chainId, v2.seq, v2.keyEpoch⟩

/-- A signature that is replaced as soon as the signed bytes are known. -/
def zeroSignature : Signature := ⟨List.replicate 64 0, Signature.length_zero⟩

/-- How an entry id is shown: its first four bytes. -/
def entryIdText (id : Uuid) : String := "audit:" ++ toHex (id.asBytes.take 4)

/-! ## Entries -/

/-- Format-v1 entry; v1 has no actor field, so an actor is not recorded. -/
def signV1 (crypto : Crypto) (request : EntryRequest P) (draw : Draw) (previousHash : Digest)
    (key : KeyPair crypto) : AuditEntry P :=
  let entry : AuditEntry P :=
    { id := draw.id
      timestamp := draw.timestamp
      sessionId := request.sessionId
      principal := request.principal
      action := request.action
      authorization := request.authorization
      outcome := request.outcome
      previousHash := previousHash
      runtimeKey := key.exportPublicKey
      signature := zeroSignature
      v2 := none }
  { entry with signature := key.sign (entry.signingData crypto) }

/-- A v2 entry before it is signed. -/
def draftV2 (request : EntryRequest P) (draw : Draw) (previousHash : Digest) (v2 : EntryV2Seal)
    (key : KeyPair crypto) : AuditEntry P where
  id := draw.id
  timestamp := draw.timestamp
  sessionId := request.sessionId
  principal := request.principal
  action := request.action
  authorization := request.authorization
  outcome := request.outcome
  previousHash := previousHash
  runtimeKey := key.exportPublicKey
  signature := zeroSignature
  v2 := some v2

/-- Build and sign a v2 entry. -/
def assembleV2 (crypto : Crypto) (request : EntryRequest P) (draw : Draw) (previousHash : Digest)
    (v2 : EntryV2Seal) (key : KeyPair crypto) : AuditResult (AuditEntry P) := do
  require ((timestampNanos draw.timestamp).isSome)
    (.integrityViolation (entryIdText draw.id)
      "entry time is not representable as u64 nanoseconds")
  require (v2.seq ≠ 0)
    (.integrityViolation (entryIdText draw.id) "v2 sequence numbers start at 1")
  let entry := draftV2 request draw previousHash v2 key
  let hash ← entry.v2EntryHash crypto v2
  .ok { entry with signature := key.sign (signingInput hash) }

/-- The sequence number after the head of a chain. -/
def nextSeq (previous : Option V2Position) (chainId : Digest) : AuditResult UInt64 :=
  match previous with
  | some head =>
    if head.chainId = chainId then
      okOr (checkedAddU64 head.seq 1) (.storageError "audit chain sequence exhausted")
    else .ok 1
  | none => .ok 1

/-- Create and sign the next entry of a chain whose head has the hash `previousHash` and the v2
position `previous`. -/
def signEntry (crypto : Crypto) (runtimeKey : KeyPair crypto) (signer : Option (V2Signer crypto))
    (request : EntryRequest P) (draw : Draw) (previousHash : Digest)
    (previous : Option V2Position) : AuditResult (AuditEntry P) :=
  match signer with
  | none => do
    -- Storage refuses a v1 entry once the store holds a key registry; a v2 chain head is
    -- refused here already.
    require (previous = none) (.v1Closed "the chain head is a format-v2 entry")
    .ok (signV1 crypto request draw previousHash runtimeKey)
  | some signer => do
    let principalUid := request.principal.bind fun _ => draw.uid
    let chainId := deriveChainId crypto signer.registry.registryId request.sessionId
      request.principal principalUid
    let keyEpoch := signer.registry.headSeq
    require (∀ head ∈ previous, head.keyEpoch ≤ keyEpoch)
      (.keyRegistry "the chain head names a newer key epoch than the loaded registry")
    let seq ← nextSeq previous chainId
    assembleV2 crypto request draw previousHash
      ⟨chainId, seq, keyEpoch, principalUid, request.actor, draw.saltKey⟩ signer.key

/-- The hash and the v2 position of a chain head; the zero hash for an empty chain. -/
def headHash (crypto : Crypto) (head : Option (AuditEntry P)) : Digest :=
  (head.map fun entry => entry.contentHash crypto).getD zeroHash

def headPosition (head : Option (AuditEntry P)) : Option V2Position := head.bind V2Position.of

/-- Refuse to commit entries against the stored key registry: a v1 entry once any record exists,
or a v2 entry whose key epoch is no longer the registry head. -/
def checkRegistryState (recordExists : UInt64 → Bool) (entries : List (AuditEntry P)) :
    AuditResult Unit := do
  require (¬ (entries.any (fun entry => entry.v2.isNone) = true ∧ recordExists 0 = true))
    (.v1Closed "the store holds a format-v2 key registry")
  let epochs := ((entries.filterMap fun entry => entry.v2.map (·.keyEpoch)).insertionSort
    (· ≤ ·)).dedup
  epochs.forM fun keyEpoch => do
    let next ← okOr (checkedAddU64 keyEpoch 1) (.storageError "audit key epoch exhausted")
    require (recordExists next = false) (.staleAuditKey keyEpoch)

/-! ## Registry records -/

namespace KeyRegistryRecord

/-- The record with one signature for each bound key. -/
def signedBy (crypto : Crypto) (record : KeyRegistryRecord) (keys : List (KeyPair crypto)) :
    AuditResult KeyRegistryRecord := do
  let input := record.signingInput crypto
  let signatures ← record.requiredSigners.mapM fun key => do
    let pair ← okOr (keys.find? fun pair => decide (pair.exportPublicKey = key))
      (registryError "a bound key's private half was not supplied")
    (.ok ⟨key, pair.sign input⟩ : AuditResult RegistrySignature)
  .ok { record with signatures := signatures }

end KeyRegistryRecord

namespace KeyRegistry

/-- The first record of a registry, signed by every key it binds. -/
def genesisRecord (crypto : Crypto) (timestamp : Timestamp)
    (keys : List (KeyRole × KeyPair crypto)) : AuditResult KeyRegistryRecord := do
  let add := (keys.map fun key => (⟨key.1, key.2.exportPublicKey⟩ : KeyBinding)).insertionSort
    fun left right => (compare left.sortKey right.sortKey).isLE
  let record ← (⟨0, zeroHash, timestamp, .genesis, add, [], []⟩ : KeyRegistryRecord).signedBy
    crypto (keys.map Prod.snd)
  -- Validate through the same rules a verifier applies.
  let _ ← fromRecords crypto [record]
  .ok record

/-- A record that replaces `old` with `new` for `role`, signed by both. -/
def rotationRecord (crypto : Crypto) (registry : KeyRegistry) (role : KeyRole)
    (old new : KeyPair crypto) (timestamp : Timestamp) : AuditResult KeyRegistryRecord := do
  let seq ← okOr (checkedAddU64 registry.headSeq 1)
    (registryError "key registry sequence exhausted")
  let record ← (⟨seq, registry.headHash, timestamp, .rotate, [⟨role, new.exportPublicKey⟩],
    [⟨role, old.exportPublicKey⟩], []⟩ : KeyRegistryRecord).signedBy crypto [old, new]
  let _ ← ((push crypto record).run registry).1
  .ok record

end KeyRegistry

/-! ## What is signed passes the checks -/

variable {request : EntryRequest P} {draw : Draw} {previousHash : Digest} {entry : AuditEntry P}

/-- What an assembled v2 entry is. -/
theorem assembleV2_eq_ok {v2 : EntryV2Seal} {key : KeyPair crypto}
    (h : assembleV2 crypto request draw previousHash v2 key = .ok entry) :
    (timestampNanos draw.timestamp).isSome ∧ v2.seq ≠ 0 ∧
      ∃ hash, (draftV2 request draw previousHash v2 key).v2EntryHash crypto v2 = .ok hash ∧
        entry = { draftV2 request draw previousHash v2 key with
          signature := key.sign (signingInput hash) } := by
  simp only [assembleV2, bind_eq_ok, require_eq_ok] at h
  obtain ⟨_, htime, _, hseq, hash, hhash, hentry⟩ := h
  cases hentry
  exact ⟨htime, hseq, hash, hhash, rfl⟩

variable {runtimeKey : KeyPair crypto} {signer : Option (V2Signer crypto)}
  {previous : Option V2Position}

section

variable (h : signEntry crypto runtimeKey signer request draw previousHash previous = .ok entry)

include h

/-- What `signEntry` makes: a format-v1 entry after no v2 head, or a format-v2 entry with the
next position. -/
theorem signEntry_eq_ok :
    (signer = none ∧ previous = none ∧ entry = signV1 crypto request draw previousHash runtimeKey) ∨
    ∃ found v2, signer = some found ∧ (∀ head ∈ previous, head.keyEpoch ≤ v2.keyEpoch) ∧
      nextSeq previous v2.chainId = .ok v2.seq ∧ v2.keyEpoch = found.registry.headSeq ∧
      v2.chainId = deriveChainId crypto found.registry.registryId request.sessionId
        request.principal v2.principalUid ∧
      assembleV2 crypto request draw previousHash v2 found.key = .ok entry := by
  unfold signEntry at h
  split at h
  next =>
    obtain ⟨_, hprevious, h⟩ := bind_eq_ok.1 h
    cases h
    exact .inl ⟨rfl, require_eq_ok.1 hprevious, rfl⟩
  next found =>
    obtain ⟨_, hepoch, h⟩ := bind_eq_ok.1 h
    obtain ⟨_, hseq, h⟩ := bind_eq_ok.1 h
    exact .inr ⟨found, _, rfl, require_eq_ok.1 hepoch, hseq, rfl, rfl, h⟩

/-- A signed entry records the request, under its own id and after the given hash. -/
theorem signEntry_fields :
    entry.id = draw.id ∧ entry.sessionId = request.sessionId ∧
      entry.principal = request.principal ∧ entry.previousHash = previousHash := by
  rcases signEntry_eq_ok h with ⟨_, _, rfl⟩ | ⟨_, _, _, _, _, _, _, hassemble⟩
  · exact ⟨rfl, rfl, rfl, rfl⟩
  · obtain ⟨_, _, _, _, rfl⟩ := assembleV2_eq_ok hassemble
    exact ⟨rfl, rfl, rfl, rfl⟩

/-- The v2 data of a signed entry: its position comes from the head of the chain, the rest from
the signer. -/
theorem signEntry_v2 {v2 : EntryV2Seal} (hv2 : entry.v2 = some v2) :
    ∃ found, signer = some found ∧ nextSeq previous v2.chainId = .ok v2.seq ∧
      entry.runtimeKey = found.key.exportPublicKey ∧ v2.keyEpoch = found.registry.headSeq ∧
      v2.chainId = deriveChainId crypto found.registry.registryId entry.sessionId
        entry.principal v2.principalUid := by
  rcases signEntry_eq_ok h with ⟨_, _, rfl⟩ |
    ⟨found, v2', hsigner, _, hseq, hepoch, hchain, hassemble⟩
  · cases hv2
  · obtain ⟨_, _, _, _, rfl⟩ := assembleV2_eq_ok hassemble
    obtain rfl : v2' = v2 := Option.some.inj hv2
    exact ⟨found, hsigner, hseq, rfl, hepoch, hchain⟩

end

end Astrid.Audit
