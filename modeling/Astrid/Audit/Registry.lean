import Astrid.Audit.Basic

/-!
# The key registry

`astrid-audit`, `entry_v2/registry.rs`: a cross-signed chain of records that says which Ed25519
key holds which signing role, and from which registry state on. The genesis record binds one key
to each of some roles. Every later record is a rotation: it retires the active key of one role
and adds a key that was never registered, for the same role.

A registry keeps one grant for each binding that was ever added, valid in the registry states
`from ≤ epoch < until`. A rotation closes a grant in place and appends a new one. A record is
checked against the registry before it changes anything; `push` here runs on an explicit state,
so that what a refused record leaves behind is a statement about it.
-/

namespace Astrid.Audit

open Std

/-! ## Records -/

/-- A signing role a key can be registered for. -/
inductive KeyRole
  | audit
  | capability
  | build
  | auditV1
  deriving DecidableEq

def KeyRole.code : KeyRole → UInt64
  | .audit => 1
  | .capability => 2
  | .build => 3
  | .auditV1 => 4

/-- One `[role, key]` pair of a registry record. -/
@[ext]
structure KeyBinding where
  role : KeyRole
  key : PublicKey
  deriving DecidableEq

namespace KeyBinding

def sortKey (binding : KeyBinding) : Nat × Bytes := (binding.role.code.toNat, binding.key.bytes)

def item (binding : KeyBinding) : Cbor :=
  .array [.uint binding.role.code, .bytes binding.key.bytes]

end KeyBinding

inductive RegistryOp
  | genesis
  | rotate
  deriving DecidableEq

def RegistryOp.code : RegistryOp → UInt64
  | .genesis => 0
  | .rotate => 1

/-- A signature by one key over a registry record. -/
structure RegistrySignature where
  key : PublicKey
  signature : Signature
  deriving DecidableEq

structure KeyRegistryRecord where
  seq : UInt64
  prev : Digest
  timestamp : Timestamp
  op : RegistryOp
  add : List KeyBinding
  retire : List KeyBinding
  signatures : List RegistrySignature
  deriving DecidableEq

/-- Domain tag, element 0 of every record body. -/
def registryTag : String := "astrid.audit.key-registry.v2"

/-- Domain tag of every signature input. -/
def signatureTag : String := "astrid.audit.sig.v2"

namespace KeyRegistryRecord

/-- Deterministic CBOR body of the record, without its signatures. -/
def body (record : KeyRegistryRecord) : Bytes :=
  (Cbor.array [.text registryTag, .uint record.seq, .bytes record.prev.bytes,
    .uint ((timestampNanos record.timestamp).getD 0),
    .uint record.op.code,
    .array (record.add.map KeyBinding.item),
    .array (record.retire.map KeyBinding.item)]).encode

def recordHash (crypto : Crypto) (record : KeyRegistryRecord) : Digest := crypto.sha256 record.body

/-- The bytes each bound key signs. -/
def signingInput (crypto : Crypto) (record : KeyRegistryRecord) : Bytes :=
  (Cbor.array [.text signatureTag, .text "key-registry",
    .bytes (record.recordHash crypto).bytes]).encode

/-- Distinct keys that must sign this record, sorted by their bytes. -/
def requiredSigners (record : KeyRegistryRecord) : List PublicKey :=
  (((record.add ++ record.retire).map KeyBinding.key).insertionSort
    fun left right => (compare left right).isLE).destutter (· ≠ ·)

end KeyRegistryRecord

/-! ## Grants -/

/-- Validity of one registered key for one role, in registry states `from..until`. -/
structure Grant where
  binding : KeyBinding
  start : UInt64
  until? : Option UInt64
  deriving DecidableEq

def Grant.covers (grant : Grant) (epoch : UInt64) : Bool :=
  decide (grant.start ≤ epoch) &&
    match grant.until? with
    | none => true
    | some stop => decide (epoch < stop)

structure KeyRegistry where
  records : List KeyRegistryRecord
  hashes : List Digest
  grants : List Grant
  deriving DecidableEq

def registryError (reason : String) : AuditError := .keyRegistry reason

namespace KeyRegistry

def empty : KeyRegistry := ⟨[], [], []⟩

section

variable (self : KeyRegistry)

def headHashOrZero : Digest := self.hashes.getLast?.getD zeroHash

def headHash : Digest := self.headHashOrZero

/-- The registry id: the hash of the genesis record. -/
def registryId : Digest := self.hashes.head?.getD zeroHash

/-- Sequence number of the latest record: the current key epoch. -/
def headSeq : UInt64 := (self.records.getLast?.map (·.seq)).getD 0

/-- The key that holds `role` in registry state `epoch`. -/
def activeKey (role : KeyRole) (epoch : UInt64) : Option PublicKey :=
  (self.grants.find? fun grant => decide (grant.binding.role = role) && grant.covers epoch).map
    fun grant => grant.binding.key

/-- Whether `key` holds `role` in registry state `epoch`. States beyond the latest record are
unknown and never match. -/
def isActive (role : KeyRole) (key : PublicKey) (epoch : UInt64) : Bool :=
  decide (epoch ≤ self.headSeq) && self.grants.any fun grant =>
    decide (grant.binding.role = role) && decide (grant.binding.key = key) && grant.covers epoch

/-- Whether `key` was ever registered for `role`. -/
def wasRegistered (role : KeyRole) (key : PublicKey) : Bool :=
  self.grants.any fun grant =>
    decide (grant.binding.role = role) && decide (grant.binding.key = key)

/-! ## Checks -/

def checkSorted (bindings : List KeyBinding) : AuditResult Unit :=
  require (bindings.IsChain fun left right => compare left.sortKey right.sortKey = .lt)
    (registryError "key bindings must be sorted and distinct")

def checkSignatures (crypto : Crypto) (record : KeyRegistryRecord) : AuditResult Unit := do
  let required := record.requiredSigners
  require (record.signatures.length = required.length ∧
      ∀ pair ∈ record.signatures.zip required, pair.1.key = pair.2)
    (registryError ("record " ++ toString record.seq ++
      " must carry exactly one signature per bound key, sorted by key"))
  let input := record.signingInput crypto
  record.signatures.forM fun signature =>
    require (crypto.verifyStrict signature.key input signature.signature)
      (registryError ("record " ++ toString record.seq ++ " has an invalid signature by " ++
        toHex signature.key.bytes))

variable (record : KeyRegistryRecord)

def checkGenesis : AuditResult Unit := do
  require (record.seq = 0 ∧ self.records = [])
    (registryError "genesis must be the first record")
  require (record.retire = [] ∧ record.add ≠ [])
    (registryError "genesis registers keys and retires none")
  let roles := (record.add.map KeyBinding.role).destutter (· ≠ ·)
  require (roles.length = record.add.length)
    (registryError "genesis binds a role more than once")
  match record.add.filter fun binding => decide (binding.role = .audit) with
  | [audit] =>
    require (∀ binding ∈ record.add, binding.role ≠ .audit → binding.key ≠ audit.key)
      (registryError "the audit key must not hold another role")
  | _ => .error (registryError "genesis must bind exactly one audit key")

def checkRotation : AuditResult Unit := do
  require (self.records ≠ []) (registryError "a rotation needs a genesis")
  match record.add, record.retire with
  | [added], [retired] =>
    require (added.role = retired.role) (registryError "a rotation must keep the role")
    require (self.activeKey retired.role self.headSeq = some retired.key)
      (registryError "a rotation must retire the role's active key")
    require (∀ grant ∈ self.grants, grant.binding.key ≠ added.key)
      (registryError "a rotation must introduce a never-registered key")
  | _, _ => .error (registryError "a rotation replaces exactly one key")

/-! ## Updates -/

/-- Close an open grant of a retired binding. -/
def closeGrant (seq : UInt64) (retired : KeyBinding) (grant : Grant) : Grant :=
  if grant.binding = retired ∧ grant.until? = none then { grant with until? := some seq }
  else grant

def apply : KeyRegistry :=
  let closed := record.retire.foldl
    (fun grants retired => grants.map (closeGrant record.seq retired)) self.grants
  { self with grants := closed ++ record.add.map fun added => ⟨added, record.seq, none⟩ }

end

/-- Computations on a registry that may fail; what they changed before they fail stays. -/
abbrev Update := ExceptT AuditError (StateM KeyRegistry)

def check (result : AuditResult Unit) : Update Unit := ExceptT.mk (pure result)

/-- Verify `record` as the next record and apply it. -/
def push (crypto : Crypto) (record : KeyRegistryRecord) : Update Unit := do
  let self ← get
  check (require (self.records.length < 2 ^ 64) (registryError "key registry too long"))
  let expectedSeq := UInt64.ofNat self.records.length
  check (require (record.seq = expectedSeq)
    (registryError ("record " ++ toString record.seq ++ " is out of sequence; expected " ++
      toString expectedSeq)))
  check (require (record.prev = self.headHashOrZero)
    (registryError ("record " ++ toString record.seq ++ " does not link to the previous record")))
  check (require ((timestampNanos record.timestamp).isSome)
    (registryError "record time is not representable"))
  check (checkSorted record.add)
  check (checkSorted record.retire)
  match record.op with
  | .genesis => check (self.checkGenesis record)
  | .rotate => check (self.checkRotation record)
  check (checkSignatures crypto record)
  modify fun self => self.apply record
  modify fun self => { self with hashes := self.hashes ++ [record.recordHash crypto] }
  modify fun self => { self with records := self.records ++ [record] }

/-- Verify a complete registry, genesis first. -/
def fromRecords (crypto : Crypto) (records : List KeyRegistryRecord) : AuditResult KeyRegistry := do
  require (records ≠ []) (registryError "a key registry needs a genesis record")
  let (result, registry) := (records.forM (push crypto)).run empty
  result
  .ok registry

end KeyRegistry

end Astrid.Audit
