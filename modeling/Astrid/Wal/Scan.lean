import Astrid.Lib.Loop
import Astrid.Lib.Try
import Astrid.Wal.Codec

/-!
# The WAL scanner

`engine/durable/wal/scan.rs`: a streaming parser over the bytes of a WAL. Each
`nextEvent` reads one physical record, validates it against the transaction it
belongs to and reports a descriptor; a record that is cut off or damaged is a
discardable tail, unless a complete record image follows it somewhere in the
stream, which is interior corruption.

The scanner and the writer keep the same per-transaction counters, `ActiveTx`.
A scan is the loop over `nextEvent` to a clean end, a tail or an error.
-/

namespace Astrid

/-- The counters of an open transaction. -/
structure ActiveTx where
  sequence : WalSequence
  scheme : IdentityScheme
  nextOrdinal : Nat
  objectCount : Nat
  rootCount : Nat
  logicalCount : Nat
  logicalBytes : Nat
  hasher : Bytes
  previousObject : Option Digest
  previousPrincipal : Option Bytes
  sawRoot : Bool
  deriving DecidableEq

/-- Why scanning stopped at a physical tail. -/
inductive WalTailKind
  | incomplete
  | invalidChecksum
  deriving DecidableEq, Repr

/-- One scanner event. Offsets and lengths are those of the physical record. -/
inductive WalEvent
  | begin (offset : Nat) (sequence : WalSequence) (scheme : IdentityScheme)
      (hints : Option WalBeginHints)
  | object (offset length : Nat) (id : Digest) (logicalBytes : Nat)
  | root (offset length : Nat) (transition : WalRootTransition)
  | commit (beginOffset offset length : Nat) (commit : CommitBody)
  | tail (offset : Nat) (kind : WalTailKind)
  deriving DecidableEq

structure ActiveScan where
  beginOffset : Nat
  tx : ActiveTx
  deriving DecidableEq

structure ScanState where
  offset : Nat
  lastSequence : Option WalSequence
  active : Option ActiveScan
  finished : Bool
  resumeOffset : Option Nat
  deriving DecidableEq

def ScanState.start : ScanState := ⟨0, none, none, false, none⟩

/-- Count one more record, or report which counter overflows. -/
def checkedInc (count : Nat) (field : String) : Except WalError Nat :=
  okOr (checkedAdd count 1) (.countOverflow field)

/-- Sequences of one stream strictly increase. -/
def sequenceAdvances (lastSequence : Option WalSequence) (sequence : WalSequence) :
    Except WalError Unit :=
  match lastSequence with
  | none => .ok ()
  | some last => require (last.value < sequence.value)
      (.sequenceRegression last.value sequence.value)

section Consume

variable {P : Type} (env : WalEnv P)

/-- Open a transaction. -/
def consumeBegin (lastSequence : Option WalSequence) (offset : Nat) (record : RecordHeader)
    (body : Bytes) : Except WalError (WalEvent × ActiveScan) := do
  require (record.kind = .begin ∧ record.ordinal = 0)
    (.corrupt offset "WAL stream must begin each transaction with ordinal-zero Begin")
  sequenceAdvances lastSequence record.sequence
  let (scheme, hints) ← decodeBeginBody body offset
  require (env.scheme = scheme) .identitySchemeMismatch
  let logicalBytes ← logicalRecordLength body
  pure (.begin offset record.sequence scheme hints,
    ⟨offset, record.sequence, scheme, 1, 0, 0, 1, logicalBytes,
      digestRecordWithFlags .begin 0 record.sequence record.ordinal body, none, none, false⟩)

def consumeObject (tx : ActiveTx) (offset length : Nat) (flags : UInt8) (body : Bytes) :
    Except WalError (WalEvent × ActiveTx) := do
  require (tx.sawRoot = false) .orderingViolation
  let canonical ← decodeObjectStorageBody env body flags offset
  let (id, bodyLength) ← decodeObjectBody env canonical tx.scheme offset
  require (∀ previous ∈ tx.previousObject, compare previous id = .lt) .orderingViolation
  let objectCount ← checkedInc tx.objectCount "objects"
  let logicalRecord ← logicalRecordLength body
  let logicalBytes ← okOr (checkedAdd tx.logicalBytes logicalRecord)
    (.countOverflow "logical bytes")
  let nextOrdinal ← checkedInc tx.nextOrdinal "ordinals"
  let logicalCount ← checkedInc tx.logicalCount "logical records"
  pure (.object offset length id bodyLength, { tx with
    objectCount, logicalBytes, nextOrdinal, logicalCount
    previousObject := some id
    hasher := tx.hasher ++ digestRecordWithFlags .object flags tx.sequence tx.nextOrdinal body })

def consumeRoot (tx : ActiveTx) (offset length : Nat) (body : Bytes) :
    Except WalError (WalEvent × ActiveTx) := do
  let transition ← decodeRootBody env body tx.scheme offset
  require (∀ previous ∈ tx.previousPrincipal, compare previous transition.principal = .lt)
    .orderingViolation
  let rootCount ← checkedInc tx.rootCount "roots"
  let logicalRecord ← logicalRecordLength body
  let logicalBytes ← okOr (checkedAdd tx.logicalBytes logicalRecord)
    (.countOverflow "logical bytes")
  let nextOrdinal ← checkedInc tx.nextOrdinal "ordinals"
  let logicalCount ← checkedInc tx.logicalCount "logical records"
  pure (.root offset length transition, { tx with
    rootCount, logicalBytes, nextOrdinal, logicalCount
    previousPrincipal := some transition.principal
    sawRoot := true
    hasher := tx.hasher ++ digestRecordWithFlags .root 0 tx.sequence tx.nextOrdinal body })

/-- Check a Commit against the records streamed before it. -/
def consumeCommit (tx : ActiveTx) (offset : Nat) (body : Bytes) : Except WalError CommitBody := do
  require (tx.sawRoot = true) .zeroRoots
  let commit ← decodeCommitBody body offset
  require (commit.sequence = tx.sequence)
    (.commitSequenceMismatch tx.sequence.value commit.sequence.value)
  require (commit.logicalCount = tx.logicalCount) (.commitCountMismatch "logical records")
  require (commit.objectCount = tx.objectCount) (.commitCountMismatch "objects")
  require (commit.rootCount = tx.rootCount) (.commitCountMismatch "roots")
  require (commit.logicalBytes = tx.logicalBytes) (.commitCountMismatch "logical bytes")
  require (commit.digest = env.digest tx.hasher) .digestMismatch
  pure commit

/-- Consume one validated record, whose bytes end at `s.offset`. -/
def consumeRecord (s : ScanState) (offset : Nat) (record : RecordHeader) (body : Bytes) :
    Except WalError (WalEvent × ScanState) := do
  match s.active with
  | none =>
    let (event, active) ← consumeBegin env s.lastSequence offset record body
    pure (event, { s with active := some active })
  | some active =>
    require (record.sequence = active.tx.sequence)
      (.sequenceMismatch active.tx.sequence.value record.sequence.value)
    require (record.ordinal = active.tx.nextOrdinal)
      (.ordinalMismatch active.tx.nextOrdinal record.ordinal)
    match record.kind with
    | .begin => .error (.corrupt offset "WAL Begin appeared inside a transaction")
    | .object =>
      let (event, tx) ← consumeObject env active.tx offset (s.offset - offset) record.flags body
      pure (event, { s with active := some { active with tx } })
    | .root =>
      let (event, tx) ← consumeRoot env active.tx offset (s.offset - offset) body
      pure (event, { s with active := some { active with tx } })
    | .commit =>
      let commit ← consumeCommit env active.tx offset body
      pure (.commit active.beginOffset offset (s.offset - offset) commit,
        { s with lastSequence := some commit.sequence, active := none })

/-! ## Tails -/

variable (bytes : Bytes)

/-- A complete record image at the front: a valid header whose payload is all
there, and is oversized or has the right checksum. -/
def imageAtFront : Bool :=
  if bytes.length < physicalHeaderLen then false
  else
    match decodePhysicalHeader (slice bytes 0 physicalHeaderLen) with
    | none => false
    | some physical =>
      if physicalHeaderLen + physical.payloadLen > bytes.length then false
      else if physical.payloadLen > walPhysicalLimit env then true
      else checksumValid env physical (slice bytes physicalHeaderLen physical.payloadLen)

/-- Whether a complete record image starts anywhere in `bytes`. -/
def hasValidPhysical : Bytes → Bool
  | [] => false
  | first :: rest =>
    if first ≠ 65 then hasValidPhysical rest
    else if imageAtFront env (first :: rest) then true
    else hasValidPhysical rest

/-- The search of `has_valid_physical_after`, from position `start` to the end. -/
def hasValidPhysicalAfter (start : Nat) : Bool :=
  hasValidPhysical env (bytes.drop start)

variable (s : ScanState)

/-- Stop: a tail resumes where its transaction began, a clean end where it is. -/
def tailOrEnd (offset : Nat) (kind : WalTailKind) (forceTail : Bool) :
    Option WalEvent × ScanState :=
  if s.active.isSome || forceTail then
    let tailOffset := (s.active.map ActiveScan.beginOffset).getD offset
    (some (.tail tailOffset kind),
      { s with resumeOffset := some tailOffset, active := none, finished := true })
  else (none, { s with resumeOffset := some offset, finished := true })

def badPhysical (offset : Nat) : Except WalError (Option WalEvent × ScanState) :=
  if hasValidPhysicalAfter env bytes (offset + 1) then
    .error (.interiorCorruption offset "invalid WAL physical record before a later record")
  else .ok (tailOrEnd s offset .invalidChecksum true)

/-! ## Events -/

/-- Validate the payload of a complete record that ends at `stop`, and consume it. -/
def consumePayload (stop : Nat) (physical : PhysicalHeader) (payload : Bytes) :
    Except WalError (Option WalEvent × ScanState) := do
  let record ← decodeRecordHeader payload s.offset
  validateRecordVersion physical record s.offset
  let _ ← validateLogicalBody env (recordBody payload) s.offset
  let (event, s') ← consumeRecord env { s with offset := stop } s.offset record
    (recordBody payload)
  pure (some event, s')

/-- The next event, or `none` at a clean end. -/
def nextEvent : Except WalError (Option WalEvent × ScanState) :=
  if s.finished then .ok (none, s)
  else if bytes.length ≤ s.offset then .ok (tailOrEnd s s.offset .incomplete false)
  else if bytes.length < s.offset + physicalHeaderLen then
    .ok (tailOrEnd s s.offset .incomplete true)
  else
    match decodePhysicalHeader (slice bytes s.offset physicalHeaderLen) with
    | none => badPhysical env bytes s s.offset
    | some physical =>
      match checkedAdd (s.offset + physicalHeaderLen) physical.payloadLen with
      | none => .error (.lengthOverflow physical.payloadLen)
      | some payloadEnd =>
        if payloadEnd > bytes.length then
          if hasValidPhysicalAfter env bytes (s.offset + 1) then
            .error (.interiorCorruption s.offset "incomplete WAL record before a later record")
          else .ok (tailOrEnd s s.offset .incomplete true)
        else if physical.payloadLen > walPhysicalLimit env then
          if hasValidPhysicalAfter env bytes (s.offset + 1) then
            .error (.interiorCorruption s.offset "oversized WAL record before a later record")
          else .error (.frameTooLarge s.offset physical.payloadLen (walPhysicalLimit env))
        else if checksumValid env physical
            (slice bytes (s.offset + physicalHeaderLen) physical.payloadLen) = false then
          badPhysical env bytes { s with offset := payloadEnd } s.offset
        else
          consumePayload env s payloadEnd physical
            (slice bytes (s.offset + physicalHeaderLen) physical.payloadLen)

end Consume

end Astrid
