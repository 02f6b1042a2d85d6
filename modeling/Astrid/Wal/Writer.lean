import Astrid.Wal.Scan

/-!
# The WAL writer

`engine/durable/wal/writer.rs`: a transaction is begun, takes objects and roots,
and is committed; each call appends one physical record to the sink. The append
offset is the length of the sink. I/O failures, and the poisoned state they leave,
are not modelled, so a call that fails leaves the writer as it was.

`WalLog` runs a writer and writes down, for each accepted call, the event that
describes the record it appended.
-/

namespace Astrid

structure WalWriter where
  sink : Bytes
  active : Option ActiveTx
  lastSequence : Option WalSequence
  pendingPublications : Nat

/-- A writer on an empty sink. -/
def WalWriter.new : WalWriter := ⟨[], none, none, 0⟩

/-- The descriptor `append_object` returns. -/
structure WalObjectDescriptor where
  offset : Nat
  length : Nat
  id : Digest
  logicalBytes : Nat

/-- The descriptor `finish_commit` returns. -/
structure WalCommitDescriptor where
  offset : Nat
  length : Nat
  commit : CommitBody

namespace WalWriter

variable {P : Type} (env : WalEnv P) (w : WalWriter)

/-- Append an encoded record; returns its offset. -/
def appendEncoded (encoded : Bytes) : Except WalError (Nat × WalWriter) := do
  let _ ← okOr (checkedAdd w.sink.length encoded.length) (.countOverflow "WAL append offset")
  pure (w.sink.length, { w with sink := w.sink ++ encoded })

def begin (sequence : WalSequence) (hints : Option WalBeginHints) : Except WalError WalWriter := do
  require (w.active = none) (.invalidTransaction "WAL transaction is already active")
  sequenceAdvances w.lastSequence sequence
  let body := encodeBeginBody env.scheme hints
  let logicalBytes ← logicalRecordLength body
  let encoded ← encodePhysicalRecord env .begin sequence 0 body
  let (_, w') ← w.appendEncoded encoded
  let tx : ActiveTx := ⟨sequence, env.scheme, 1, 0, 0, 1, logicalBytes,
    digestRecordWithFlags .begin 0 sequence 0 body, none, none, false⟩
  pure { w' with active := some tx }

def appendObjectBody (tx : ActiveTx) (id : Digest) (body : Bytes) :
    Except WalError (WalObjectDescriptor × WalWriter) := do
  let _ ← validateLogicalBody env body 0
  require (tx.sawRoot = false ∧ ∀ previous ∈ tx.previousObject, compare previous id = .lt)
    .orderingViolation
  let stored := encodeObjectStorageBody env body
  let objectCount ← checkedInc tx.objectCount "objects"
  let logicalRecord ← logicalRecordLength stored.2
  let logicalBytes ← okOr (checkedAdd tx.logicalBytes logicalRecord)
    (.countOverflow "logical bytes")
  let logicalCount ← checkedInc tx.logicalCount "logical records"
  let nextOrdinal ← checkedInc tx.nextOrdinal "ordinals"
  let encoded ← encodePhysicalRecordWithFlags env .object stored.1 tx.sequence tx.nextOrdinal
    stored.2
  let (offset, w') ← w.appendEncoded encoded
  pure (⟨offset, encoded.length, id, body.length⟩, { w' with active := some { tx with
    objectCount, logicalBytes, nextOrdinal, logicalCount
    previousObject := some id
    hasher := tx.hasher ++
      digestRecordWithFlags .object stored.1 tx.sequence tx.nextOrdinal stored.2 } })

/-- Append one identity-validated canonical object record. -/
def appendObject (id : Digest) (record : ObjectRecord Digest) :
    Except WalError (WalObjectDescriptor × WalWriter) := do
  let tx ← okOr w.active (.invalidTransaction "WAL object requires an active transaction")
  let body ← encodeObjectBody env tx.scheme id record
  w.appendObjectBody env tx id body

/-- Append an engine-prepared frame. Only its identity fields are checked here; its
producer has validated the rest. -/
def appendPreparedObject (id : Digest) (body : Bytes) :
    Except WalError (WalObjectDescriptor × WalWriter) := do
  let tx ← okOr w.active (.invalidTransaction "WAL object requires an active transaction")
  require (objectFrameDeclaresIdentity body tx.scheme id = true) (.objectIdentityMismatch id)
  w.appendObjectBody env tx id body

/-- Append one codec-validated canonical root transition. -/
def appendRoot (principal : P) (expected : Option (RootState Digest))
    (replacement : RootState Digest) : Except WalError WalWriter := do
  let tx ← okOr w.active (.invalidTransaction "WAL root requires an active transaction")
  let (principalBytes, body) ← encodeRootBody env tx.scheme principal expected replacement
  require (∀ previous ∈ tx.previousPrincipal, compare previous principalBytes = .lt)
    .orderingViolation
  let rootCount ← checkedInc tx.rootCount "roots"
  let logicalRecord ← logicalRecordLength body
  let logicalBytes ← okOr (checkedAdd tx.logicalBytes logicalRecord)
    (.countOverflow "logical bytes")
  let logicalCount ← checkedInc tx.logicalCount "logical records"
  let nextOrdinal ← checkedInc tx.nextOrdinal "ordinals"
  let encoded ← encodePhysicalRecord env .root tx.sequence tx.nextOrdinal body
  let (_, w') ← w.appendEncoded encoded
  pure { w' with active := some { tx with
    rootCount, logicalBytes, nextOrdinal, logicalCount
    previousPrincipal := some principalBytes
    sawRoot := true
    hasher := tx.hasher ++ digestRecordWithFlags .root 0 tx.sequence tx.nextOrdinal body } }

/-- What the Commit of an open transaction says. -/
def commitBody (tx : ActiveTx) : CommitBody :=
  ⟨tx.sequence, tx.logicalCount, tx.objectCount, tx.rootCount, tx.logicalBytes,
    env.digest tx.hasher⟩

/-- Append Commit and return its descriptor. -/
def finishCommit : Except WalError (WalCommitDescriptor × WalWriter) := do
  let tx ← okOr w.active (.invalidTransaction "WAL Commit requires an active transaction")
  require (tx.sawRoot = true) .zeroRoots
  let pendingPublications ← checkedInc w.pendingPublications "pending publications"
  let encoded ← encodePhysicalRecord env .commit tx.sequence tx.nextOrdinal
    (encodeCommitBody (commitBody env tx))
  let (offset, w') ← w.appendEncoded encoded
  pure (⟨offset, encoded.length, commitBody env tx⟩, { w' with
    lastSequence := some tx.sequence
    pendingPublications
    active := none })

end WalWriter

/-- One call of the writer. -/
inductive WalCall (P : Type)
  | begin (sequence : WalSequence) (hints : Option WalBeginHints)
  | object (id : Digest) (record : ObjectRecord Digest)
  | preparedObject (id : Digest) (body : Bytes)
  | root (principal : P) (expected : Option (RootState Digest)) (replacement : RootState Digest)
  | commit

/-- A writer and the events of the records it has appended. -/
structure WalLog where
  writer : WalWriter
  beginOffset : Nat
  events : List WalEvent

def WalLog.new : WalLog := ⟨.new, 0, []⟩

namespace WalLog

variable {P : Type} (env : WalEnv P)

/-- The log after a call that appended `event`. -/
def note (log : WalLog) (writer : WalWriter) (event : WalEvent) : WalLog :=
  { log with writer, events := log.events ++ [event] }

def perform (log : WalLog) : WalCall P → Except WalError WalLog
  | .begin sequence hints => do
    let w ← log.writer.begin env sequence hints
    pure { log.note w (.begin log.writer.sink.length sequence env.scheme hints) with
      beginOffset := log.writer.sink.length }
  | .object id record => do
    let (d, w) ← log.writer.appendObject env id record
    pure (log.note w (.object d.offset d.length d.id d.logicalBytes))
  | .preparedObject id body => do
    let (d, w) ← log.writer.appendPreparedObject env id body
    pure (log.note w (.object d.offset d.length d.id d.logicalBytes))
  | .root principal expected replacement => do
    let w ← log.writer.appendRoot env principal expected replacement
    pure (log.note w (.root log.writer.sink.length (w.sink.length - log.writer.sink.length)
      ⟨env.encodePrincipal principal, expected, replacement⟩))
  | .commit => do
    let (d, w) ← log.writer.finishCommit env
    pure (log.note w (.commit log.beginOffset d.offset d.length d.commit))

/-- Perform calls in order; every one of them has to be accepted. -/
def performAll (log : WalLog) : List (WalCall P) → Except WalError WalLog
  | [] => .ok log
  | call :: calls => do
    let next ← log.perform env call
    next.performAll calls

/-- The log of the records that lie wholly within the first `cut` bytes. -/
def within (cut : Nat) (log : WalLog) : List (WalCall P) → WalLog
  | [] => log
  | call :: calls =>
    match log.perform env call with
    | .error _ => log
    | .ok next => if next.writer.sink.length ≤ cut then next.within cut calls else log

end WalLog

end Astrid
