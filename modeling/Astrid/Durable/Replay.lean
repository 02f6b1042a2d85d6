import Astrid.Durable.Roots
import Astrid.Model.World
import Astrid.Wal.ScanRun
import Astrid.Wal.Writer

/-!
# Replaying the transaction WAL

`engine/durable/wal/replay.rs`: recovery scans the WAL and folds every committed
transaction into the canonical files, the object arena and the root journal. The
arena is modelled by what its index can load: the record of each identity.
Physical representations, which are rebuilt from the same objects, are not
modelled; neither is what a failed recovery has already appended.
-/

namespace Astrid

open Std

/-! ## Closures -/

/-- Validate the owning closure of a commit, down to what is already validated. -/
def validateIncrementalClosure (source : ObjectSource Digest) (validated : FSet Digest)
    (root : Digest) : Except DurableError (FSet Digest) := do
  let record ← okOr (source.object root) (.model (.missingObject root))
  require (record.kind = .commit) (.model (.rootNotCommit root record.kind))
  match source.graph.walk (fun id => id ∈ validated) root with
  | .ok walk => pure walk.entered
  | .error (.missing id) => .error (.model (.missingObject id))
  | .error (.cycle id) => .error (.model (.objectCycle id))

/-! ## Objects -/

section Replay

variable {P : Type} [Key P] (env : WalEnv P)

def corruptWal (detail : String) : DurableError := .corrupt .wal 0 detail

/-- Read an object again through the descriptor the scanner reported. -/
def readObjectRecord (wal : Bytes) (d : WalObjectDescriptor) :
    Except DurableError (Digest × ObjectRecord Digest × Bytes) := do
  require (d.offset + physicalHeaderLen ≤ wal.length) (.io "read ASTWAL2 object replay header")
  let physical ← okOr (decodePhysicalHeader (slice wal d.offset physicalHeaderLen))
    (.corrupt .wal d.offset "WAL physical header is invalid")
  let length ← okOr (checkedAdd physicalHeaderLen physical.payloadLen) .encodingOverflow
  require (length = d.length ∧ physical.payloadLen ≤ walPhysicalLimit env)
    (corruptWal "WAL object descriptor length mismatch")
  require (d.offset + length ≤ wal.length) (.io "read ASTWAL2 object replay payload")
  let payload := slice wal (d.offset + physicalHeaderLen) physical.payloadLen
  require (checksumValid env physical payload = true)
    (corruptWal "WAL object replay checksum mismatch")
  let record ← (decodeRecordHeader payload d.offset).mapError durableError
  (validateRecordVersion physical record d.offset).mapError durableError
  require (record.kind = .object) (corruptWal "WAL object descriptor points to another record")
  let _ ← (validateLogicalBody env (recordBody payload) d.offset).mapError durableError
  let decoded ← (decodeObjectStorageBody env (recordBody payload) record.flags d.offset).mapError
    durableError
  let (id, _) ← (decodeObjectBody env decoded env.scheme d.offset).mapError durableError
  let (_, object) ← (decodeObjectFrame decoded env.scheme).mapError (.corrupt .wal d.offset)
  let canonical ← okOr (encodeObjectFrame env.scheme id object) .encodingOverflow
  require (canonical = decoded) (corruptWal "WAL object replay is not canonical")
  pure (id, object, canonical)

/-- The objects of a transaction. -/
def readTransactionObjects (wal : Bytes) : List WalObjectDescriptor →
    FMap Digest (ObjectRecord Digest) → Except DurableError (FMap Digest (ObjectRecord Digest))
  | [], incoming => .ok incoming
  | d :: ds, incoming => do
    let (id, record, _) ← readObjectRecord env wal d
    require (id = d.id) (corruptWal "WAL object descriptor identity mismatch")
    require (incoming[id]? = none) (.model (.objectCollision id))
    readTransactionObjects wal ds (incoming.insert id record)

/-- An incoming object that differs from the arena's object of the same identity. -/
def collision (arena incoming : FMap Digest (ObjectRecord Digest)) : Option Digest :=
  (incoming.toList.find? fun entry =>
    (arena[entry.1]?).any fun existing => existing ≠ entry.2).map Prod.fst

/-! ## Roots -/

structure WalRootDescriptor where
  offset : Nat
  length : Nat
  transition : WalRootTransition

/-- Check the roots of a transaction: the compare-and-swap, or its outcome, and the
closure. Returns the transitions to publish and what is validated by then. -/
def checkRoots (history : RootHistory P) (source : ObjectSource Digest) :
    List WalRootDescriptor → FSet Digest →
    Except DurableError (List (P × WalRootTransition × Nat) × FSet Digest)
  | [], known => .ok ([], known)
  | d :: ds, known => do
    let principal ← decodePrincipal env d.transition.principal d.offset
    let actual := (history[principal]?).map Prod.fst
    require (actual = d.transition.expected ∨ actual = some d.transition.replacement)
      (.model (.rootConflict d.transition.expected actual))
    let reachable ← validateIncrementalClosure source known d.transition.replacement.commit
    let (publish, known) ← checkRoots history source ds (known ∪ reachable)
    pure ((principal, d.transition, d.offset) :: publish, known)

/-- Publish checked transitions; those already in the journal are skipped. -/
def publishRoots : List (P × WalRootTransition × Nat) → List Bytes → RootHistory P →
    Except DurableError (List Bytes × RootHistory P)
  | [], journals, history => .ok (journals, history)
  | (principal, transition, offset) :: rest, journals, history =>
    if (history[principal]?).map Prod.fst = some transition.replacement then
      publishRoots rest journals history
    else do
      require ((history[principal]?).map Prod.fst = transition.expected)
        (.model (.rootConflict transition.expected ((history[principal]?).map Prod.fst)))
      let journal ← okOr (encodeRootRecord env.scheme transition.principal transition.expected
        transition.replacement) .encodingOverflow
      publishRoots rest (journals ++ [journal])
        (history.insert principal (transition.replacement, offset))

/-! ## Transactions -/

/-- The canonical files, and what recovery knows of them. -/
structure CanonicalStore (P : Type) [Key P] where
  arena : FMap Digest (ObjectRecord Digest)
  journal : List Bytes
  validated : FSet Digest
  history : RootHistory P

structure PendingBuilding where
  objects : List WalObjectDescriptor
  roots : List WalRootDescriptor

variable (wal : Bytes)

/-- Fold one committed transaction into the canonical files. -/
def replayTransaction (pending : PendingBuilding) (store : CanonicalStore P) :
    Except DurableError (CanonicalStore P) := do
  let incoming ← readTransactionObjects env wal pending.objects ∅
  match collision store.arena incoming with
  | some id => .error (.model (.objectCollision id))
  | none =>
    -- Objects are folded before any root is checked.
    let arena := incoming ∪ store.arena
    let (publish, known) ← checkRoots env store.history
      ((ObjectSource.ofMap incoming).orElse (.ofMap arena)) pending.roots store.validated
    let (journals, history) ← publishRoots env publish [] store.history
    pure ⟨arena, store.journal ++ journals, known, history⟩

/-- One scanner event; a transaction is replayed when its Commit is seen. -/
def replayEvent (state : Option PendingBuilding × CanonicalStore P) :
    WalEvent → Except DurableError (Option PendingBuilding × CanonicalStore P)
  | .begin .. => do
    require (state.1.isNone = true) (corruptWal "nested WAL transaction")
    pure (some ⟨[], []⟩, state.2)
  | .object offset length id logicalBytes => do
    let current ← okOr state.1 (corruptWal "WAL object appeared before Begin")
    pure (some { current with
      objects := current.objects ++ [⟨offset, length, id, logicalBytes⟩] }, state.2)
  | .root offset length transition => do
    let current ← okOr state.1 (corruptWal "WAL root appeared before Begin")
    pure (some { current with
      roots := current.roots ++ [⟨offset, length, transition⟩] }, state.2)
  | .commit .. => do
    let current ← okOr state.1 (corruptWal "WAL Commit appeared before Begin")
    let store ← replayTransaction env wal current state.2
    pure (none, store)
  | .tail .. => .ok (none, state.2)

/-! ## Recovery -/

structure Recovery (P : Type) [Key P] where
  scanner : ScanState
  pending : Option PendingBuilding
  store : CanonicalStore P

/-- One turn of the loop of `recover_wal`: the next event, replayed. -/
def recoverTurn (r : Recovery P) :
    Turn (Recovery P) (Except DurableError (CanonicalStore P × ScanState)) :=
  match nextEvent env wal r.scanner with
  | .error e => .stop (.error (durableError e))
  | .ok (none, scanner) =>
    if r.pending.isSome then
      .stop (.error (corruptWal "WAL scanner ended with an active transaction"))
    else .stop (.ok (r.store, scanner))
  | .ok (some (.tail ..), scanner) => .stop (.ok (r.store, scanner))
  | .ok (some event, scanner) =>
    match replayEvent env wal (r.pending, r.store) event with
    | .error e => .stop (.error e)
    | .ok (pending, store) => .again ⟨scanner, pending, store⟩

def recoverLoop :
    Loop (Recovery P) (Except DurableError (CanonicalStore P × ScanState)) where
  turn := recoverTurn env wal
  size r := r.scanner.left wal
  shrinks := by
    intro r r' h
    unfold recoverTurn at h
    split at h
    next => cases h
    next => split at h <;> cases h
    next => cases h
    next event scanner hnext =>
      split at h
      · cases h
      cases h
      exact nextEvent_shrinks hnext

/-- Replay a WAL; returns the store and the state the writer resumes from. -/
def recoverWal (store : CanonicalStore P) : Except DurableError (CanonicalStore P × ScanState) :=
  (recoverLoop env wal).run ⟨.start, none, store⟩

/-- `replay_transaction_wal`: recover the roots from the journal, then replay the WAL. -/
def replayTransactionWal (arena : FMap Digest (ObjectRecord Digest)) (journal : List Bytes) :
    Except DurableError (CanonicalStore P × ScanState) := do
  let history ← recoverRootHistory env journal
  recoverWal env wal ⟨arena, journal, ∅, history⟩

end Replay

end Astrid
