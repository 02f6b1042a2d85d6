import Astrid.Durable.Replay
import Astrid.Wal.Torn

/-!
# Publishing transactions through the WAL

The live engine in WAL mode (`engine.rs`, `group/wal.rs`, `wal/overlay.rs`): a
transaction is prepared against the current roots and objects, written to the WAL
as one WAL transaction, and kept in an overlay until a checkpoint folds the overlay
into the arena and the root journal. A group of concurrent commits is published
as its accepted transactions one after another.

Left out are staged objects, which the source merges into the first WAL transaction
of a group, and the identity proofs that spare a second identification: every
transaction brings its objects. The WAL takes the calls of the writer; its `publish`,
which syncs the file, and its `checkpoint`, which empties it, are not modelled.
-/

namespace Astrid

open Std

/-- One root transition of the overlay, with its journal frame. -/
structure PendingWalRoot (P : Type) where
  principal : P
  expected : Option (RootState Digest)
  replacement : RootState Digest
  journal : Bytes

structure LiveEngine (P : Type) [Key P] where
  arena : FMap Digest (ObjectRecord Digest)
  journal : List Bytes
  rootsByPrincipal : FMap P (RootState Digest)
  validated : FSet Digest
  pendingObjects : FMap Digest (Bytes × ObjectRecord Digest)
  pendingRoots : List (PendingWalRoot P)
  wal : WalLog

structure RootTransaction (P : Type) where
  principal : P
  expected : Option (RootState Digest)
  commit : Digest
  records : List (Digest × ObjectRecord Digest)

structure Prepared (P : Type) where
  principal : P
  expected : Option (RootState Digest)
  root : RootState Digest
  objects : List (Digest × Bytes)
  journal : Bytes
  validated : FSet Digest

namespace LiveEngine

variable {P : Type} [Key P] (env : WalEnv P)

/-! ## Opening -/

/-- The closures of the recovered roots, all of them complete. -/
def materializeRoots (source : ObjectSource Digest) : List (P × RootState Digest × Nat) →
    Except DurableError (FSet Digest)
  | [] => .ok ∅
  | (_, root, offset) :: rest => do
    let closure ← (closureWith source root.commit).mapError (.recoveryModel .roots offset)
    let record ← okOr (source.object root.commit)
      (.recoveryModel .roots offset (.missingObject root.commit))
    require (record.kind = .commit)
      (.recoveryModel .roots offset (.rootNotCommit root.commit record.kind))
    let validated ← materializeRoots source rest
    pure (closure ∪ validated)

/-- The engine over canonical files whose WAL has been retired. -/
def openStore (arena : FMap Digest (ObjectRecord Digest)) (journal : List Bytes) :
    Except DurableError (LiveEngine P) := do
  let history ← recoverRootHistory env journal
  let validated ← materializeRoots (.ofMap arena) history.toList
  pure ⟨arena, journal, history.map fun _ entry => entry.1, validated, ∅, [], .new⟩

/-! ## Preparing -/

/-- What closures are validated against: the transaction's own records, then the
overlay, then the arena. -/
def closureObjects (e : LiveEngine P) (incoming : FMap Digest (ObjectRecord Digest)) :
    ObjectSource Digest :=
  (ObjectSource.ofMap incoming).orElse
    ((ObjectSource.ofMap (e.pendingObjects.map fun _ object => object.2)).orElse (.ofMap e.arena))

def uniqueTransactionRecords : List (Digest × ObjectRecord Digest) →
    FMap Digest (ObjectRecord Digest) → Except DurableError (FMap Digest (ObjectRecord Digest))
  | [], unique => .ok unique
  | (id, record) :: rest, unique =>
    match unique[id]? with
    | some existing => do
      require (existing = record) (.model (.objectCollision id))
      uniqueTransactionRecords rest unique
    | none => uniqueTransactionRecords rest (unique.insert id record)

def verifyDeclaredIdentities : List (Digest × ObjectRecord Digest) → Except DurableError Unit
  | [] => .ok ()
  | (declared, record) :: rest => do
    require (env.identify record = declared)
      (.model (.objectIdentityMismatch declared (env.identify record)))
    verifyDeclaredIdentities rest

def ensurePayloadLimit (file : StoreFile) (payload : Bytes) : Except DurableError Unit :=
  require (payload.length ≤ env.maxFrameBytes)
    (.frameTooLarge file 0 payload.length env.maxFrameBytes)

/-- The frames of the reachable records that are stored nowhere yet, in identity order.
The source keeps the commit's frame apart and sorts it in again for the WAL. -/
def prepareObjects (e : LiveEngine P) (reachable : FSet Digest) :
    List (Digest × ObjectRecord Digest) → Except DurableError (List (Digest × Bytes))
  | [] => .ok []
  | (id, record) :: rest =>
    if id ∉ reachable then e.prepareObjects reachable rest
    else
      match e.pendingObjects[id]? with
      | some existing => do
        require (existing.2 = record) (.model (.objectCollision id))
        e.prepareObjects reachable rest
      | none =>
        match e.arena[id]? with
        | some existing => do
          require (existing = record) (.model (.objectCollision id))
          e.prepareObjects reachable rest
        | none => do
          let payload ← okOr (encodeObjectFrame env.scheme id record) .encodingOverflow
          ensurePayloadLimit env .arena payload
          let objects ← e.prepareObjects reachable rest
          pure ((id, payload) :: objects)

/-- The generation of a root that replaces `actual`. -/
def nextGeneration : Option (RootState Digest) → Option RootGeneration
  | some root => root.generation.checkedNext
  | none => some RootGeneration.initial

def prepare (e : LiveEngine P) (transaction : RootTransaction P) :
    Except DurableError (Prepared P) := do
  verifyDeclaredIdentities env transaction.records
  let actual := e.rootsByPrincipal[transaction.principal]?
  require (actual = transaction.expected) (.model (.rootConflict transaction.expected actual))
  let generation ← okOr (nextGeneration actual) (.model .arithmeticOverflow)
  let root : RootState Digest := ⟨generation, transaction.commit⟩
  let unique ← uniqueTransactionRecords transaction.records ∅
  let reachable ← validateIncrementalClosure (e.closureObjects unique) e.validated
    transaction.commit
  let objects ← e.prepareObjects env reachable unique.toList
  let journal ← okOr (encodeRootRecord env.scheme (env.encodePrincipal transaction.principal)
    transaction.expected root) .encodingOverflow
  ensurePayloadLimit env .roots journal
  pure ⟨transaction.principal, transaction.expected, root, objects, journal, reachable⟩

/-! ## Publishing -/

/-- The next valid sequence of a stream. -/
def nextSequence (w : WalWriter) : Except WalError WalSequence :=
  okOr (match w.lastSequence with
      | some sequence => (checkedAdd sequence.value 1).bind WalSequence.new
      | none => WalSequence.new 1)
    (.countOverflow "transaction sequence")

/-- The writer's calls for one transaction. -/
def transactionCalls (sequence : WalSequence) (prepared : Prepared P) : List (WalCall P) :=
  .begin sequence none :: (prepared.objects.map (fun object =>
    .preparedObject object.1 object.2) ++
    [.root prepared.principal prepared.expected prepared.root, .commit])

/-- Keep the objects of a published transaction in the overlay. -/
def installOverlay : List (Digest × Bytes) → FMap Digest (Bytes × ObjectRecord Digest) →
    Except DurableError (FMap Digest (Bytes × ObjectRecord Digest))
  | [], overlay => .ok overlay
  | (id, payload) :: rest, overlay => do
    let (decoded, record) ← (decodeObjectFrame payload env.scheme).mapError (.corrupt .wal 0)
    require (decoded = id ∧ env.identify record = id)
      (.corrupt .wal 0 "WAL overlay object identity mismatch")
    match overlay[id]? with
    | some existing => do
      require (existing.1 = payload) (.model (.objectCollision id))
      installOverlay rest overlay
    | none => installOverlay rest (overlay.insert id (payload, record))

/-- Publish one transaction: prepare it, write it to the WAL, install it. -/
def publish (e : LiveEngine P) (transaction : RootTransaction P) :
    Except DurableError (LiveEngine P) := do
  let prepared ← e.prepare env transaction
  let sequence ← (nextSequence e.wal.writer).mapError durableError
  let wal ← (e.wal.performAll env (transactionCalls sequence prepared)).mapError durableError
  let pendingObjects ← installOverlay env prepared.objects e.pendingObjects
  pure { e with
    rootsByPrincipal := e.rootsByPrincipal.insert prepared.principal prepared.root
    validated := e.validated ∪ prepared.validated
    pendingObjects
    pendingRoots := e.pendingRoots ++
      [⟨prepared.principal, prepared.expected, prepared.root, prepared.journal⟩]
    wal }

def publishAll (e : LiveEngine P) : List (RootTransaction P) → Except DurableError (LiveEngine P)
  | [] => .ok e
  | transaction :: rest => do
    let e' ← e.publish env transaction
    e'.publishAll rest

end LiveEngine

end Astrid
