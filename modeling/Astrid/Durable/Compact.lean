import Astrid.Durable.Arena

/-!
# Compaction of the arena

`compaction/mod.rs` writes a second arena with the live objects and a second root journal with one
snapshot of the roots, recovers both, and puts them in the place of the files in use. Live is what
owning references reach from the roots of the principals, from the roots that the caller retains,
and from the logical objects that the stored representations depend on.

Whatever bytes the store was recovered from, compaction then leaves exactly one frame for each live
object, with the bytes it had before, and the same roots; and it succeeds whenever the roots fit
into one journal frame (`compact_exact`).

Left out: the evidence that authorises a compaction, the checkpoint of the WAL that comes first,
after which nothing is pending, and the path on a hosted volume. The representation store is not
modelled either; the objects it depends on are the field `livenessRoots` of the state.
-/

namespace Astrid

open Std

/-! ## The recovered store -/

/-- The open files of a store, and what the engine keeps of them in memory. -/
structure DurableInner (P : Type) [Key P] where
  arena : Bytes
  roots : Bytes
  index : ArenaIndex
  rootsByPrincipal : Roots P
  validated : FSet Digest
  pendingWal : FMap Digest (Bytes × ObjectRecord Digest)
  /-- The logical objects that the stored representations depend on. -/
  livenessRoots : List Digest

section Store

variable {P : Type} [Key P] (env : WalEnv P) (hash : Bytes → Digest)

/-- The objects that an index can load. -/
def indexedObjects (arena : Bytes) (index : ArenaIndex) : ObjectSource Digest where
  ids := index.keys
  object id := (index[id]?).bind fun location =>
    (readIndexedObject env hash arena id location).toOption
  mem_ids := by
    intro id record h
    obtain ⟨location, hlocation, _⟩ := Option.bind_eq_some_iff.1 h
    exact ExtTreeMap.mem_keys.2 (mem_iff_getElem?.2 ⟨location, hlocation⟩)

/-- The roots in the journal, once their closures have been found in the arena, and the journal
after the scan. -/
def recoverRoots (arena : Bytes) (index : ArenaIndex) (journal : Bytes) :
    Except DurableError (Roots P × FSet Digest × Bytes) :=
  match recoverRootFile env hash journal with
  | (.error e, _) => .error e
  | (.ok history, journal) => do
    let validated ← LiveEngine.materializeRoots (indexedObjects env hash arena index) history.toList
    pure (rootsIn history, validated, journal)

/-- Recovery of the arena and the journal of a store without a WAL. -/
def recoverStore (protectedLen : Nat) (arena journal : Bytes) (livenessRoots : List Digest) :
    Except DurableError (DurableInner P) :=
  match recoverArena env hash protectedLen arena with
  | (.error e, _) => .error e
  | (.ok (index, _), arena) => do
    let (roots, validated, journal) ← recoverRoots env hash arena index journal
    pure ⟨arena, journal, index, roots, validated, ∅, livenessRoots⟩

namespace DurableInner

/-! ## Live objects -/

section

variable (inner : DurableInner P)

def readCompactionObject (id : Digest) : Except DurableError (ObjectRecord Digest) :=
  match inner.pendingWal[id]? with
  | some object => .ok object.2
  | none =>
    match inner.index[id]? with
    | some location => readIndexedObject env hash inner.arena id location
    | none => .error (.model (.missingObject id))

def closureObjects : ObjectSource Digest where
  ids := inner.pendingWal.keys ++ inner.index.keys
  object id := (inner.readCompactionObject env hash id).toOption
  mem_ids := by
    intro id record h
    refine List.mem_append.2 ?_
    unfold readCompactionObject at h
    split at h
    next object hobject => exact .inl (ExtTreeMap.mem_keys.2 (mem_iff_getElem?.2 ⟨_, hobject⟩))
    next =>
      split at h
      next location hlocation =>
        exact .inr (ExtTreeMap.mem_keys.2 (mem_iff_getElem?.2 ⟨_, hlocation⟩))
      next => cases h

/-- The closure of a root. An object that cannot be loaded fails with the error of the load. -/
def materializeClosure (root : Digest) : Except DurableError (FSet Digest) :=
  (closureWith (inner.closureObjects env hash) root).mapError fun
    | .missingObject id =>
      match inner.readCompactionObject env hash id with
      | .error e => e
      | .ok _ => .model (.missingObject id)
    | e => .model e

end

def extendLive (inner : DurableInner P) : List Digest → FSet Digest →
    Except DurableError (FSet Digest)
  | [], live => .ok live
  | root :: rest, live => do
    let closure ← inner.materializeClosure env hash root
    inner.extendLive rest (live ∪ closure)

section

variable (inner : DurableInner P) (retained : List Digest)

/-- What a compaction starts from. -/
def anchors : List Digest :=
  inner.rootsByPrincipal.toList.map (fun entry => entry.2.commit) ++
    (retained ++ inner.livenessRoots)

def liveObjects : Except DurableError (FSet Digest) :=
  inner.extendLive env hash (inner.anchors retained) ∅

def objectUniverse : FSet Digest :=
  .ofList (inner.index.keys ++ inner.pendingWal.keys) compare

/-- The condemned and the live objects. -/
def captureFacts : Except DurableError (List Digest × FSet Digest) := do
  let live ← inner.liveObjects env hash retained
  pure (inner.objectUniverse.toList.filter fun id => id ∉ live, live)

end

/-! ## The replacement -/

def writeLiveObjects (inner : DurableInner P) : List Digest → Bytes × ArenaIndex →
    Except DurableError (Bytes × ArenaIndex)
  | [], written => .ok written
  | id :: rest, written => do
    let record ← inner.readCompactionObject env hash id
    let payload ← okOr (encodeObjectFrame env.scheme id record) .encodingOverflow
    LiveEngine.ensurePayloadLimit env .arena payload
    let (location, arena) ← appendFrame (arenaFormat hash env.maxFrameBytes) written.1 payload
    inner.writeLiveObjects rest (arena, written.2.insert id location)

variable (inner : DurableInner P)

/-- Recover the replacement files as they will be recovered from now on. -/
def validateReplacement (arena journal : Bytes) (expectedIndex : ArenaIndex) :
    Except DurableError (DurableInner P) := do
  let replacement ← recoverStore env hash 0 arena journal inner.livenessRoots
  require (replacement.index = expectedIndex)
    (.invalidCompactionEvidence "replacement arena index changed during verification")
  pure replacement

def writeReplacementFiles (live : FSet Digest) : Except DurableError (DurableInner P) := do
  let (arena, index) ← inner.writeLiveObjects env hash live.toList ([], ∅)
  let journal ← writeRootSnapshot env hash inner.rootsByPrincipal
  inner.validateReplacement env hash arena journal index

def prepareCompaction (condemned : List Digest) (live : FSet Digest) :
    Except DurableError (DurableInner P) := do
  let replacement ← inner.writeReplacementFiles env hash live
  let objectsReclaimed ← okOr (checkedSub inner.objectUniverse.size replacement.index.size)
    (.invalidCompactionEvidence "replacement contains more objects than the source arena")
  require (objectsReclaimed = condemned.length)
    (.invalidCompactionEvidence "replacement does not execute the complete condemned set")
  pure replacement

/-- The condemned objects, and the store over the replacement files. -/
def compact (retained : List Digest) : Except DurableError (List Digest × DurableInner P) := do
  let (condemned, live) ← inner.captureFacts env hash retained
  let replacement ← inner.prepareCompaction env hash condemned live
  -- The files are promoted and opened again.
  let installed ← recoverStore env hash 0 replacement.arena replacement.roots inner.livenessRoots
  pure (condemned, installed)

end DurableInner

end Store

end Astrid
