import Astrid.Durable.Published

/-!
# Group commit

`process_commit_batch` of `engine/durable/group/mod.rs`, in the mode without a WAL: a
leader takes the transactions queued behind it and prepares each of them against the
engine as it was before the group, with only the roots of the earlier members laid over
it. The frames of the accepted members are appended together, those of the objects
first, then those of the commits; their root records follow in queue order.

The arena is what its index can load, as in `LiveEngine`. Without a WAL the overlay of
pending objects stays empty. A failure to append or flush poisons the engine until the
next recovery; such groups are not modelled, and neither are the physical
representations that are derived from the appended frames.
-/

namespace Astrid

open Std

/-- What the caller of an accepted transaction gets. -/
structure CommitOutcome where
  root : RootState Digest
  objectsInserted : Nat
  deriving DecidableEq

/-- The group as far as its members have been admitted. -/
structure CommitGroup (P : Type) [Key P] where
  pendingRoots : FMap P (RootState Digest)
  pendingFrames : FMap Digest Bytes
  accepted : List (Prepared P)

/-- No member yet. Without a WAL there are no pending frames to start from. -/
def CommitGroup.new {P : Type} [Key P] : CommitGroup P := ⟨∅, ∅, []⟩

section Frames

variable {P : Type} (prepared : Prepared P)

/-- The frames of a prepared transaction but for its commit. -/
def Prepared.objectFrames : List (Digest × Bytes) :=
  prepared.objects.filter fun frame => frame.1 ≠ prepared.root.commit

/-- The frame of the commit, unless it is stored already. -/
def Prepared.commitFrames : List (Digest × Bytes) :=
  prepared.objects.filter fun frame => frame.1 = prepared.root.commit

/-- Keep the frames no earlier member brings, and reserve them. -/
def retainFrames : List (Digest × Bytes) → FMap Digest Bytes →
    List (Digest × Bytes) × FMap Digest Bytes
  | [], pending => ([], pending)
  | (id, payload) :: rest, pending =>
    if id ∈ pending then retainFrames rest pending
    else
      let (kept, pending) := retainFrames rest (pending.insert id payload)
      ((id, payload) :: kept, pending)

def reserveGroupFrames (pending : FMap Digest Bytes) :
    Except DurableError (Prepared P × FMap Digest Bytes) :=
  match (prepared.objectFrames ++ prepared.commitFrames).find? fun frame =>
      (pending[frame.1]?).any (· ≠ frame.2) with
  | some frame => .error (.model (.objectCollision frame.1))
  | none => do
    let (objects, pending) := retainFrames prepared.objects pending
    require (objects.length < wordLimit) (.model .arithmeticOverflow)
    pure ({ prepared with objects }, pending)

end Frames

namespace LiveEngine

variable {P : Type} [Key P] (env : WalEnv P)

/-! ## Admission -/

/-- Prepare a member of a group. Only the roots of the earlier members are visible to it.
The count that `prepare` takes of its frames is taken again by `reserveGroupFrames`. -/
def prepareAmong (e : LiveEngine P) (pendingRoots : FMap P (RootState Digest))
    (transaction : RootTransaction P) : Except DurableError (Prepared P) :=
  { e with rootsByPrincipal := e.rootsByPrincipal ∪ pendingRoots }.prepare env transaction

def enlist (e : LiveEngine P) (group : CommitGroup P) (transaction : RootTransaction P) :
    Except DurableError (CommitOutcome × CommitGroup P) := do
  let prepared ← e.prepareAmong env group.pendingRoots transaction
  let (prepared, pendingFrames) ← reserveGroupFrames prepared group.pendingFrames
  pure (⟨prepared.root, prepared.objects.length⟩,
    ⟨group.pendingRoots.insert prepared.principal prepared.root, pendingFrames,
      group.accepted ++ [prepared]⟩)

/-- The members in queue order; one that fails does not touch the others. -/
def enlistAll (e : LiveEngine P) : CommitGroup P → List (RootTransaction P) →
    List (Except DurableError CommitOutcome) × CommitGroup P
  | group, [] => ([], group)
  | group, transaction :: rest =>
    match e.enlist env group transaction with
    | .error error =>
      let (outcomes, group) := e.enlistAll group rest
      (.error error :: outcomes, group)
    | .ok (outcome, group) =>
      let (outcomes, group) := e.enlistAll group rest
      (.ok outcome :: outcomes, group)

/-! ## Persistence -/

/-- What the index loads for an appended frame. -/
def loadFrame (frame : Digest × Bytes) : Option (Digest × ObjectRecord Digest) :=
  match decodeObjectFrame frame.2 env.scheme with
  | .ok (_, record) => some (frame.1, record)
  | .error _ => none

/-- The frames of a group, in the order in which they are appended to the arena. -/
def groupFrames (accepted : List (Prepared P)) : List (Digest × Bytes) :=
  accepted.flatMap Prepared.objectFrames ++ accepted.flatMap Prepared.commitFrames

section

variable (e : LiveEngine P)

def persistGroupLegacy (accepted : List (Prepared P)) : LiveEngine P :=
  { e with
    arena := e.arena.insertMany ((groupFrames accepted).filterMap (loadFrame env))
    journal := e.journal ++ accepted.map Prepared.journal }

def publishDurableRoot (prepared : Prepared P) : LiveEngine P :=
  { e with
    validated := e.validated ∪ prepared.validated
    rootsByPrincipal := e.rootsByPrincipal.insert prepared.principal prepared.root }

def publishGroup (accepted : List (Prepared P)) : LiveEngine P :=
  accepted.foldl publishDurableRoot (e.persistGroupLegacy env accepted)

/-- Process the queued transactions as one group. -/
def processCommitBatch (batch : List (RootTransaction P)) :
    List (Except DurableError CommitOutcome) × LiveEngine P :=
  let (outcomes, group) := e.enlistAll env .new batch
  (outcomes, e.publishGroup env group.accepted)

end

/-- Process them one at a time, each as a group of its own. -/
def commitEach (e : LiveEngine P) : List (RootTransaction P) →
    List (Except DurableError CommitOutcome) × LiveEngine P
  | [] => ([], e)
  | transaction :: rest =>
    let (outcome, e) := e.processCommitBatch env [transaction]
    let (outcomes, e) := e.commitEach rest
    (outcome ++ outcomes, e)

end LiveEngine

end Astrid
