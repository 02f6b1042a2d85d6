import Astrid.Lib.Closure
import Astrid.Model.Object

/-!
# The reference world

The in-memory executable world of `storage_model/world.rs`: immutable objects,
blob representations, principal roots, pins and placement epochs. Every
operation takes the world and returns its result together with the world it
leaves behind, in the error branches too, so that "a failing call changes
nothing" is a statement about the operations and not about their types.

The source stages an import as a map from object to the index of its record;
`classifyImport` stages the record itself.
-/

namespace Astrid

open Std

/-! ## Object closures -/

/-- A finite source of objects: the lookup, and the identifiers it can answer. -/
structure ObjectSource (Id : Type) where
  ids : List Id
  object : Id → Option (ObjectRecord Id)
  mem_ids : ∀ {id record}, object id = some record → id ∈ ids

section Closure

variable {Id : Type} [Key Id]

/-- The owning edges of a lookup. -/
def owned (object : Id → Option (ObjectRecord Id)) (id : Id) : Option (List Id) :=
  (object id).map ObjectRecord.owningReferences

def ObjectSource.graph (source : ObjectSource Id) : FiniteGraph Id where
  nodes := source.ids
  succ := owned source.object
  mem_nodes := by
    intro id s h
    obtain ⟨record, hrecord, _⟩ := Option.map_eq_some_iff.1 h
    exact source.mem_ids hrecord

def ObjectSource.ofMap (objects : FMap Id (ObjectRecord Id)) : ObjectSource Id where
  ids := objects.keys
  object id := objects[id]?
  mem_ids := by
    intro id record h
    rw [ExtTreeMap.mem_keys, ExtTreeMap.mem_iff_isSome_getElem?, h]
    rfl

/-- Look in `first`, then in `second`. -/
def ObjectSource.orElse (first second : ObjectSource Id) : ObjectSource Id where
  ids := first.ids ++ second.ids
  object id := (first.object id).or (second.object id)
  mem_ids := by
    intro id record h
    rcases Option.or_eq_some_iff.1 h with h | ⟨_, h⟩
    · exact List.mem_append_left _ (first.mem_ids h)
    · exact List.mem_append_right _ (second.mem_ids h)

/-- The complete, cycle-free closure rooted at `root`. -/
def closureWith (source : ObjectSource Id) (root : Id) : Except (ModelError Id) (FSet Id) :=
  match source.graph.walk (fun _ => false) root with
  | .ok walk => .ok walk.finished
  | .error (.missing id) => .error (.missingObject id)
  | .error (.cycle id) => .error (.objectCycle id)

omit [Key Id] in
theorem cut_none (succ : Id → Option (List Id)) : cut (fun _ => false) succ = succ :=
  funext fun _ => cut_unknown rfl

theorem closureWith_ok {source : ObjectSource Id} {root : Id} {ids : FSet Id}
    (h : closureWith source root = .ok ids) :
    Grounded (owned source.object) root ∧
      ∀ id, id ∈ ids ↔ Reaches (owned source.object) root id := by
  unfold closureWith at h
  split at h
  next walk hwalk =>
    cases h
    obtain ⟨hg, _, hfinished⟩ := FiniteGraph.walk_sound hwalk
    rw [cut_none] at hg hfinished
    exact ⟨hg, fun id => (hfinished id).trans (and_iff_left rfl)⟩
  next => cases h
  next => cases h

theorem closureWith_of_grounded {source : ObjectSource Id} {root : Id}
    (h : Grounded (owned source.object) root) : ∃ ids, closureWith source root = .ok ids := by
  have hcut : Grounded (cut (fun _ => false) source.graph.succ) root := by
    exact h
  obtain ⟨walk, hwalk⟩ := FiniteGraph.walk_complete hcut
  exact ⟨walk.finished, by simp only [closureWith, hwalk]⟩

theorem closureWith_cases (source : ObjectSource Id) (root : Id) :
    (∃ ids, closureWith source root = .ok ids) ∨
    (∃ id, closureWith source root = .error (.missingObject id) ∧
      Reaches (owned source.object) root id ∧ source.object id = none) ∨
    ∃ id, closureWith source root = .error (.objectCycle id) ∧
      Reaches (owned source.object) root id ∧
        Relation.TransGen (Edge (owned source.object)) id id := by
  unfold closureWith
  cases hwalk : source.graph.walk (fun _ => false) root with
  | ok => exact .inl ⟨_, rfl⟩
  | error e =>
    have hreal := FiniteGraph.walk_error hwalk
    cases e with
    | missing id => exact .inr (.inl ⟨id, rfl, hreal.1, Option.map_eq_none_iff.1 hreal.2⟩)
    | cycle id => exact .inr (.inr ⟨id, rfl, hreal⟩)

end Closure

/-! ## The world -/

structure World (Id P : Type) [Key Id] [Key P] where
  objects : FMap Id (ObjectRecord Id)
  representations : FMap Id Id
  roots : FMap P (RootState Id)
  pins : FMap Nat Id
  placementEpochs : FSet Nat
  placements : FMap (Nat × Id) (FSet Nat)
  activePlacementEpoch : Option Nat

inductive InsertOutcome
  | inserted
  | alreadyPresent
  deriving DecidableEq, Repr

inductive RepresentationOutcome
  | registered
  | alreadyPresent
  deriving DecidableEq, Repr

/-- Result of a garbage-collection pass. -/
structure GcReport where
  objectsRemoved : Nat
  bytesRemoved : Nat
  deriving DecidableEq, Repr

/-- Non-zero durability requirement. -/
structure ReplicaCount where
  value : Nat
  pos : 0 < value
  deriving DecidableEq, Repr

namespace World

variable {Id P : Type} [Key Id] [Key P]

def new : World Id P := ⟨∅, ∅, ∅, ∅, ∅, ∅, none⟩

section

variable (w : World Id P)

def source : ObjectSource Id := .ofMap w.objects

def closure (root : Id) : Except (ModelError Id) (FSet Id) :=
  closureWith w.source root

def insertObject (id : Id) (record : ObjectRecord Id) :
    Except (ModelError Id) InsertOutcome × World Id P :=
  match w.objects[id]? with
  | some existing =>
    if existing = record then (.ok .alreadyPresent, w) else (.error (.objectCollision id), w)
  | none => (.ok .inserted, { w with objects := w.objects.insert id record })

def registerRepresentation (object blob : Id) :
    Except (ModelError Id) RepresentationOutcome × World Id P :=
  if object ∉ w.objects then (.error (.missingObject object), w)
  else
    match w.representations[blob]? with
    | some existing =>
      if existing = object then (.ok .alreadyPresent, w) else (.error (.blobCollision blob), w)
    | none =>
      (.ok .registered, { w with representations := w.representations.insert blob object })

/-- The generation a new root gets. -/
def nextGeneration (actual : Option (RootState Id)) : Except (ModelError Id) RootGeneration :=
  match actual with
  | some root =>
    match root.generation.checkedNext with
    | some generation => .ok generation
    | none => .error .arithmeticOverflow
  | none => .ok RootGeneration.initial

def compareAndSwapRoot (principal : P) (expected : Option (RootState Id)) (commit : Id) :
    Except (ModelError Id) (RootState Id) × World Id P :=
  if w.roots[principal]? ≠ expected then
    (.error (.rootConflict expected w.roots[principal]?), w)
  else
    match w.objects[commit]? with
    | none => (.error (.missingObject commit), w)
    | some record =>
      if record.kind ≠ .commit then (.error (.rootNotCommit commit record.kind), w)
      else
        match w.closure commit with
        | .error e => (.error e, w)
        | .ok _ =>
          match nextGeneration w.roots[principal]? with
          | .error e => (.error e, w)
          | .ok generation =>
            (.ok ⟨generation, commit⟩,
              { w with roots := w.roots.insert principal ⟨generation, commit⟩ })

def compareAndRemoveRoot (principal : P) (expected : RootState Id) :
    Except (ModelError Id) (RootState Id) × World Id P :=
  if w.roots[principal]? ≠ some expected then
    (.error (.rootConflict (some expected) w.roots[principal]?), w)
  else (.ok expected, { w with roots := w.roots.erase principal })

end

/-! ### Imports -/

/-- Sort the records of an import into those already present and those to stage. -/
def stageImport (w : World Id P) :
    List (Id × ObjectRecord Id) → FMap Id (ObjectRecord Id) →
      Except (ModelError Id) (FMap Id (ObjectRecord Id))
  | [], staged => .ok staged
  | (id, record) :: rest, staged =>
    match (staged[id]?).or w.objects[id]? with
    | some existing =>
      if existing = record then w.stageImport rest staged else .error (.objectCollision id)
    | none => w.stageImport rest (staged.insert id record)

section

variable (w : World Id P)

def classifyImport (records : List (Id × ObjectRecord Id)) (root : Id) :
    Except (ModelError Id) (FMap Id (ObjectRecord Id)) :=
  match w.stageImport records ∅ with
  | .error e => .error e
  | .ok staged =>
    match closureWith ((ObjectSource.ofMap staged).orElse w.source) root with
    | .error e => .error e
    | .ok closure =>
      match (records.map Prod.fst).find? fun id => id ∉ closure with
      | some extraneous => .error (.extraneousImportObject extraneous)
      | none => .ok staged

def importClosure (records : List (Id × ObjectRecord Id)) (root : Id) :
    Except (ModelError Id) Nat × World Id P :=
  match w.classifyImport records root with
  | .error e => (.error e, w)
  | .ok staged =>
    if staged.size < wordLimit then
      (.ok staged.size, { w with objects := w.objects ∪ staged })
    else (.error .arithmeticOverflow, w)

/-- The root record of an owned transaction: the incoming copies must agree. -/
def incomingRoot (root : Id) :
    List (Id × ObjectRecord Id) → Option (ObjectRecord Id) →
      Except (ModelError Id) (Option (ObjectRecord Id))
  | [], incoming => .ok incoming
  | (id, record) :: rest, incoming =>
    if id ≠ root then incomingRoot root rest incoming
    else if incoming.any (· ≠ record) then .error (.objectCollision root)
    else incomingRoot root rest (some record)

def validateTransactionRoot (records : List (Id × ObjectRecord Id)) (root : Id) :
    Except (ModelError Id) Unit :=
  match incomingRoot root records none with
  | .error e => .error e
  | .ok incoming =>
    match incoming.or w.objects[root]? with
    | none => .error (.missingObject root)
    | some record =>
      if record.kind ≠ .commit then .error (.rootNotCommit root record.kind) else .ok ()

/-- The records that were staged, each taken once, in the order they came. -/
def takeStaged : List (Id × ObjectRecord Id) → FMap Id (ObjectRecord Id) →
    List (Id × ObjectRecord Id)
  | [], _ => []
  | (id, record) :: rest, staged =>
    if id ∈ staged then (id, record) :: takeStaged rest (staged.erase id)
    else takeStaged rest staged

def commitClosureOwned (principal : P) (expected : Option (RootState Id)) (commit : Id)
    (records : List (Id × ObjectRecord Id)) :
    Except (ModelError Id) (RootState Id × Nat) × World Id P :=
  if w.roots[principal]? ≠ expected then
    (.error (.rootConflict expected w.roots[principal]?), w)
  else
    match nextGeneration w.roots[principal]? with
    | .error e => (.error e, w)
    | .ok generation =>
      match w.validateTransactionRoot records commit with
      | .error e => (.error e, w)
      | .ok () =>
        match w.classifyImport records commit with
        | .error e => (.error e, w)
        | .ok staged =>
          if staged.size < wordLimit then
            (.ok (⟨generation, commit⟩, staged.size), { w with
              objects := w.objects.insertMany (takeStaged records staged)
              roots := w.roots.insert principal ⟨generation, commit⟩ })
          else (.error .arithmeticOverflow, w)

end

/-! ### Pins, liveness and collection -/

def pin (w : World Id P) (pin : Nat) (root : Id) : Except (ModelError Id) Unit × World Id P :=
  match w.closure root with
  | .error e => (.error e, w)
  | .ok _ =>
    if pin ∈ w.pins then (.error (.pinAlreadyExists pin), w)
    else (.ok (), { w with pins := w.pins.insert pin root })

def unpin (w : World Id P) (pin : Nat) : Except (ModelError Id) Id × World Id P :=
  let removed := w.pins[pin]?
  let w := { w with pins := w.pins.erase pin }
  match removed with
  | some root => (.ok root, w)
  | none => (.error (.pinMissing pin), w)

/-- The commits of all roots, then the pinned objects. -/
def anchors (w : World Id P) : List Id :=
  w.roots.toList.map (fun entry => entry.2.commit) ++ w.pins.toList.map Prod.snd

def extendLive (w : World Id P) : List Id → FSet Id → Except (ModelError Id) (FSet Id)
  | [], live => .ok live
  | root :: rest, live =>
    match w.closure root with
    | .error e => .error e
    | .ok ids => w.extendLive rest (live ∪ ids)

def liveObjects (w : World Id P) : Except (ModelError Id) (FSet Id) :=
  w.extendLive w.anchors ∅

/-- Count what will be removed; nothing is removed yet. -/
def gcReport : List (Id × ObjectRecord Id) → GcReport → Except (ModelError Id) GcReport
  | [], report => .ok report
  | (_, record) :: rest, report =>
    match record.retainedBytes, checkedAdd report.objectsRemoved 1 with
    | some bytes, some objectsRemoved =>
      match checkedAdd report.bytesRemoved bytes with
      | some bytesRemoved => gcReport rest ⟨objectsRemoved, bytesRemoved⟩
      | none => .error .arithmeticOverflow
    | _, _ => .error .arithmeticOverflow

/-- Drop the objects outside `live`, then what named them. -/
def sweep (w : World Id P) (live : FSet Id) : World Id P :=
  let objects := w.objects.filter fun id _ => id ∈ live
  let representations := w.representations.filter fun _ object => object ∈ objects
  let placements := w.placements.filter fun entry _ => entry.2 ∈ representations
  { w with objects, representations, placements }

def collectGarbage (w : World Id P) : Except (ModelError Id) GcReport × World Id P :=
  match w.liveObjects with
  | .error e => (.error e, w)
  | .ok live =>
    match gcReport (w.objects.filter fun id _ => id ∉ live).toList ⟨0, 0⟩ with
    | .error e => (.error e, w)
    | .ok report => (.ok report, w.sweep live)

/-! ### Placement epochs -/

def stagePlan (w : World Id P) :
    List (Id × List Nat) → FMap Id (FSet Nat) → Except (ModelError Id) (FMap Id (FSet Nat))
  | [], staged => .ok staged
  | (blob, nodes) :: rest, staged =>
    if blob ∉ w.representations then .error (.unregisteredBlob blob)
    else
      let entry := (staged[blob]?.getD ∅).insertMany nodes
      w.stagePlan rest (staged.insert blob entry)

/-- The registered blob with the most nodes; the first one wins a tie. -/
def bestBlob (staged : FMap Id (FSet Nat)) :
    List Id → Option (Id × Nat) → Except (ModelError Id) (Option (Id × Nat))
  | [], best => .ok best
  | blob :: rest, best =>
    match staged[blob]? with
    | none => bestBlob staged rest best
    | some nodes =>
      if nodes.size < 2 ^ 32 then
        if best.all fun entry => nodes.size > entry.2 then
          bestBlob staged rest (some (blob, nodes.size))
        else bestBlob staged rest best
      else .error .arithmeticOverflow

def checkPlacement (w : World Id P) (epoch : Nat) (staged : FMap Id (FSet Nat))
    (minimumReplicas : ReplicaCount) (object : Id) : Except (ModelError Id) Unit :=
  let registered :=
    (w.representations.toList.filter fun entry => entry.2 = object).map Prod.fst
  if registered = [] then .error (.missingRepresentation object)
  else
    match bestBlob staged registered none with
    | .error e => .error e
    | .ok none => .error (.missingPlacement epoch object)
    | .ok (some (blob, actual)) =>
      if actual < minimumReplicas.value then
        .error (.insufficientReplicas epoch blob minimumReplicas.value actual)
      else .ok ()

def checkPlacements (w : World Id P) (epoch : Nat) (staged : FMap Id (FSet Nat))
    (minimumReplicas : ReplicaCount) : List Id → Except (ModelError Id) Unit
  | [] => .ok ()
  | object :: rest =>
    match w.checkPlacement epoch staged minimumReplicas object with
    | .error e => .error e
    | .ok () => w.checkPlacements epoch staged minimumReplicas rest

def publishPlacementEpoch (w : World Id P) (epoch : Nat) (plan : List (Id × List Nat))
    (minimumReplicas : ReplicaCount) : Except (ModelError Id) Unit × World Id P :=
  if epoch ∈ w.placementEpochs then (.error (.placementEpochAlreadyExists epoch), w)
  else
    match w.activePlacementEpoch.filter fun active => epoch ≤ active with
    | some active => (.error (.stalePlacementEpoch epoch active), w)
    | none =>
      match w.liveObjects with
      | .error e => (.error e, w)
      | .ok live =>
        match w.stagePlan plan ∅ with
        | .error e => (.error e, w)
        | .ok staged =>
          match w.checkPlacements epoch staged minimumReplicas live.toList with
          | .error e => (.error e, w)
          | .ok () =>
            (.ok (), { w with
              placements := w.placements.insertMany
                (staged.toList.map fun entry => ((epoch, entry.1), entry.2))
              placementEpochs := w.placementEpochs.insert epoch
              activePlacementEpoch := some epoch })

def retirePlacementEpoch (w : World Id P) (epoch : Nat) :
    Except (ModelError Id) Unit × World Id P :=
  if w.activePlacementEpoch = some epoch then (.error (.activePlacementEpoch epoch), w)
  else if epoch ∉ w.placementEpochs then (.error (.placementEpochMissing epoch), w)
  else
    (.ok (), { w with
      placements := w.placements.filter fun entry _ => entry.1 ≠ epoch
      placementEpochs := w.placementEpochs.erase epoch })

end World

end Astrid
