import Astrid.Lib.Bytes

/-!
# Immutable typed objects

The object model of `storage_model/mod.rs`. An `ObjectRecord` is an immutable
typed object with labelled references to others; its labels are strictly
increasing, which the structure carries as a field, so `ObjectRecord.new` is the
only way in and an unordered record cannot be built.

`ObjectId` and `BlobId` are 32-byte digests. The model leaves the digest type
open (`Id`): identity is an integration boundary of the source, and statements
that assume it injective would otherwise speak about no identity at all.
-/

namespace Astrid

/-- Reachability meaning of a reference; only `owns` contributes to closures. -/
inductive ReferenceKind
  | owns
  | evidence
  | lineage
  | derived
  deriving DecidableEq, Repr

def ReferenceKind.code : ReferenceKind → UInt8
  | .owns => 0
  | .evidence => 1
  | .lineage => 2
  | .derived => 3

def ReferenceKind.fromCode : UInt8 → Option ReferenceKind
  | 0 => some .owns
  | 1 => some .evidence
  | 2 => some .lineage
  | 3 => some .derived
  | _ => none

/-- Accounting class of an object record. -/
inductive ObjectClass
  | data
  | metadata
  deriving DecidableEq, Repr

def ObjectClass.code : ObjectClass → UInt8
  | .data => 0
  | .metadata => 1

def ObjectClass.fromCode : UInt8 → Option ObjectClass
  | 0 => some .data
  | 1 => some .metadata
  | _ => none

/-- Versioned semantic kind of one immutable object. -/
inductive ObjectKind
  | chunk
  | chunkTree
  | file
  | symlink
  | directory
  | kvLeaf
  | kvBranch
  | namespaceMap
  | principalState
  | commit
  | workspaceBranch
  | evidence
  | derived
  | runtimeSemanticProfile
  | derivationInvocation
  | derivationEvidence
  | gcPlanEvidence
  | gcCommitEvidence
  deriving DecidableEq, Repr

def ObjectKind.code : ObjectKind → UInt16
  | .chunk => 0
  | .chunkTree => 1
  | .file => 2
  | .symlink => 3
  | .directory => 4
  | .kvLeaf => 5
  | .kvBranch => 6
  | .namespaceMap => 7
  | .principalState => 8
  | .commit => 9
  | .workspaceBranch => 17
  | .evidence => 10
  | .derived => 11
  | .runtimeSemanticProfile => 12
  | .derivationInvocation => 13
  | .derivationEvidence => 14
  | .gcPlanEvidence => 15
  | .gcCommitEvidence => 16

def ObjectKind.fromCode : UInt16 → Option ObjectKind
  | 0 => some .chunk
  | 1 => some .chunkTree
  | 2 => some .file
  | 3 => some .symlink
  | 4 => some .directory
  | 5 => some .kvLeaf
  | 6 => some .kvBranch
  | 7 => some .namespaceMap
  | 8 => some .principalState
  | 9 => some .commit
  | 17 => some .workspaceBranch
  | 10 => some .evidence
  | 11 => some .derived
  | 12 => some .runtimeSemanticProfile
  | 13 => some .derivationInvocation
  | 14 => some .derivationEvidence
  | 15 => some .gcPlanEvidence
  | 16 => some .gcCommitEvidence
  | _ => none

theorem ReferenceKind.fromCode_code (kind : ReferenceKind) : fromCode kind.code = some kind := by
  cases kind <;> rfl

theorem ObjectClass.fromCode_code (cls : ObjectClass) : fromCode cls.code = some cls := by
  cases cls <;> rfl

theorem ObjectKind.fromCode_code (kind : ObjectKind) : fromCode kind.code = some kind := by
  cases kind <;> rfl

/-- Non-zero schema version of one `ObjectKind`. -/
structure ObjectFormatVersion where
  value : UInt16
  ne_zero : value ≠ 0
  deriving DecidableEq, Repr

def ObjectFormatVersion.new (value : UInt16) : Option ObjectFormatVersion :=
  if h : value ≠ 0 then some ⟨value, h⟩ else none

theorem version_one_ne : (1 : UInt16) ≠ 0 := by decide

def ObjectFormatVersion.v1 : ObjectFormatVersion := ⟨1, version_one_ne⟩

/-- A typed, labelled reference to another immutable object. -/
structure ObjectReference (Id : Type) where
  label : Bytes
  target : Id
  kind : ReferenceKind
  deriving DecidableEq, Repr

def ObjectReference.owns {Id : Type} (label : Bytes) (target : Id) : ObjectReference Id :=
  ⟨label, target, .owns⟩

/-- Monotonic generation of one principal root, a 64-bit counter. -/
abbrev RootGeneration := UInt64

def RootGeneration.initial : RootGeneration := 0

def RootGeneration.checkedNext (generation : RootGeneration) : Option RootGeneration :=
  if generation.toNat + 1 < wordLimit then some (generation + 1) else none

theorem RootGeneration.checkedNext_toNat {generation next : RootGeneration}
    (h : generation.checkedNext = some next) : next.toNat = generation.toNat + 1 := by
  unfold RootGeneration.checkedNext at h
  split at h
  next hlt =>
    cases h
    exact Nat.mod_eq_of_lt hlt
  next => cases h

/-- Current committed root of a principal. -/
structure RootState (Id : Type) where
  generation : RootGeneration
  commit : Id
  deriving DecidableEq, Repr

/-- Errors raised when a model invariant would be violated. -/
inductive ModelError (Id : Type)
  | objectCollision (id : Id)
  | missingObject (id : Id)
  | blobCollision (blob : Id)
  | objectCycle (id : Id)
  | nonCanonicalReferences
  | objectIdentityMismatch (declared computed : Id)
  | extraneousImportObject (id : Id)
  | rootNotCommit (object : Id) (actual : ObjectKind)
  | rootConflict (expected actual : Option (RootState Id))
  | arithmeticOverflow
  | pinAlreadyExists (pin : Nat)
  | pinMissing (pin : Nat)
  | placementEpochAlreadyExists (epoch : Nat)
  | placementEpochMissing (epoch : Nat)
  | stalePlacementEpoch (proposed active : Nat)
  | unregisteredBlob (blob : Id)
  | missingPlacement (epoch : Nat) (object : Id)
  | missingRepresentation (object : Id)
  | insufficientReplicas (epoch : Nat) (blob : Id) (required actual : Nat)
  | activePlacementEpoch (epoch : Nat)
  deriving DecidableEq, Repr

/-- Reference labels are strictly increasing. -/
def LabelsIncrease {Id : Type} (references : List (ObjectReference Id)) : Prop :=
  references.IsChain fun left right => compare left.label right.label = .lt

instance {Id : Type} (references : List (ObjectReference Id)) :
    Decidable (LabelsIncrease references) :=
  inferInstanceAs (Decidable (references.IsChain _))

theorem labelsIncrease_nil {Id : Type} : LabelsIncrease ([] : List (ObjectReference Id)) := .nil

/-- Canonical object bytes and their typed child references. -/
structure ObjectRecord (Id : Type) where
  kind : ObjectKind
  formatVersion : ObjectFormatVersion
  canonicalBytes : Bytes
  references : List (ObjectReference Id)
  logicalBytes : UInt64
  cls : ObjectClass
  labels : LabelsIncrease references
  deriving DecidableEq

namespace ObjectRecord

variable {Id : Type}

/-- Construct a canonical object record, refusing unordered labels. -/
def new (kind : ObjectKind) (formatVersion : ObjectFormatVersion) (canonicalBytes : Bytes)
    (references : List (ObjectReference Id)) (logicalBytes : UInt64) (cls : ObjectClass) :
    Except (ModelError Id) (ObjectRecord Id) :=
  if h : LabelsIncrease references then
    .ok ⟨kind, formatVersion, canonicalBytes, references, logicalBytes, cls, h⟩
  else
    .error .nonCanonicalReferences

/-- The targets of the strong ownership references, in label order. -/
def owningReferences (record : ObjectRecord Id) : List Id :=
  (record.references.filter fun reference => reference.kind = .owns).map (·.target)

/-- Kind, version, class, logical bytes, payload length and reference count. -/
def fixedRetainedBytes : Nat := 2 + 2 + 1 + 8 + 8 + 8

/-- Label length, target digest and reference kind. -/
def fixedReferenceBytes : Nat := 8 + 32 + 1

/-- The bytes charged for retaining this record; `none` is an overflow. -/
def retainedBytes (record : ObjectRecord Id) : Option Nat :=
  record.references.foldlM
    (fun retained reference => do
      let total ← checkedAdd retained fixedReferenceBytes
      checkedAdd total reference.label.length)
    =<< checkedAdd fixedRetainedBytes record.canonicalBytes.length

/-- Find a reference by its relation label. -/
def reference (record : ObjectRecord Id) (label : Bytes) : Option (ObjectReference Id) :=
  record.references.find? fun reference => reference.label = label

end ObjectRecord

/-! ## Identities -/

instance countableUInt8 : Countable UInt8 :=
  Function.Injective.countable fun _ _ => UInt8.toNat_inj.1

instance countableUInt16 : Countable UInt16 :=
  Function.Injective.countable fun _ _ => UInt16.toNat_inj.1

instance countableUInt64 : Countable UInt64 :=
  Function.Injective.countable fun _ _ => UInt64.toNat_inj.1

deriving instance Countable for ReferenceKind, ObjectKind, ObjectClass, ObjectFormatVersion,
  ObjectReference

/-- There are no more records than natural numbers, so numbers can identify them. -/
instance {Id : Type} [Countable Id] : Countable (ObjectRecord Id) := by
  have hinj : Function.Injective fun record : ObjectRecord Id =>
      ((record.kind, record.formatVersion, record.canonicalBytes),
        record.references, record.logicalBytes, record.cls) := by
    rintro ⟨⟩ ⟨⟩ h
    cases h
    rfl
  exact hinj.countable

end Astrid
