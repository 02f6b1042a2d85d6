import Astrid.Lib.BigEndian
import Astrid.Lib.Loop
import Astrid.Lib.Packed
import Astrid.Lib.Try
import Astrid.Content.Boundary
import Astrid.Model.Object

/-!
# Building content

`content_dag/mod.rs` and `content_dag/build.rs`: bytes are cut into chunks, the chunks
are packed into a tree of fanout 128, and a file record names the root of the tree. A
byte string no longer than the largest chunk is one chunk.

Object identity and the two revisions of the FastCDC library are parameters
(`ContentEnv`). A failed allocation is not modelled.
-/

namespace Astrid.Content

open Std

/-! ## Types -/

inductive ContentError (Id : Type)
  | invalidProfile (detail : String)
  | lengthOverflow
  | model (e : ModelError Id)
  | missingObject (object : Id)
  | invalidObject (object : Id) (detail : String)
  | rangeOutOfBounds (offset length fileLength : Nat)
  deriving DecidableEq

/-- Identity of objects, and the offsets and lengths of the chunks that the current and
the legacy library cut. -/
structure ContentEnv (Id : Type) where
  identify : ObjectRecord Id → Id
  fastcdc : ChunkingProfile → Bytes → List (Nat × Nat)
  fastcdcV4 : ChunkingProfile → Bytes → List (Nat × Nat)

structure ContentDescriptor (Id : Type) where
  file : Id
  logicalBytes : Nat
  chunkCount : Nat
  profile : ChunkingProfile
  deriving DecidableEq

structure OpenedContent (Id : Type) where
  descriptor : ContentDescriptor Id
  content : Option Id
  deriving DecidableEq

/-- The token of a file whose boundaries were checked or built. -/
structure VerifiedContent (Id : Type) where
  opened : OpenedContent Id
  deriving DecidableEq

def chunkTreeFanout : Nat := 128

instance : NeZero chunkTreeFanout := ⟨by decide⟩

def contentLabel : Bytes := [99, 111, 110, 116, 101, 110, 116]

section Build

variable {Id : Type}

/-- A length as a 64-bit number. -/
def toWord (length : Nat) : Except (ContentError Id) Nat := do
  require (length < wordLimit) .lengthOverflow
  pure length

/-! ## File headers -/

def fileHeaderBytes : Nat := 40

def encodeFileHeader (profile : ChunkingProfile) (logicalBytes chunkCount : Nat) : Bytes :=
  [1] ++ (leBytes 2 1 ++ ([1] ++ (leBytes 4 profile.minimumBytes ++
    (leBytes 4 profile.averageBytes ++ (leBytes 4 profile.maximumBytes ++
      (leBytes 8 profile.gearSeed.toNat ++ (leBytes 8 logicalBytes ++ leBytes 8 chunkCount)))))))

/-- Construct a validated profile. -/
def fastcdcV2020 (minimum average maximum : Nat) (gearSeed : UInt64) :
    Except (ContentError Id) ChunkingProfile :=
  if hsupported : (64 ≤ minimum ∧ minimum ≤ 1048576) ∧ (256 ≤ average ∧ average ≤ 4194304) ∧
      (1024 ≤ maximum ∧ maximum ≤ 16777216) then
    if hordered : minimum < average ∧ average < maximum then
      if hpower : average.isPowerOfTwo then
        .ok ⟨minimum, average, maximum, gearSeed, hsupported, hordered, hpower⟩
      else .error (.invalidProfile "average chunk size must be a power of two")
    else .error (.invalidProfile "chunk sizes must satisfy minimum < average < maximum")
  else .error (.invalidProfile "chunk sizes are outside FastCDC 2020 bounds")

def decodeFileHeader (object : Id) (bytes : Bytes) :
    Except (ContentError Id) (ChunkingProfile × Nat × Nat) := do
  require (bytes.length = fileHeaderBytes ∧ slice bytes 0 1 = [1] ∧ slice bytes 1 2 = leBytes 2 1 ∧
    slice bytes 3 1 = [1]) (.invalidObject object "unsupported file chunking profile")
  let profile ← fastcdcV2020 (ofLe (slice bytes 4 4)) (ofLe (slice bytes 8 4))
    (ofLe (slice bytes 12 4)) (UInt64.ofNat (ofLe (slice bytes 16 8)))
  pure (profile, ofLe (slice bytes 24 8), ofLe (slice bytes 32 8))

/-! ## Records -/

/-- A node of the tree under construction: a chunk or a packed group. -/
structure Child (Id : Type) where
  id : Id
  logicalBytes : Nat
  chunkCount : Nat
  deriving DecidableEq

def chunkRecord (bytes : Bytes) : Except (ContentError Id) (ObjectRecord Id) :=
  (ObjectRecord.new .chunk .v1 bytes [] 0 .data).mapError .model

/-- Add up a 64-bit field of the children. -/
def sumWords (words : List Nat) : Except (ContentError Id) Nat :=
  words.foldlM (fun total word => okOr (checkedAdd total word) .lengthOverflow) 0

/-- The references of a tree node: its children under their 16-bit indices. -/
def treeReferences : Nat → List (Child Id) → List (ObjectReference Id)
  | _, [] => []
  | index, child :: rest => .owns (beBytes 2 index) child.id :: treeReferences (index + 1) rest

def treeBytes (children : List (Child Id)) (logicalBytes chunkCount : Nat) : Bytes :=
  leBytes 2 children.length ++ (leBytes 8 logicalBytes ++ (leBytes 8 chunkCount ++
    children.flatMap fun child => leBytes 8 child.logicalBytes ++ leBytes 8 child.chunkCount))

def treeRecord (children : List (Child Id)) :
    Except (ContentError Id) (ObjectRecord Id × Nat × Nat) := do
  require (children.length < 65536) .lengthOverflow
  let logicalBytes ← sumWords (children.map Child.logicalBytes)
  let chunkCount ← sumWords (children.map Child.chunkCount)
  let tree ← (ObjectRecord.new .chunkTree .v1 (treeBytes children logicalBytes chunkCount)
    (treeReferences 0 children) 0 .metadata).mapError .model
  pure (tree, logicalBytes, chunkCount)

def fileRecord (profile : ChunkingProfile) (logicalBytes chunkCount : Nat) (content : Option Id) :
    Except (ContentError Id) (ObjectRecord Id) :=
  (ObjectRecord.new .file .v1 (encodeFileHeader profile logicalBytes chunkCount)
    (content.toList.map (.owns contentLabel)) 0 .metadata).mapError .model

/-! ## Building -/

variable [Key Id] (env : ContentEnv Id)

abbrev Records (Id : Type) [Key Id] := FMap Id (ObjectRecord Id)

def insertRecord (records : Records Id) (record : ObjectRecord Id) :
    Except (ContentError Id) (Id × Records Id) :=
  match records[env.identify record]? with
  | some existing => do
    require (existing = record) (.model (.objectCollision (env.identify record)))
    pure (env.identify record, records)
  | none => .ok (env.identify record, records.insert (env.identify record) record)

structure ChunkState (Id : Type) [Key Id] where
  records : Records Id
  chunks : List (Child Id)
  uniqueChunks : FSet Id

def pushChunk (bytes : Bytes) (state : ChunkState Id) :
    Except (ContentError Id) (ChunkState Id) := do
  let record ← chunkRecord bytes
  let (id, records) ← insertRecord env state.records record
  let logicalBytes ← toWord bytes.length
  pure ⟨records, state.chunks ++ [⟨id, logicalBytes, 1⟩], state.uniqueChunks.insert id⟩

/-- The chunks that a chunker yields, as offsets and lengths. -/
def pushSpans (source : Bytes) : List (Nat × Nat) → ChunkState Id →
    Except (ContentError Id) (ChunkState Id)
  | [], state => .ok state
  | (offset, length) :: rest, state => do
    let stop ← okOr (checkedAdd offset length) .lengthOverflow
    require (stop ≤ source.length) .lengthOverflow
    let state ← pushChunk env (slice source offset length) state
    pushSpans source rest state

variable (profile : ChunkingProfile)

def appendChunks (source : Bytes) (wholeSmallFile : Bool) (state : ChunkState Id) :
    Except (ContentError Id) (ChunkState Id) :=
  if source = [] then .ok state
  else if wholeSmallFile then pushChunk env source state
  else if profile.usesLegacyFastcdcV4 then
    pushSpans env source (env.fastcdcV4 profile source) state
  else pushSpans env source (env.fastcdc profile source) state

def buildTreeNode (records : Records Id) (children : List (Child Id)) :
    Except (ContentError Id) (Child Id × Records Id) := do
  let (tree, logicalBytes, chunkCount) ← treeRecord children
  let (id, records) ← insertRecord env records tree
  pure (⟨id, logicalBytes, chunkCount⟩, records)

/-- One level of nodes. -/
def buildLevel (records : Records Id) : List (List (Child Id)) →
    Except (ContentError Id) (List (Child Id) × Records Id)
  | [] => .ok ([], records)
  | group :: rest => do
    let (child, records) ← buildTreeNode env records group
    let (next, records) ← buildLevel records rest
    pure (child :: next, records)

theorem length_buildLevel {groups : List (List (Child Id))} {records records' : Records Id}
    {next : List (Child Id)} (h : buildLevel env records groups = .ok (next, records')) :
    next.length = groups.length := by
  induction groups generalizing records records' next with
  | nil =>
    cases h
    rfl
  | cons _ _ ih =>
    simp only [buildLevel, bind_eq_ok] at h
    obtain ⟨⟨_, _⟩, _, ⟨_, _⟩, hrest, hout⟩ := h
    cases hout
    rw [List.length_cons, List.length_cons, ih hrest]

/-- `while level.len() > 1`. -/
def buildTreeTurn (state : List (Child Id) × Records Id) :
    Turn (List (Child Id) × Records Id)
      (Except (ContentError Id) (Option (Child Id) × Records Id)) :=
  if 1 < state.1.length then
    match buildLevel env state.2 (groups chunkTreeFanout state.1) with
    | .error e => .stop (.error e)
    | .ok next => .again next
  else .stop (.ok (state.1.getLast?, state.2))

def buildTreeLoop : Loop (List (Child Id) × Records Id)
    (Except (ContentError Id) (Option (Child Id) × Records Id)) where
  turn := buildTreeTurn env
  size state := state.1.length
  shrinks := by
    intro state state' h
    unfold buildTreeTurn at h
    split at h
    next hlong =>
      split at h
      next => cases h
      next next hlevel =>
        cases h
        rw [length_buildLevel env hlevel]
        exact length_groups_lt (by decide) hlong
    next => cases h

/-- Pack the chunks level by level. -/
def buildTree (records : Records Id) (level : List (Child Id)) :
    Except (ContentError Id) (Option (Child Id) × Records Id) :=
  (buildTreeLoop env).run (level, records)

structure BuiltContent (Id : Type) [Key Id] where
  verified : VerifiedContent Id
  records : Records Id
  uniqueChunks : Nat

/-- The tree over the chunks and the file record. -/
def finishContent (logicalBytes : Nat) (state : ChunkState Id) :
    Except (ContentError Id) (VerifiedContent Id × Records Id) := do
  let chunkCount ← toWord state.chunks.length
  let (content, records) ← buildTree env state.records state.chunks
  let file ← fileRecord profile logicalBytes chunkCount (content.map Child.id)
  let (file, records) ← insertRecord env records file
  pure (⟨⟨⟨file, logicalBytes, chunkCount, profile⟩, content.map Child.id⟩⟩, records)

def buildContent (source : Bytes) : Except (ContentError Id) (BuiltContent Id) := do
  let logicalBytes ← toWord source.length
  let state ← appendChunks env profile source (decide (source.length ≤ profile.maximumBytes))
    ⟨∅, [], ∅⟩
  let (verified, records) ← finishContent env profile logicalBytes state
  let uniqueChunks ← toWord state.uniqueChunks.size
  pure ⟨verified, records, uniqueChunks⟩

end Build

end Astrid.Content
