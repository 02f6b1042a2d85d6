import Astrid.Content.Build

/-!
# Reading content

`content_dag/read.rs` and `content_dag/read/traversal.rs`: a file is opened by its record,
and its tree is walked down to the chunks that overlap the requested range. Every node is
checked against the shape that its parent announced. A `BoundaryWindow` sees the chunks
pass by and checks each boundary with the chunk before it and the first two bytes of the
chunk behind it.

`tree_depth` of the source's `ExpectedShape` is an argument of its own here: the walks
recurse on it. The bitmaps of verified edges are lists of edges. A source answers a batch
as it answers the single requests.
-/

namespace Astrid.Content

open Std

inductive ContentReadError (Id E : Type)
  | content (e : ContentError Id)
  | source (e : E)

/-- Load one immutable object by its identity; the error is that of the backing store. -/
abbrev ContentSource (Id E : Type) := Id → Except E (Option (ObjectRecord Id))

section Shapes

variable {Id : Type}

/-! ## Shapes -/

/-- What a parent says about a subtree. -/
structure ExpectedShape where
  logicalBytes : Nat
  chunkCount : Nat
  profile : ChunkingProfile
  endsFile : Bool

def saturatingMul (a b : Nat) : Nat := min (a * b) (wordLimit - 1)

/-- `while capacity < chunk_count`: after ten turns the capacity is the largest word. -/
def depthFrom (chunkCount : Nat) : Nat → Nat → Nat → Nat
  | 0, _, depth => depth
  | turns + 1, capacity, depth =>
    if capacity < chunkCount then
      depthFrom chunkCount turns (saturatingMul capacity chunkTreeFanout) (depth + 1)
    else depth

def canonicalTreeDepth (chunkCount : Nat) : Nat := depthFrom chunkCount 10 1 0

def treeCapacity : Nat → Nat
  | 0 => 1
  | depth + 1 => saturatingMul (treeCapacity depth) chunkTreeFanout

/-- Between the smallest and the largest size of so many chunks. The scan begins at half
the minimum size, so an odd minimum counts as the even number below it. -/
def validateProfileBounds (object : Id) (logicalBytes chunkCount : Nat)
    (profile : ChunkingProfile) (endsFile : Bool) : Except (ContentError Id) Unit := do
  let maximumTotal ← okOr (checkedMul chunkCount profile.maximumBytes) .lengthOverflow
  let requiredFullChunks := if endsFile then chunkCount - 1 else chunkCount
  let effectiveMinimum := profile.minimumBytes / 2 * 2
  let minimumTotal ← okOr (checkedMul requiredFullChunks effectiveMinimum) .lengthOverflow
  let minimumTotal ← (if endsFile then okOr (checkedAdd minimumTotal 1) .lengthOverflow
    else .ok minimumTotal)
  require (minimumTotal ≤ logicalBytes ∧ logicalBytes ≤ maximumTotal)
    (.invalidObject object "content shape violates the declared chunking profile")

/-! ## Records -/

def decodeFile (object : Id) (record : ObjectRecord Id) :
    Except (ContentError Id) (ChunkingProfile × Nat × Nat × Option Id) := do
  require (record.kind = .file ∧ record.formatVersion = .v1 ∧ record.cls = .metadata ∧
    record.logicalBytes = 0) (.invalidObject object "invalid file object type or accounting")
  let (profile, logicalBytes, chunkCount) ← decodeFileHeader object record.canonicalBytes
  require (logicalBytes = 0 ∨ (chunkCount = 1 ↔ logicalBytes ≤ profile.maximumBytes))
    (.invalidObject object "file chunk count violates the whole-object threshold")
  match logicalBytes, chunkCount, record.reference contentLabel, record.references.length with
  | 0, 0, none, 0 => .ok (profile, 0, 0, none)
  | 0, _, _, _ => .error (.invalidObject object "empty file has chunks or content")
  | _, 0, _, _ => .error (.invalidObject object "non-empty file has no chunks")
  | logicalBytes, chunkCount, some reference, 1 =>
    if reference.kind = .owns then .ok (profile, logicalBytes, chunkCount, some reference.target)
    else .error (.invalidObject object "invalid file content reference")
  | _, _, _, _ => .error (.invalidObject object "invalid file content reference")

def validateChunk (object : Id) (record : ObjectRecord Id) (treeDepth : Nat)
    (shape : ExpectedShape) : Except (ContentError Id) Unit := do
  let actual ← toWord record.canonicalBytes.length
  require (record.formatVersion = .v1 ∧ record.cls = .data ∧ record.logicalBytes = 0 ∧
    record.references = [] ∧ actual = shape.logicalBytes ∧ shape.chunkCount = 1 ∧ treeDepth = 0)
    (.invalidObject object "invalid chunk object")
  validateProfileBounds object actual shape.chunkCount shape.profile shape.endsFile

/-- The loop over the references of a tree node of `count` children: the children, and the
totals behind them. -/
def decodeChildren (object : Id) (bytes : Bytes) (shape : ExpectedShape)
    (count childCapacity : Nat) : Nat → Nat → Nat → List (ObjectReference Id) →
    Except (ContentError Id) (List (Child Id) × Nat × Nat)
  | _, total, totalChunks, [] => .ok ([], total, totalChunks)
  | index, total, totalChunks, reference :: rest => do
    require (index < 65536) .lengthOverflow
    require (reference.label = beBytes 2 index ∧ reference.kind = .owns)
      (.invalidObject object "chunk-tree child reference is non-canonical")
    let start := 18 + index * 16
    let childLength := ofLe (slice bytes start 8)
    let childChunkCount := ofLe (slice bytes (start + 8) 8)
    require (childLength ≠ 0 ∧ childChunkCount ≠ 0 ∧ childChunkCount ≤ childCapacity ∧
      (index + 1 < count → childChunkCount = childCapacity))
      (.invalidObject object "chunk-tree child shape is non-canonical")
    validateProfileBounds object childLength childChunkCount shape.profile
      (shape.endsFile && index + 1 == count)
    let total ← okOr (checkedAdd total childLength) .lengthOverflow
    let totalChunks ← okOr (checkedAdd totalChunks childChunkCount) .lengthOverflow
    let (children, totals) ←
      decodeChildren object bytes shape count childCapacity (index + 1) total totalChunks rest
    pure (⟨reference.target, childLength, childChunkCount⟩ :: children, totals)

def decodeTree (object : Id) (record : ObjectRecord Id) (treeDepth : Nat) (shape : ExpectedShape) :
    Except (ContentError Id) (List (Child Id)) := do
  let bytes := record.canonicalBytes
  require (record.formatVersion = .v1 ∧ record.cls = .metadata ∧ record.logicalBytes = 0 ∧
    18 ≤ bytes.length) (.invalidObject object "invalid chunk-tree object")
  let count := ofLe (slice bytes 0 2)
  let logicalBytes := ofLe (slice bytes 2 8)
  let chunkCount := ofLe (slice bytes 10 8)
  require (count ≠ 0 ∧ count ≤ chunkTreeFanout ∧ record.references.length = count ∧
    bytes.length = 18 + count * 16 ∧ logicalBytes = shape.logicalBytes ∧
    chunkCount = shape.chunkCount) (.invalidObject object "chunk-tree header is inconsistent")
  let (children, total, totalChunks) ← decodeChildren object bytes shape count
    (treeCapacity (treeDepth - 1)) 0 0 0 record.references
  require (total = logicalBytes ∧ totalChunks = chunkCount)
    (.invalidObject object "chunk-tree child totals do not sum to header")
  pure children

end Shapes

/-! ## Boundaries -/

section Window

variable {Id : Type} [DecidableEq Id]

/-- One step on the way from the root of a tree to a chunk. -/
structure TreeStep (Id : Type) where
  tree : Id
  childIndex : Nat
  childCount : Nat
  deriving DecidableEq

/-- The edge between two neighbouring children of a tree node, under a profile. -/
structure VerifiedEdge (Id : Type) where
  tree : Id
  leftChild : Nat
  profile : ChunkingProfile
  deriving DecidableEq

/-- Edges whose boundary has been checked. -/
abbrev ContentVerificationState (Id : Type) := List (VerifiedEdge Id)

structure LoadedChunk (Id : Type) where
  object : Id
  start : Nat
  bytes : Bytes
  path : List (TreeStep Id)

def LoadedChunk.stop (chunk : LoadedChunk Id) : Except (ContentError Id) Nat := do
  let length ← toWord chunk.bytes.length
  okOr (checkedAdd chunk.start length) .lengthOverflow

structure BoundaryWindow (Id : Type) where
  known : Option (ContentVerificationState Id)
  delta : ContentVerificationState Id
  firstStart : Option Nat
  firstPrefix : Bytes
  firstPath : List (TreeStep Id)
  last : Option (LoadedChunk Id)

def BoundaryWindow.new (known : Option (ContentVerificationState Id)) : BoundaryWindow Id :=
  ⟨known, [], none, [], [], none⟩

/-- The edge at which the paths of two neighbouring chunks part. -/
def edgeBetween (object : Id) (profile : ChunkingProfile) :
    List (TreeStep Id) → List (TreeStep Id) → Except (ContentError Id) (VerifiedEdge Id)
  | left :: lefts, right :: rights =>
    if left = right then edgeBetween object profile lefts rights
    else if left.tree = right.tree ∧ right.childIndex = left.childIndex + 1 then
      .ok ⟨left.tree, left.childIndex, profile⟩
    else .error (.invalidObject object "adjacent chunks have inconsistent tree paths")
  | _, _ => .error (.invalidObject object "adjacent chunks do not diverge at a tree edge")

def edgeBefore (path : List (TreeStep Id)) (object : Id) (profile : ChunkingProfile) :
    Except (ContentError Id) (VerifiedEdge Id) := do
  let step ← okOr (path.reverse.find? fun step => 0 < step.childIndex)
    (.invalidObject object "non-initial chunk has no preceding tree edge")
  pure ⟨step.tree, step.childIndex - 1, profile⟩

def edgeAfter (path : List (TreeStep Id)) (object : Id) (profile : ChunkingProfile) :
    Except (ContentError Id) (VerifiedEdge Id) := do
  let step ← okOr (path.reverse.find? fun step => step.childIndex + 1 < step.childCount)
    (.invalidObject object "non-final chunk has no following tree edge")
  pure ⟨step.tree, step.childIndex, profile⟩

def validateBoundary (left : LoadedChunk Id) (rightPrefix : Bytes) (profile : ChunkingProfile) :
    Except (ContentError Id) Unit :=
  require (isCanonicalBoundary profile left.bytes rightPrefix = true)
    (.invalidObject left.object "chunk boundary violates the declared FastCDC profile")

namespace BoundaryWindow

variable (window : BoundaryWindow Id)

def isVerified (edge : VerifiedEdge Id) : Bool :=
  (window.known.any fun known => edge ∈ known) || edge ∈ window.delta

def validateEdge (left : LoadedChunk Id) (rightPrefix : Bytes) (edge : VerifiedEdge Id)
    (profile : ChunkingProfile) : Except (ContentError Id) (BoundaryWindow Id) :=
  if window.isVerified edge then .ok window
  else do
    validateBoundary left rightPrefix profile
    pure { window with delta := edge :: window.delta }

/-- The next chunk of the walk. -/
def observe (chunk : LoadedChunk Id) (profile : ChunkingProfile) :
    Except (ContentError Id) (BoundaryWindow Id) := do
  require (chunk.bytes ≠ []) (.invalidObject chunk.object "content chunk is empty")
  let start := chunk.bytes.take 2
  match window.last with
  | some previous =>
    let stop ← previous.stop
    require (stop = chunk.start)
      (.invalidObject chunk.object "content traversal skipped an overlapping chunk")
    let edge ← edgeBetween chunk.object profile previous.path chunk.path
    let window ← { window with last := none }.validateEdge previous start edge profile
    pure { window with last := some chunk }
  | none =>
    pure { window with
      firstStart := some chunk.start
      firstPrefix := window.firstPrefix ++ start
      firstPath := window.firstPath ++ chunk.path
      last := some chunk }

end BoundaryWindow

end Window

/-! ## Walks -/

section Walk

variable {Id E : Type} [DecidableEq Id] (source : ContentSource Id E)

def load (object : Id) : Except (ContentReadError Id E) (ObjectRecord Id) := do
  let record ← (source object).mapError .source
  okOr record (.content (.missingObject object))

def loadMany (objects : List Id) : Except (ContentReadError Id E) (List (ObjectRecord Id)) := do
  let records ← (objects.mapM source).mapError .source
  (objects.zip records).mapM fun request =>
    okOr request.2 (.content (.missingObject request.1))

/-- The shape of the child at `index` of `count`. -/
def ExpectedShape.child (shape : ExpectedShape) (child : Child Id) (index count : Nat) :
    ExpectedShape :=
  ⟨child.logicalBytes, child.chunkCount, shape.profile, shape.endsFile && index + 1 == count⟩

structure RequestedRange where
  start : Nat
  stop : Nat

/-- A node that has been selected for a visit. -/
structure SelectedNode (Id : Type) where
  object : Id
  shape : ExpectedShape
  baseOffset : Nat
  path : List (TreeStep Id)

structure RangeTraversal (Id : Type) where
  output : Bytes
  boundaries : Option (BoundaryWindow Id)

def RangeTraversal.observe (traversal : RangeTraversal Id) (chunk : LoadedChunk Id)
    (profile : ChunkingProfile) : Except (ContentError Id) (Option (BoundaryWindow Id)) :=
  match traversal.boundaries with
  | none => .ok none
  | some window => some <$> window.observe chunk profile

def appendChunkRange (range : RequestedRange) (treeDepth : Nat) (node : SelectedNode Id)
    (record : ObjectRecord Id) (traversal : RangeTraversal Id) :
    Except (ContentError Id) (RangeTraversal Id) := do
  validateChunk node.object record treeDepth node.shape
  let boundaries ← traversal.observe
    ⟨node.object, node.baseOffset, record.canonicalBytes, node.path⟩ node.shape.profile
  let chunkEnd ← okOr (checkedAdd node.baseOffset node.shape.logicalBytes) .lengthOverflow
  let start := max range.start node.baseOffset - node.baseOffset
  let stop := min range.stop chunkEnd - node.baseOffset
  require (start ≤ stop ∧ stop ≤ record.canonicalBytes.length)
    (.invalidObject node.object "chunk range exceeds payload")
  pure ⟨traversal.output ++ slice record.canonicalBytes start (stop - start), boundaries⟩

/-- The children that overlap the range; paths are kept only where boundaries are
checked. -/
def selectChildren (range : RequestedRange) (node : SelectedNode Id) (count : Nat)
    (boundaries : Bool) : Nat → Nat → List (Child Id) →
    Except (ContentError Id) (List (SelectedNode Id))
  | _, _, [] => .ok []
  | index, cursor, child :: rest => do
    let childEnd ← okOr (checkedAdd cursor child.logicalBytes) .lengthOverflow
    let childBase ← okOr (checkedAdd node.baseOffset cursor) .lengthOverflow
    let childAbsoluteEnd ← okOr (checkedAdd node.baseOffset childEnd) .lengthOverflow
    let selected ← (if range.start < childAbsoluteEnd ∧ childBase < range.stop then do
        require (index < 65536) .lengthOverflow
        pure [⟨child.id, node.shape.child child index count, childBase,
          if boundaries then node.path ++ [⟨node.object, index, count⟩] else []⟩]
      else .ok [])
    let others ← selectChildren range node count boundaries (index + 1) childEnd rest
    pure (selected ++ others)

def appendLoadedRange (range : RequestedRange) : Nat → SelectedNode Id → ObjectRecord Id →
    RangeTraversal Id → Except (ContentReadError Id E) (RangeTraversal Id)
  | treeDepth, node, record, traversal =>
    match record.kind with
    | .chunk => (appendChunkRange range treeDepth node record traversal).mapError .content
    | .chunkTree =>
      match treeDepth with
      | 0 => .error (.content (.invalidObject node.object "chunk tree exceeds canonical depth"))
      | treeDepth + 1 => do
        let children ← (decodeTree node.object record (treeDepth + 1) node.shape).mapError .content
        let selected ← (selectChildren range node children.length traversal.boundaries.isSome
          0 0 children).mapError .content
        let records ← loadMany source (selected.map SelectedNode.object)
        (selected.zip records).foldlM (fun traversal visit =>
          appendLoadedRange range treeDepth visit.1 visit.2 traversal) traversal
    | _ => .error (.content
        (.invalidObject node.object "file content points to an unsupported object kind"))

/-- The child that covers an offset, with its index and base. -/
def coveringChild (object : Id) (targetOffset baseOffset : Nat) : Nat → Nat → List (Child Id) →
    Except (ContentError Id) (Nat × Nat × Child Id)
  | _, _, [] => .error (.invalidObject object "chunk lookup found no covering child")
  | index, cursor, child :: rest => do
    let childBase ← okOr (checkedAdd baseOffset cursor) .lengthOverflow
    let childEnd ← okOr (checkedAdd childBase child.logicalBytes) .lengthOverflow
    if childBase ≤ targetOffset ∧ targetOffset < childEnd then do
      require (index < 65536) .lengthOverflow
      pure (index, childBase, child)
    else do
      let cursor ← okOr (checkedAdd cursor child.logicalBytes) .lengthOverflow
      coveringChild object targetOffset baseOffset (index + 1) cursor rest

def loadChunkAtOffset (targetOffset : Nat) : Nat → SelectedNode Id →
    Except (ContentReadError Id E) (LoadedChunk Id)
  | treeDepth, node => do
    let record ← load source node.object
    match record.kind with
    | .chunk => do
      (validateChunk node.object record treeDepth node.shape).mapError .content
      let stop ← okOr (checkedAdd node.baseOffset node.shape.logicalBytes)
        (.content .lengthOverflow)
      require (node.baseOffset ≤ targetOffset ∧ targetOffset < stop)
        (.content (.invalidObject node.object "chunk lookup offset is outside the payload"))
      pure ⟨node.object, node.baseOffset, record.canonicalBytes, node.path⟩
    | .chunkTree =>
      match treeDepth with
      | 0 => .error (.content (.invalidObject node.object "chunk tree exceeds canonical depth"))
      | treeDepth + 1 => do
        let children ← (decodeTree node.object record (treeDepth + 1) node.shape).mapError .content
        let (index, childBase, child) ← (coveringChild node.object targetOffset node.baseOffset
          0 0 children).mapError .content
        loadChunkAtOffset targetOffset treeDepth ⟨child.id,
          node.shape.child child index children.length, childBase,
          node.path ++ [⟨node.object, index, children.length⟩]⟩
    | _ => .error (.content
        (.invalidObject node.object "file content points to an unsupported object kind"))

/-- The boundaries at the two ends of the range, or the end of the file. -/
def BoundaryWindow.validateNeighbors (window : BoundaryWindow Id) (content : Id)
    (treeDepth : Nat) (shape : ExpectedShape) (logicalBytes : Nat) :
    Except (ContentReadError Id E) (BoundaryWindow Id) := do
  let root : SelectedNode Id := ⟨content, shape, 0, []⟩
  let firstStart ← okOr window.firstStart
    (.content (.invalidObject content "non-empty range selected no content chunk"))
  let window ← (if 0 < firstStart then do
      let edge ← (edgeBefore window.firstPath content shape.profile).mapError .content
      if window.isVerified edge then .ok window
      else do
        let previous ← loadChunkAtOffset source (firstStart - 1) treeDepth root
        (window.validateEdge previous window.firstPrefix edge shape.profile).mapError .content
    else .ok window)
  let last ← okOr window.last
    (.content (.invalidObject content "non-empty range selected no final content chunk"))
  let window := { window with last := none }
  let lastEnd ← last.stop.mapError .content
  if lastEnd < logicalBytes then do
    let edge ← (edgeAfter last.path content shape.profile).mapError .content
    if window.isVerified edge then .ok window
    else do
      let next ← loadChunkAtOffset source lastEnd treeDepth root
      (window.validateEdge last (next.bytes.take 2) edge shape.profile).mapError .content
  else do
    require (1 < shape.chunkCount → isCanonicalFinalChunk shape.profile last.bytes = true)
      (.content (.invalidObject last.object "final chunk violates the declared FastCDC profile"))
    pure window

/-- The edges that a read has checked. -/
def RangeTraversal.validateNeighbors (traversal : RangeTraversal Id) (content : Id)
    (treeDepth : Nat) (shape : ExpectedShape) (logicalBytes : Nat) :
    Except (ContentReadError Id E) (ContentVerificationState Id) :=
  match traversal.boundaries with
  | none => .ok []
  | some window =>
    BoundaryWindow.delta <$>
      window.validateNeighbors source content treeDepth shape logicalBytes

/-! ## Entry points -/

inductive BoundaryMode (Id : Type)
  | skip
  | validate
  | reuse (known : ContentVerificationState Id)

def BoundaryMode.window : BoundaryMode Id → Option (BoundaryWindow Id)
  | .skip => none
  | .validate => some (.new none)
  | .reuse known => some (.new (some known))

def openContent (file : Id) : Except (ContentReadError Id E) (OpenedContent Id) := do
  let record ← load source file
  let (profile, logicalBytes, chunkCount, content) ← (decodeFile file record).mapError .content
  pure ⟨⟨file, logicalBytes, chunkCount, profile⟩, content⟩

def readDecodedRange (opened : OpenedContent Id) (offset length : Nat) (mode : BoundaryMode Id) :
    Except (ContentReadError Id E) (Bytes × ContentVerificationState Id) := do
  let descriptor := opened.descriptor
  let logicalBytes := descriptor.logicalBytes
  let outOfBounds := .content (.rangeOutOfBounds offset length logicalBytes)
  let stop ← okOr (checkedAdd offset length) outOfBounds
  require (offset ≤ logicalBytes ∧ stop ≤ logicalBytes) outOfBounds
  if length = 0 then .ok ([], [])
  else do
    let content ← okOr opened.content
      (.content (.invalidObject descriptor.file "non-empty file has no content reference"))
    let shape : ExpectedShape := ⟨logicalBytes, descriptor.chunkCount, descriptor.profile, true⟩
    let treeDepth := canonicalTreeDepth descriptor.chunkCount
    let record ← load source content
    let traversal ← appendLoadedRange source ⟨offset, stop⟩ treeDepth ⟨content, shape, 0, []⟩
      record ⟨[], mode.window⟩
    let delta ← traversal.validateNeighbors source content treeDepth shape logicalBytes
    require (traversal.output.length = length) (.content
      (.invalidObject descriptor.file "content tree reconstructed the wrong range length"))
    pure (traversal.output, delta)

/-- Read all bytes and check every boundary. -/
def readOpenedContentAndVerify (opened : OpenedContent Id) :
    Except (ContentReadError Id E) (Bytes × VerifiedContent Id) := do
  let (bytes, _) ← readDecodedRange source opened 0 opened.descriptor.logicalBytes .validate
  pure (bytes, ⟨opened⟩)

def readContent (file : Id) : Except (ContentReadError Id E) Bytes := do
  let opened ← openContent source file
  let (bytes, _) ← readOpenedContentAndVerify source opened
  pure bytes

def readVerifiedContentRange (verified : VerifiedContent Id) (offset length : Nat) :
    Except (ContentReadError Id E) Bytes := do
  let (bytes, _) ← readDecodedRange source verified.opened offset length .skip
  pure bytes

end Walk

end Astrid.Content
