import Astrid.Content.Build

/-!
# The tree of a chunk list

What the tree over a list of chunks is, apart from how it is built or read: `treeChild d`
is the root of the tree with `d` levels over the chunks, and `Held` says that a store has
all of its records. A list of chunks that `Fits` has such a tree, and its records carry the
totals of the chunks.

The tree is a function of the chunks: a reader that has recovered the chunks and the
number of levels knows the identity of the root.
-/

namespace Astrid.Content

open Std List

variable {Id : Type} {d : Nat} {chunks : List Bytes}

section Records

/-! ## Records -/

theorem ofNew {kind : ObjectKind} {version : ObjectFormatVersion} {bytes : Bytes}
    {references : List (ObjectReference Id)} {logicalBytes : UInt64} {cls : ObjectClass}
    (h : LabelsIncrease references) :
    ObjectRecord.new kind version bytes references logicalBytes cls =
      .ok ⟨kind, version, bytes, references, logicalBytes, cls, h⟩ :=
  dif_pos h

def chunkObject (bytes : Bytes) : ObjectRecord Id :=
  ⟨.chunk, .v1, bytes, [], 0, .data, labelsIncrease_nil⟩

theorem chunkRecord_eq (bytes : Bytes) :
    (chunkRecord bytes : Except (ContentError Id) _) = .ok (chunkObject bytes) := rfl

theorem sumWords_eq {words : List Nat} (h : words.sum < wordLimit) :
    (sumWords words : Except (ContentError Id) Nat) = .ok words.sum := by
  have hfold : ∀ (words : List Nat) (total : Nat), total + words.sum < wordLimit →
      words.foldlM (fun total word =>
        okOr (checkedAdd total word) (.lengthOverflow : ContentError Id)) total =
          .ok (total + words.sum) := by
    intro words
    induction words with
    | nil =>
      intro total _
      rfl
    | cons word _ ih =>
      intro total hsum
      rw [sum_cons, ← add_assoc] at hsum ⊢
      have hadd : checkedAdd total word = some (total + word) :=
        checkedAdd_eq_some.2 ⟨rfl, by omega⟩
      rw [foldlM_cons, hadd]
      exact ih (total + word) hsum
  have hsum := hfold words 0 (by omega)
  rw [zero_add] at hsum
  exact hsum

theorem labelsIncrease_treeReferences (children : List (Child Id)) {index : Nat}
    (h : index + children.length ≤ 65536) : LabelsIncrease (treeReferences index children) := by
  induction children generalizing index with
  | nil =>
    exact .nil
  | cons _ rest ih =>
    rw [length_cons] at h
    have hrest := @ih (index + 1) (by omega)
    cases rest with
    | nil => exact .singleton _
    | cons =>
      rw [length_cons] at h
      refine List.IsChain.cons_cons ?_ hrest
      show compare (beBytes 2 index) (beBytes 2 (index + 1)) = .lt
      rw [compare_beBytes (by omega) (by omega), Nat.compare_eq_lt]
      exact Nat.lt_succ_self index

/-- The record of a tree node, with the totals in its header. -/
def treeObject (children : List (Child Id)) (h : children.length ≤ 65536) : ObjectRecord Id :=
  ⟨.chunkTree, .v1,
    treeBytes children (children.map Child.logicalBytes).sum (children.map Child.chunkCount).sum,
    treeReferences 0 children, 0, .metadata, labelsIncrease_treeReferences children (by omega)⟩

theorem treeRecord_eq {children : List (Child Id)} (hlen : children.length < 65536)
    (hbytes : (children.map Child.logicalBytes).sum < wordLimit)
    (hcount : (children.map Child.chunkCount).sum < wordLimit) :
    treeRecord children = .ok (treeObject children hlen.le,
      (children.map Child.logicalBytes).sum, (children.map Child.chunkCount).sum) := by
  unfold treeRecord
  rw [require_pos hlen, ok_bind, sumWords_eq hbytes, ok_bind, sumWords_eq hcount, ok_bind,
    ofNew (labelsIncrease_treeReferences children (by omega))]
  rfl

def fileObject (profile : ChunkingProfile) (logicalBytes chunkCount : Nat) (content : Option Id) :
    ObjectRecord Id :=
  ⟨.file, .v1, encodeFileHeader profile logicalBytes chunkCount,
    content.toList.map (.owns contentLabel), 0, .metadata, by
      cases content with
      | none => exact .nil
      | some root => exact .singleton _⟩

theorem fileRecord_eq (profile : ChunkingProfile) (logicalBytes chunkCount : Nat)
    (content : Option Id) :
    fileRecord profile logicalBytes chunkCount content =
      .ok (fileObject profile logicalBytes chunkCount content) := by
  have hlabels : LabelsIncrease (content.toList.map (.owns contentLabel)) :=
    (fileObject profile logicalBytes chunkCount content).labels
  unfold fileRecord
  rw [ofNew hlabels]
  rfl

end Records

/-! ## Chunk lists and their trees -/

/-- Chunks that a tree of `d` levels holds, with totals of 64 bits. -/
structure Fits (d : Nat) (chunks : List Bytes) : Prop where
  ne_nil : chunks ≠ []
  length_le : chunks.length ≤ chunkTreeFanout ^ d
  chunk_ne_nil : ∀ chunk ∈ chunks, chunk ≠ []
  bytes_lt : chunks.flatten.length < wordLimit

/-- There are no more chunks than bytes. -/
theorem length_le_flatten {chunks : List Bytes} (h : ∀ chunk ∈ chunks, chunk ≠ []) :
    chunks.length ≤ chunks.flatten.length := by
  induction chunks with
  | nil => exact Nat.le_refl 0
  | cons chunk _ ih =>
    have hchunk : 0 < chunk.length := length_pos_of_ne_nil (h chunk mem_cons_self)
    have hrest := ih (forall_mem_cons.1 h).2
    rw [flatten_cons, length_append, length_cons]
    omega

theorem fits_group {d : Nat} {chunks piece : List Bytes} (hne : ∀ chunk ∈ chunks, chunk ≠ [])
    (hbytes : chunks.flatten.length < wordLimit)
    (hpiece : piece ∈ groups (chunkTreeFanout ^ d) chunks) : Fits d piece := by
  have hflat := flatten_groups (n := chunkTreeFanout ^ d) chunks
  have hsize := (full_groups (n := chunkTreeFanout ^ d) chunks).mem piece hpiece
  have hpart : piece.Sublist chunks := by
    rw [← hflat]
    exact sublist_flatten_of_mem hpiece
  refine ⟨ne_nil_of_length_pos hsize.1, hsize.2,
    fun chunk hchunk => hne chunk (hpart.subset hchunk), ?_⟩
  exact Nat.lt_of_le_of_lt hpart.flatten.length_le hbytes

namespace Fits

theorem length_lt (h : Fits d chunks) : chunks.length < wordLimit :=
  Nat.lt_of_le_of_lt (length_le_flatten h.chunk_ne_nil) h.bytes_lt

theorem singleton (h : Fits 0 chunks) : ∃ chunk, chunks = [chunk] :=
  length_eq_one_iff.1
    (Nat.le_antisymm h.length_le (length_pos_of_ne_nil h.ne_nil))

theorem groups_length (h : Fits (d + 1) chunks) :
    (groups (chunkTreeFanout ^ d) chunks).length ≤ chunkTreeFanout := by
  apply length_groups_le
  rw [← pow_succ']
  exact h.length_le

/-- Every group of a tree's chunks has a tree with one level less. -/
theorem piece (h : Fits (d + 1) chunks) {piece : List Bytes}
    (hpiece : piece ∈ groups (chunkTreeFanout ^ d) chunks) : Fits d piece :=
  fits_group h.chunk_ne_nil h.bytes_lt hpiece

end Fits

/-! ## The chunks of a file -/

section

variable (profile : ChunkingProfile) (wholeSmallFile : Bool)

/-- The chunks that `appendChunks` pushes. -/
def chunksOf (source : Bytes) : List Bytes :=
  if source = [] then [] else if wholeSmallFile then [source] else (fastCdc profile).chunks source

/-- The chunks of a file. -/
def fileChunks (source : Bytes) : List Bytes :=
  chunksOf profile (decide (source.length ≤ profile.maximumBytes)) source

theorem flatten_chunksOf (source : Bytes) :
    (chunksOf profile wholeSmallFile source).flatten = source := by
  unfold chunksOf
  split
  next hnil => rw [hnil, flatten_nil]
  next =>
    split
    next => rw [flatten_singleton]
    next => exact Cutter.chunks_flatten _ source

theorem flatten_fileChunks (source : Bytes) : (fileChunks profile source).flatten = source :=
  flatten_chunksOf profile _ _

theorem chunksOf_ne_nil (source : Bytes) :
    ∀ chunk ∈ chunksOf profile wholeSmallFile source, chunk ≠ [] := by
  intro chunk hchunk
  unfold chunksOf at hchunk
  split at hchunk
  · cases hchunk
  rename_i hne
  split at hchunk
  next =>
    rw [mem_singleton.1 hchunk]
    exact hne
  next => exact Cutter.chunk_ne_nil _ source chunk hchunk

end

section Trees

variable (env : ContentEnv Id)

def chunkChild (chunk : Bytes) : Child Id := ⟨env.identify (chunkObject chunk), chunk.length, 1⟩

/-- The node over `children`; what it is for children without a record does not matter. -/
def treeNode (children : List (Child Id)) : Child Id :=
  match treeRecord children with
  | .ok (tree, logicalBytes, chunkCount) => ⟨env.identify tree, logicalBytes, chunkCount⟩
  | .error _ => ⟨env.identify (chunkObject []), 0, 0⟩

/-- The root of the tree with `d` levels over `chunks`. -/
def treeChild : Nat → List Bytes → Child Id :=
  packed chunkTreeFanout (treeNode env) fun chunks => chunkChild env chunks.flatten

/-- The children of a root with `d` levels below it. -/
def treeChildren (d : Nat) (chunks : List Bytes) : List (Child Id) :=
  (groups (chunkTreeFanout ^ d) chunks).map (treeChild env d)

theorem treeChild_zero (chunks : List Bytes) :
    treeChild env 0 chunks = chunkChild env chunks.flatten := rfl

theorem treeChild_succ (d : Nat) (chunks : List Bytes) :
    treeChild env (d + 1) chunks = treeNode env (treeChildren env d chunks) := rfl

theorem length_treeChildren (h : Fits (d + 1) chunks) :
    (treeChildren env d chunks).length ≤ chunkTreeFanout := by
  rw [treeChildren, length_map]
  exact h.groups_length

theorem treeChildren_lt (h : Fits (d + 1) chunks) : (treeChildren env d chunks).length < 65536 :=
  Nat.lt_of_le_of_lt (length_treeChildren env h) (by decide)

/-- The sums over the children are the totals of the chunks. -/
theorem sums_of_totals
    (htotals : ∀ piece ∈ groups (chunkTreeFanout ^ d) chunks,
      (treeChild env d piece).logicalBytes = piece.flatten.length ∧
        (treeChild env d piece).chunkCount = piece.length) :
    ((treeChildren env d chunks).map Child.logicalBytes).sum = chunks.flatten.length ∧
      ((treeChildren env d chunks).map Child.chunkCount).sum = chunks.length := by
  have hflat := flatten_groups (n := chunkTreeFanout ^ d) chunks
  constructor
  · have hpieces : (treeChildren env d chunks).map Child.logicalBytes =
        ((groups (chunkTreeFanout ^ d) chunks).map flatten).map length := by
      rw [treeChildren, map_map, map_map]
      exact map_congr_left fun piece hpiece => (htotals piece hpiece).1
    rw [hpieces, ← length_flatten, ← flatten_flatten, hflat]
  · have hpieces : (treeChildren env d chunks).map Child.chunkCount =
        (groups (chunkTreeFanout ^ d) chunks).map length := by
      rw [treeChildren, map_map]
      exact map_congr_left fun piece hpiece => (htotals piece hpiece).2
    rw [hpieces, ← length_flatten, hflat]

/-- The record of a root, from the totals of its children. -/
theorem treeRecord_of_totals (h : Fits (d + 1) chunks)
    (htotals : ∀ piece ∈ groups (chunkTreeFanout ^ d) chunks,
      (treeChild env d piece).logicalBytes = piece.flatten.length ∧
        (treeChild env d piece).chunkCount = piece.length) :
    treeRecord (treeChildren env d chunks) =
      .ok (treeObject (treeChildren env d chunks) (treeChildren_lt env h).le,
        chunks.flatten.length, chunks.length) := by
  obtain ⟨hbytes, hcount⟩ := sums_of_totals env htotals
  rw [treeRecord_eq (treeChildren_lt env h) (hbytes ▸ h.bytes_lt) (hcount ▸ h.length_lt), hbytes,
    hcount]

/-- A root carries the totals of its chunks. -/
theorem treeChild_totals {d : Nat} {chunks : List Bytes} (h : Fits d chunks) : (treeChild env d
    chunks).logicalBytes = chunks.flatten.length ∧ (treeChild env d chunks).chunkCount =
    chunks.length := by
  induction d generalizing chunks with
  | zero =>
    obtain ⟨_, rfl⟩ := h.singleton
    exact ⟨rfl, rfl⟩
  | succ _ ih =>
    rw [treeChild_succ, treeNode,
      treeRecord_of_totals env h fun piece hpiece => ih (h.piece hpiece)]
    exact ⟨rfl, rfl⟩

theorem sum_treeChildren (h : Fits (d + 1) chunks) :
    ((treeChildren env d chunks).map Child.logicalBytes).sum = chunks.flatten.length ∧
      ((treeChildren env d chunks).map Child.chunkCount).sum = chunks.length :=
  sums_of_totals env fun _ hpiece => treeChild_totals env (h.piece hpiece)

theorem treeRecord_children (h : Fits (d + 1) chunks) :
    treeRecord (treeChildren env d chunks) =
      .ok (treeObject (treeChildren env d chunks) (treeChildren_lt env h).le,
        chunks.flatten.length, chunks.length) :=
  treeRecord_of_totals env h fun _ hpiece => treeChild_totals env (h.piece hpiece)

theorem treeChild_eq (h : Fits (d + 1) chunks) :
    treeChild env (d + 1) chunks =
      ⟨env.identify (treeObject (treeChildren env d chunks) (treeChildren_lt env h).le),
        chunks.flatten.length, chunks.length⟩ := by
  rw [treeChild_succ, treeNode, treeRecord_children env h]

/-! ## Stores that have a tree -/

/-- A store `has` every record of the tree over `chunks`. -/
def Held (has : Id → ObjectRecord Id → Prop) : Nat → List Bytes → Prop
  | 0, chunks => has (treeChild env 0 chunks).id (chunkObject chunks.flatten)
  | d + 1, chunks =>
    (∃ tree totals, treeRecord (treeChildren env d chunks) = .ok (tree, totals) ∧
      has (treeChild env (d + 1) chunks).id tree) ∧
    ∀ piece ∈ groups (chunkTreeFanout ^ d) chunks, Held has d piece

variable {has has' : Id → ObjectRecord Id → Prop}

theorem Held.mono (hmono : ∀ id record, has id record → has' id record) {d : Nat}
    {chunks : List Bytes} (h : Held env has d chunks) : Held env has' d chunks := by
  induction d generalizing chunks with
  | zero =>
    exact hmono _ _ h
  | succ _ ih =>
    obtain ⟨⟨tree, totals, htree, hroot⟩, hpieces⟩ := h
    exact ⟨⟨tree, totals, htree, hmono _ _ hroot⟩, fun piece hpiece => ih (hpieces piece hpiece)⟩

theorem held_root (h : Held env has d chunks) :
    ∃ record, has (treeChild env d chunks).id record := by
  cases d with
  | zero => exact ⟨_, h⟩
  | succ =>
    obtain ⟨⟨tree, _, _, hroot⟩, _⟩ := h
    exact ⟨tree, hroot⟩

theorem Held.root (hfits : Fits (d + 1) chunks) (h : Held env has (d + 1) chunks) :
    has (treeChild env (d + 1) chunks).id
      (treeObject (treeChildren env d chunks) (treeChildren_lt env hfits).le) := by
  obtain ⟨⟨_, _, htree, hroot⟩, _⟩ := h
  rw [treeRecord_children env hfits] at htree
  cases htree
  exact hroot

/-! ## Files -/

/-- The root of the tree of a file, absent for an empty one. -/
def contentRoot (chunks : List Bytes) : Option Id :=
  if chunks = [] then none
  else some (treeChild env (Nat.clog chunkTreeFanout chunks.length) chunks).id

/-- The file record of a list of chunks. -/
def canonicalObject (profile : ChunkingProfile) (chunks : List Bytes) :
    ObjectRecord Id :=
  fileObject profile chunks.flatten.length chunks.length (contentRoot env chunks)

/-- The token of a file with these chunks. -/
def canonicalFile (profile : ChunkingProfile) (chunks : List Bytes) :
    VerifiedContent Id :=
  ⟨⟨⟨env.identify (canonicalObject env profile chunks), chunks.flatten.length, chunks.length,
    profile⟩, contentRoot env chunks⟩⟩

/-- A store `has` the file record and the tree. -/
structure HeldFile (has : Id → ObjectRecord Id → Prop)
    (profile : ChunkingProfile) (chunks : List Bytes) : Prop where
  file : has (env.identify (canonicalObject env profile chunks))
    (canonicalObject env profile chunks)
  tree : chunks ≠ [] → Held env has (Nat.clog chunkTreeFanout chunks.length) chunks

variable {env} in
theorem HeldFile.mono {profile : ChunkingProfile} {chunks : List Bytes}
    (h : HeldFile env has profile chunks) (hmono : ∀ id record, has id record → has' id record) :
    HeldFile env has' profile chunks where
  file := hmono _ _ h.file
  tree hnil := (h.tree hnil).mono env hmono

end Trees

end Astrid.Content
