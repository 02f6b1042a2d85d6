import Astrid.Content.Decode

/-!
# A walk visits the chunks

On a store that holds the tree of a chunk list, the reader's walk is a fold over the
chunks that overlap the range, from left to right (`appendLoadedRange_eq`): every check of
a record succeeds, and what is left of the walk is what happens at its leaves.
-/

namespace Astrid.Content

open Std List

variable {profile : ChunkingProfile} {chunks : List Bytes}

/-! ## Sizes -/

section Sizes

variable {endsFile : Bool}

/-- No chunk is larger than the maximum, and none but the last of a file is smaller than
the even minimum. -/
structure Sized (profile : ChunkingProfile) (endsFile : Bool) (chunks : List Bytes) : Prop where
  le : ∀ chunk ∈ chunks, chunk.length ≤ profile.maximumBytes
  ge : ∀ chunk ∈ (if endsFile then chunks.dropLast else chunks),
    profile.minimumBytes / 2 * 2 ≤ chunk.length

variable {bound : Nat}

theorem length_flatten_le (h : ∀ chunk ∈ chunks, chunk.length ≤ bound) :
    chunks.flatten.length ≤ chunks.length * bound := by
  have hsum := sum_le_card_nsmul (chunks.map length) bound (by simpa using h)
  simpa using hsum

theorem le_length_flatten (h : ∀ chunk ∈ chunks, bound ≤ chunk.length) :
    chunks.length * bound ≤ chunks.flatten.length := by
  have hsum := card_nsmul_le_sum (chunks.map length) bound (by simpa using h)
  simpa using hsum

theorem Sized.inBounds (h : Sized profile endsFile chunks) (hnil : chunks ≠ [])
    (hne : ∀ chunk ∈ chunks, chunk ≠ []) :
    InBounds profile endsFile chunks.flatten.length chunks.length := by
  refine ⟨?_, length_flatten_le h.le⟩
  have hge := h.ge
  cases endsFile with
  | false => exact le_length_flatten hge
  | true =>
    -- All but the last chunk have the minimum size, and the last one is not empty.
    rw [if_pos rfl] at hge ⊢
    have hfront := le_length_flatten hge
    have hlast : 0 < (chunks.getLast hnil).length :=
      length_pos_of_ne_nil (hne _ (getLast_mem hnil))
    have hsplit : chunks.flatten.length =
        chunks.dropLast.flatten.length + (chunks.getLast hnil).length := by
      conv_lhs => rw [← dropLast_append_getLast hnil]
      rw [flatten_append, length_append, flatten_singleton]
    rw [length_dropLast] at hfront
    omega

variable {piece : List Bytes}

/-- A piece with chunks behind it, and these. -/
theorem Sized.split {rest : List Bytes} (h : Sized profile endsFile (piece ++ rest))
    (hrest : rest ≠ []) : Sized profile false piece ∧ Sized profile endsFile rest := by
  have hge := h.ge
  refine ⟨⟨(forall_mem_append.1 h.le).1, ?_⟩,
    (forall_mem_append.1 h.le).2, ?_⟩
  · intro chunk hchunk
    apply hge chunk
    cases endsFile with
    | false => exact mem_append_left _ hchunk
    | true =>
      rw [dropLast_append_of_ne_nil hrest]
      exact mem_append_left _ hchunk
  · intro chunk hchunk
    apply hge chunk
    cases endsFile with
    | false => exact mem_append_right _ hchunk
    | true =>
      rw [dropLast_append_of_ne_nil hrest]
      exact mem_append_right _ hchunk

/-- The piece at `index` of `count` pieces, and those behind it: only the last one ends the
file where its parent does. -/
theorem Sized.child {rest : List (List Bytes)} {index count : Nat}
    (h : Sized profile endsFile (piece ++ rest.flatten))
    (hcount : index + (rest.length + 1) = count) (hne : ∀ other ∈ rest, other ≠ []) :
    Sized profile (endsFile && index + 1 == count) piece ∧ Sized profile endsFile rest.flatten := by
  cases rest with
  | nil =>
    rw [flatten_nil, append_nil] at h
    have hlast : index + 1 = count := by
      rw [← hcount, length_nil]
    rw [hlast, beq_self_eq_true, Bool.and_true]
    refine ⟨h, fun chunk hchunk => ?_, fun chunk hchunk => ?_⟩
    · cases hchunk
    · cases endsFile <;> cases hchunk
  | cons next rest =>
    have hrest : (next :: rest).flatten ≠ [] := by
      exact append_ne_nil_of_left_ne_nil (hne next mem_cons_self) _
    have hbefore : index + 1 ≠ count := by
      rw [length_cons] at hcount
      omega
    rw [beq_eq_false_iff_ne.2 hbefore, Bool.and_false]
    exact h.split hrest

end Sizes

/-! ## Shapes -/

section Shapes

variable {Id : Type} {env : ContentEnv Id} {shape : ExpectedShape} {d count : Nat}

theorem childOk_of_sized {index : Nat} {piece : List Bytes} (hfits : Fits d piece)
    (hmaximum : chunkTreeFanout ^ d * shape.profile.maximumBytes < wordLimit)
    (hsized : Sized shape.profile (shape.endsFile && index + 1 == count) piece)
    (hfull : index + 1 < count → piece.length = chunkTreeFanout ^ d) :
    ChildOk shape count (chunkTreeFanout ^ d) index (treeChild env d piece) := by
  obtain ⟨hbytes, hcount⟩ := treeChild_totals env hfits
  have hlen : 0 < piece.length := length_pos_of_ne_nil hfits.ne_nil
  have hle := length_le_flatten hfits.chunk_ne_nil
  refine ⟨by omega, by omega, ?_, ?_, ?_, ?_⟩
  · rw [hcount]
    exact hfits.length_le
  · rw [hcount]
    exact hfull
  · rw [hcount]
    exact Nat.lt_of_le_of_lt (Nat.mul_le_mul_right _ hfits.length_le) hmaximum
  · rw [hbytes, hcount]
    exact hsized.inBounds hfits.ne_nil hfits.chunk_ne_nil

theorem childrenOk_of_sized
    (hmaximum : chunkTreeFanout ^ d * shape.profile.maximumBytes < wordLimit)
    {pieces : List (List Bytes)} {index : Nat} (hcount : index + pieces.length = count)
    (hfits : ∀ piece ∈ pieces, Fits d piece) (hfull : Full (chunkTreeFanout ^ d) pieces)
    (hsized : Sized shape.profile shape.endsFile pieces.flatten) :
    ChildrenOk shape count (chunkTreeFanout ^ d) index (pieces.map (treeChild env d)) := by
  induction pieces generalizing index with
  | nil =>
    trivial
  | cons piece rest ih =>
    have hpiece := hfits piece mem_cons_self
    rw [length_cons] at hcount
    obtain ⟨hfirst, hsized⟩ := hsized.child hcount
      fun other hother => (hfits other (mem_cons_of_mem _ hother)).ne_nil
    have hrest : Full (chunkTreeFanout ^ d) rest := by
      cases rest with
      | nil => trivial
      | cons => exact hfull.2
    refine ⟨childOk_of_sized hpiece hmaximum hfirst fun hlt => ?_,
      ih (by omega) (forall_mem_cons.1 hfits).2 hrest hsized⟩
    -- A child with others behind it is full.
    cases rest with
    | nil =>
      rw [length_nil] at hcount
      omega
    | cons => exact hfull.1

/-- The shape that a parent announces for the tree over `chunks`. -/
structure Shaped (shape : ExpectedShape) (chunks : List Bytes) : Prop where
  bytes_eq : shape.logicalBytes = chunks.flatten.length
  count_eq : shape.chunkCount = chunks.length
  sized : Sized shape.profile shape.endsFile chunks

section

variable (hfits : Fits (d + 1) chunks) (hshaped : Shaped shape chunks)
  (hmaximum : chunkTreeFanout ^ d * shape.profile.maximumBytes < wordLimit)

include hfits hshaped hmaximum

theorem treeOk_of_shaped : TreeOk shape (d + 1) (treeChildren env d chunks) := by
  have hsupported := shape.profile.supported
  have hcapacity : treeCapacity d = chunkTreeFanout ^ d := by
    apply treeCapacity_eq
    exact Nat.lt_of_le_of_lt (Nat.le_mul_of_pos_right _ (by omega)) hmaximum
  have hflat := flatten_groups (n := chunkTreeFanout ^ d) chunks
  obtain ⟨hbytes, hcount⟩ := sum_treeChildren env hfits
  refine ⟨?_, length_treeChildren env hfits, ?_, ?_, ?_⟩
  · rw [treeChildren, ne_eq, map_eq_nil_iff]
    exact groups_ne_nil hfits.ne_nil
  · rw [hbytes, hshaped.bytes_eq]
  · rw [hcount, hshaped.count_eq]
  · show ChildrenOk shape _ (treeCapacity d) 0 _
    rw [hcapacity]
    apply childrenOk_of_sized hmaximum ?_ (fun piece hpiece => hfits.piece hpiece)
      (full_groups chunks)
    · rw [hflat]
      exact hshaped.sized
    · rw [treeChildren, length_map, zero_add]

/-- The record of a tree decodes to its children. -/
theorem decodeTree_shaped {object : Id} :
    decodeTree object (treeObject (treeChildren env d chunks) (treeChildren_lt env hfits).le)
      (d + 1) shape = .ok (treeChildren env d chunks) := by
  apply decodeTree_ok (treeOk_of_shaped hfits hshaped hmaximum)
  · rw [hshaped.bytes_eq]
    exact hfits.bytes_lt
  · rw [hshaped.count_eq]
    exact hfits.length_lt

end

end Shapes

/-! ## Leaves -/

section Leaves

variable {Id : Type} (env : ContentEnv Id) (keep : Bool)

/-- The leaves below consecutive children of one node, from `index` on. -/
def childLeaves (below : List (TreeStep Id) → Nat → List Bytes → List (LoadedChunk Id))
    (tree : Id) (path : List (TreeStep Id)) (count : Nat) :
    Nat → Nat → List (List Bytes) → List (LoadedChunk Id)
  | _, _, [] => []
  | index, base, piece :: rest =>
    below (if keep then path ++ [⟨tree, index, count⟩] else []) base piece ++
      childLeaves below tree path count (index + 1) (base + piece.flatten.length) rest

/-- The chunks of a tree as a walk meets them, from `base` on; a walk that checks no
boundaries keeps no paths. -/
def leaves : Nat → List (TreeStep Id) → Nat → List Bytes → List (LoadedChunk Id)
  | 0, path, base, chunks =>
    [⟨(chunkChild env chunks.flatten).id, base, chunks.flatten, path⟩]
  | d + 1, path, base, chunks =>
    childLeaves keep (leaves d) (treeChild env (d + 1) chunks).id path
      (groups (chunkTreeFanout ^ d) chunks).length 0 base (groups (chunkTreeFanout ^ d) chunks)

/-- The chunks that a range overlaps. -/
def RequestedRange.overlaps (range : RequestedRange) (start length : Nat) : Bool :=
  range.start < start + length && start < range.stop

def RequestedRange.selects (range : RequestedRange) (leaf : LoadedChunk Id) : Bool :=
  range.overlaps leaf.start leaf.bytes.length

/-- What happens at a leaf. -/
def visit [DecidableEq Id] (range : RequestedRange) (profile : ChunkingProfile)
    (traversal : RangeTraversal Id) (leaf : LoadedChunk Id) :
    Except (ContentError Id) (RangeTraversal Id) := do
  let boundaries ← traversal.observe leaf profile
  let start := max range.start leaf.start - leaf.start
  let stop := min range.stop (leaf.start + leaf.bytes.length) - leaf.start
  pure ⟨traversal.output ++ slice leaf.bytes start (stop - start), boundaries⟩

variable {env keep} {path : List (TreeStep Id)}

/-- Chunks with their offsets. -/
def placed : Nat → List Bytes → List (Nat × Bytes)
  | _, [] => []
  | base, chunk :: rest => (base, chunk) :: placed (base + chunk.length) rest

theorem placed_append (front back : List Bytes) (base : Nat) : placed base (front ++ back) = placed
    base front ++ placed (base + front.flatten.length) back := by
  induction front generalizing back base with
  | nil =>
    rfl
  | cons _ _ ih =>
    rw [cons_append, placed, placed, ih, flatten_cons, length_append, add_assoc, cons_append]

theorem placed_mem {start base : Nat} {bytes : Bytes} {chunks : List Bytes}
    (h : (start, bytes) ∈ placed base chunks) : bytes ∈ chunks ∧ base ≤ start ∧
      start + bytes.length ≤ base + chunks.flatten.length := by
  induction chunks generalizing base with
  | nil => cases h
  | cons _ _ ih =>
    rw [flatten_cons, length_append]
    rcases mem_cons.1 h with heq | hrest
    · cases heq
      exact ⟨mem_cons_self, le_rfl, by omega⟩
    · obtain ⟨hmem, hwithin⟩ := ih hrest
      exact ⟨mem_cons_of_mem _ hmem, by omega⟩

/-- The leaves carry the chunks in their order, each at its offset. -/
theorem leaves_placed {d : Nat} {path : List (TreeStep Id)} {base : Nat} {chunks : List Bytes}
    (hfits : Fits d chunks) : (leaves env keep d path base chunks).map (fun leaf => (leaf.start,
    leaf.bytes)) = placed base chunks := by
  induction d generalizing path base chunks with
  | zero =>
    obtain ⟨_, rfl⟩ := hfits.singleton
    rw [leaves, flatten_singleton]
    rfl
  | succ d ih =>
    have hpieces : ∀ (pieces : List (List Bytes)) (index start : Nat) (tree : Id) (count : Nat),
        (∀ piece ∈ pieces, Fits d piece) →
        (childLeaves keep (leaves env keep d) tree path count index start pieces).map
          (fun leaf => (leaf.start, leaf.bytes)) = placed start pieces.flatten := by
      intro pieces
      induction pieces with
      | nil =>
        intro index start tree count _
        rfl
      | cons piece _ ihrest =>
        intro index start tree count hfits
        rw [childLeaves, map_append, ih (hfits piece mem_cons_self),
          ihrest _ _ _ _ (forall_mem_cons.1 hfits).2, flatten_cons,
          placed_append]
    rw [leaves, hpieces _ _ _ _ _ fun piece hpiece => hfits.piece hpiece, flatten_groups]

/-- A leaf is a chunk of its node and lies within it. -/
theorem leaves_mem {d base : Nat} {chunks : List Bytes} (hfits : Fits d chunks) :
    ∀ leaf ∈ leaves env keep d path base chunks, leaf.bytes ∈ chunks ∧ base ≤ leaf.start ∧
      leaf.start + leaf.bytes.length ≤ base + chunks.flatten.length := by
  intro leaf hleaf
  have hmem := mem_map_of_mem (f := fun leaf => (leaf.start, leaf.bytes)) hleaf
  rw [leaves_placed hfits] at hmem
  exact placed_mem hmem

/-- A node outside the range has no leaves in it. -/
theorem filter_leaves_eq_nil {range : RequestedRange} {d base : Nat} {chunks : List Bytes}
    (hfits : Fits d chunks) (h : range.overlaps base chunks.flatten.length = false) :
    (leaves env keep d path base chunks).filter range.selects = [] := by
  rw [filter_eq_nil_iff]
  intro leaf hleaf hselects
  have hwithin := leaves_mem hfits leaf hleaf
  unfold RequestedRange.selects RequestedRange.overlaps at hselects
  unfold RequestedRange.overlaps at h
  rw [Bool.and_eq_true, decide_eq_true_eq, decide_eq_true_eq] at hselects
  rw [Bool.and_eq_false_iff, decide_eq_false_iff_not, decide_eq_false_iff_not] at h
  omega

end Leaves

/-! ## The walk -/

section Walk

variable {Id E : Type}

/-- A source answers with a record. -/
def Serves (source : ContentSource Id E) (id : Id) (record : ObjectRecord Id) : Prop :=
  source id = .ok (some record)

variable {source : ContentSource Id E}

theorem load_ok {id : Id} {record : ObjectRecord Id} :
    load source id = .ok record ↔ Serves source id record := by
  simp only [load, bind_eq_ok, mapError_eq_ok, okOr_eq_ok, Serves]
  constructor
  · rintro ⟨_, hsource, rfl⟩
    exact hsource
  · intro h
    exact ⟨_, h, rfl⟩

theorem loadMany_ok {ids : List Id} {records : List (ObjectRecord Id)} :
    loadMany source ids = .ok records ↔ List.Forall₂ (Serves source) ids records := by
  simp only [loadMany, bind_eq_ok, mapError_eq_ok, mapM_eq_ok]
  constructor
  · rintro ⟨answers, hanswers, hrecords⟩
    induction hanswers generalizing records with
    | nil =>
      cases hrecords
      exact .nil
    | cons hanswer _ ih =>
      cases hrecords with
      | cons hrecord hrest =>
        refine .cons ?_ (ih hrest)
        exact hanswer.trans (congrArg _ (okOr_eq_ok.1 hrecord))
  · intro h
    refine ⟨records.map some, ?_, ?_⟩
    · induction h with
      | nil => exact .nil
      | cons hserves _ ih => exact .cons hserves ih
    · induction h with
      | nil => exact .nil
      | cons _ _ ih => exact .cons rfl ih

theorem validateChunk_ok {object : Id} {chunk : Bytes} {shape : ExpectedShape}
    (hlen : chunk.length < wordLimit) (hne : chunk ≠ []) (hshaped : Shaped shape [chunk]) :
    validateChunk object (chunkObject chunk) 0 shape = .ok () := by
  have hsupported := shape.profile.supported
  have hword : wordLimit = 18446744073709551616 := rfl
  have hbytes := hshaped.bytes_eq
  rw [flatten_singleton] at hbytes
  have hbounds := hshaped.sized.inBounds (cons_ne_nil _ _) fun c hc => by
    rw [mem_singleton.1 hc]
    exact hne
  rw [flatten_singleton, ← hshaped.count_eq] at hbounds
  have hcount : shape.chunkCount = 1 := hshaped.count_eq
  unfold validateChunk toWord
  rw [require_pos (show (chunkObject chunk : ObjectRecord Id).canonicalBytes.length < wordLimit
    from hlen)]
  show (require _ _ >>= _) = _
  rw [require_pos ⟨rfl, rfl, rfl, rfl, hbytes.symm, hcount, rfl⟩]
  apply validateProfileBounds_ok
  · rw [hcount]
    omega
  · exact hbounds

variable {range : RequestedRange} {count : Nat} {node : SelectedNode Id}

theorem selectChildren_cons {keep : Bool} {index cursor : Nat} {child : Child Id}
    {rest : List (Child Id)} {others : List (SelectedNode Id)} (hindex : index < 65536)
    (hend : node.baseOffset + (cursor + child.logicalBytes) < wordLimit)
    (hrest : selectChildren range node count keep (index + 1) (cursor + child.logicalBytes) rest =
      .ok others) :
    selectChildren range node count keep index cursor (child :: rest) =
      .ok ((if range.overlaps (node.baseOffset + cursor) child.logicalBytes = true then
          [⟨child.id, node.shape.child child index count, node.baseOffset + cursor,
            if keep then node.path ++ [⟨node.object, index, count⟩] else []⟩]
        else []) ++ others) := by
  have hchildEnd : checkedAdd cursor child.logicalBytes = some (cursor + child.logicalBytes) :=
    checkedAdd_eq_some.2 ⟨rfl, by omega⟩
  have hchildBase : checkedAdd node.baseOffset cursor = some (node.baseOffset + cursor) :=
    checkedAdd_eq_some.2 ⟨rfl, by omega⟩
  have hchildStop : checkedAdd node.baseOffset (cursor + child.logicalBytes) =
      some (node.baseOffset + (cursor + child.logicalBytes)) :=
    checkedAdd_eq_some.2 ⟨rfl, hend⟩
  have hoverlaps : range.overlaps (node.baseOffset + cursor) child.logicalBytes = true ↔
      range.start < node.baseOffset + (cursor + child.logicalBytes) ∧
        node.baseOffset + cursor < range.stop := by
    rw [RequestedRange.overlaps, Bool.and_eq_true, decide_eq_true_eq, decide_eq_true_eq, add_assoc]
  simp only [selectChildren, hchildEnd, hchildBase, hchildStop, okOr, ok_bind]
  by_cases hin : range.start < node.baseOffset + (cursor + child.logicalBytes) ∧
      node.baseOffset + cursor < range.stop
  · rw [if_pos hin, if_pos (hoverlaps.2 hin), require_pos hindex, hrest]
    rfl
  · rw [if_neg hin, if_neg (fun h => hin (hoverlaps.1 h)), hrest]
    rfl

variable [DecidableEq Id]

theorem visit_isSome {traversal traversal' : RangeTraversal Id} {leaf : LoadedChunk Id}
    (h : visit range profile traversal leaf = .ok traversal') :
    traversal'.boundaries.isSome = traversal.boundaries.isSome := by
  obtain ⟨_, hobserve, hout⟩ := bind_eq_ok.1 h
  cases hout
  unfold RangeTraversal.observe at hobserve
  split at hobserve
  next hnone =>
    cases hobserve
    rw [hnone]
  next window hsome =>
    cases hwindow : window.observe leaf profile with
    | error =>
      rw [hwindow] at hobserve
      cases hobserve
    | ok =>
      rw [hwindow] at hobserve
      cases hobserve
      rw [hsome]
      rfl

theorem foldlM_visit_isSome {visited : List (LoadedChunk Id)}
    {traversal traversal' : RangeTraversal Id}
    (h : visited.foldlM (visit range profile) traversal = .ok traversal') :
    traversal'.boundaries.isSome = traversal.boundaries.isSome := by
  induction visited generalizing traversal traversal' with
  | nil =>
    cases h
    rfl
  | cons _ _ ih =>
    obtain ⟨_, hvisit, hrest⟩ := bind_eq_ok.1 h
    rw [ih hrest, visit_isSome hvisit]

/-- On the tree of `chunks`, the walk with `d` levels below visits the leaves in range. -/
def WalksLeaves (env : ContentEnv Id) (source : ContentSource Id E) (range : RequestedRange)
    (d : Nat) : Prop :=
  ∀ {node : SelectedNode Id} {chunks : List Bytes} {record : ObjectRecord Id}
    {traversal : RangeTraversal Id},
    Fits d chunks → Held env (Serves source) d chunks → Shaped node.shape chunks →
    (∀ k < d, chunkTreeFanout ^ k * node.shape.profile.maximumBytes < wordLimit) →
    node.object = (treeChild env d chunks).id →
    node.baseOffset + chunks.flatten.length < wordLimit →
    range.overlaps node.baseOffset chunks.flatten.length = true →
    Serves source node.object record →
    appendLoadedRange source range d node record traversal =
      (((leaves env traversal.boundaries.isSome d node.path node.baseOffset chunks).filter
        range.selects).foldlM (visit range node.shape.profile) traversal).mapError .content

variable {env : ContentEnv Id}

theorem appendLoadedRange_chunk (hrange : range.start ≤ range.stop) :
    WalksLeaves env source range 0 := by
  intro node chunks record traversal hfits hheld hshaped _ hobject hbase hoverlaps hrecord
  obtain ⟨chunk, rfl⟩ := hfits.singleton
  have hflat : [chunk].flatten = chunk := flatten_singleton
  have hserves : Serves source node.object (chunkObject [chunk].flatten) := hobject ▸ hheld
  have heq : record = chunkObject chunk := by
    rw [Serves, hrecord, hflat] at hserves
    cases hserves
    rfl
  subst heq
  have hne : chunk ≠ [] := hfits.chunk_ne_nil chunk (mem_singleton_self chunk)
  have hbytes := hshaped.bytes_eq
  rw [hflat] at hbase hoverlaps hbytes
  have hselects : ([⟨node.object, node.baseOffset, chunk, node.path⟩] :
    List (LoadedChunk Id)).filter
      range.selects = [⟨node.object, node.baseOffset, chunk, node.path⟩] :=
    filter_cons_of_pos hoverlaps
  have hleaves : leaves env traversal.boundaries.isSome 0 node.path node.baseOffset [chunk] =
      [⟨node.object, node.baseOffset, chunk, node.path⟩] := by
    rw [leaves, hobject, treeChild_zero, hflat]
  have hend : checkedAdd node.baseOffset node.shape.logicalBytes =
      some (node.baseOffset + chunk.length) := by
    rw [hbytes]
    exact checkedAdd_eq_some.2 ⟨rfl, hbase⟩
  unfold RequestedRange.overlaps at hoverlaps
  rw [Bool.and_eq_true, decide_eq_true_eq] at hoverlaps
  rw [hleaves, hselects, foldlM_cons]
  show (appendChunkRange range 0 node (chunkObject chunk) traversal).mapError
    ContentReadError.content = _
  unfold appendChunkRange visit
  rw [validateChunk_ok (by omega) hne hshaped]
  -- Both sides observe the chunk first.
  show Except.mapError _ (traversal.observe ⟨node.object, node.baseOffset, chunk, node.path⟩
    node.shape.profile >>= _) = _
  cases traversal.observe ⟨node.object, node.baseOffset, chunk, node.path⟩
      node.shape.profile with
  | error => rfl
  | ok =>
    rw [hend]
    show Except.mapError _ (require _ _ >>= _) = _
    rw [require_pos]
    · rfl
    · show max range.start node.baseOffset - node.baseOffset ≤
          min range.stop (node.baseOffset + chunk.length) - node.baseOffset ∧
        min range.stop (node.baseOffset + chunk.length) - node.baseOffset ≤ chunk.length
      omega

variable {d : Nat}

/-- The children in range: selected, loaded and walked, they are the leaves in range. -/
theorem walkChildren (hwalks : WalksLeaves env source range d) (keep : Bool)
    (hmaximum : ∀ k < d, chunkTreeFanout ^ k * node.shape.profile.maximumBytes < wordLimit) :
    ∀ {pieces : List (List Bytes)} {index cursor : Nat}, index + pieces.length = count →
      count ≤ 65536 → (∀ piece ∈ pieces, Fits d piece) →
      (∀ piece ∈ pieces, Held env (Serves source) d piece) →
      Sized node.shape.profile node.shape.endsFile pieces.flatten →
      node.baseOffset + cursor + pieces.flatten.flatten.length < wordLimit →
      ∃ selected records,
        selectChildren range node count keep index cursor (pieces.map (treeChild env d)) =
          .ok selected ∧
        List.Forall₂ (Serves source) (selected.map SelectedNode.object) records ∧
        ∀ traversal : RangeTraversal Id, traversal.boundaries.isSome = keep →
          (selected.zip records).foldlM (fun traversal visit =>
            appendLoadedRange source range d visit.1 visit.2 traversal) traversal =
          (((childLeaves keep (leaves env keep d) node.object node.path count index
            (node.baseOffset + cursor) pieces).filter range.selects).foldlM
              (visit range node.shape.profile) traversal).mapError .content := by
  intro pieces
  induction pieces with
  | nil =>
    intro index cursor _ _ _ _ _ _
    exact ⟨[], [], rfl, .nil, fun _ _ => rfl⟩
  | cons piece _ ih =>
    intro index cursor hcount hlimit hfits hheld hsized hend
    rw [length_cons] at hcount
    rw [flatten_cons, flatten_append, length_append] at hend
    have hpiece := hfits piece mem_cons_self
    have hpieceHeld := hheld piece mem_cons_self
    obtain ⟨hbytes, hchunks⟩ := treeChild_totals env hpiece
    obtain ⟨hsizedPiece, hsizedRest⟩ := hsized.child hcount
      fun other hother => (hfits other (mem_cons_of_mem _ hother)).ne_nil
    have hshaped : Shaped (node.shape.child (treeChild env d piece) index count) piece :=
      ⟨hbytes, hchunks, hsizedPiece⟩
    obtain ⟨selected, records, hselect, hrecords, hrun⟩ :=
      @ih (index + 1) (cursor + piece.flatten.length) (by omega) hlimit
        (forall_mem_cons.1 hfits).2
        (forall_mem_cons.1 hheld).2 hsizedRest (by omega)
    rw [← add_assoc] at hrun
    rw [← hbytes] at hselect
    have hcons := selectChildren_cons (by omega) (by omega) hselect
    rw [hbytes] at hcons
    by_cases hoverlaps :
        range.overlaps (node.baseOffset + cursor) piece.flatten.length = true
    · -- The child is selected, loaded and walked before the others.
      obtain ⟨record, hrecord⟩ := held_root env hpieceHeld
      rw [if_pos hoverlaps] at hcons
      refine ⟨_, record :: records, hcons, .cons hrecord hrecords, ?_⟩
      intro traversal hkeep
      have hwalk := @hwalks ⟨(treeChild env d piece).id,
        node.shape.child (treeChild env d piece) index count, node.baseOffset + cursor,
        if keep then node.path ++ [⟨node.object, index, count⟩] else []⟩ piece record traversal
        hpiece hpieceHeld hshaped hmaximum rfl
        (by show node.baseOffset + cursor + piece.flatten.length < wordLimit; omega) hoverlaps
          hrecord
      rw [hkeep] at hwalk
      rw [childLeaves, filter_append, foldlM_append]
      show (appendLoadedRange source range d _ record traversal >>= _) = _
      rw [hwalk]
      show ((foldlM (visit range node.shape.profile) traversal _).mapError _ >>= _) = _
      cases hfirst : foldlM (visit range node.shape.profile) traversal
          ((leaves env keep d (if keep then node.path ++ [⟨node.object, index, count⟩] else [])
            (node.baseOffset + cursor) piece).filter range.selects) with
      | error => rfl
      | ok next => exact hrun next ((foldlM_visit_isSome hfirst).trans hkeep)
    · -- Nothing of the child is in range.
      rw [if_neg hoverlaps] at hcons
      refine ⟨selected, records, hcons, hrecords, ?_⟩
      intro traversal hkeep
      rw [hrun traversal hkeep, childLeaves, filter_append,
        filter_leaves_eq_nil hpiece (Bool.not_eq_true _ ▸ hoverlaps), nil_append]

theorem appendLoadedRange_tree (hwalks : WalksLeaves env source range d) :
    WalksLeaves env source range (d + 1) := by
  intro node chunks record traversal hfits hheld hshaped hmaximum hobject hbase _ hrecord
  have heq : record = treeObject (treeChildren env d chunks) (treeChildren_lt env hfits).le := by
    have hroot : Serves source node.object _ := hobject ▸ hheld.root env hfits
    rw [Serves, hrecord] at hroot
    cases hroot
    rfl
  subst heq
  have hdecode : decodeTree node.object
      (treeObject (treeChildren env d chunks) (treeChildren_lt env hfits).le) (d + 1) node.shape =
        .ok (treeChildren env d chunks) :=
    decodeTree_shaped hfits hshaped (hmaximum d (Nat.lt_succ_self d))
  have hlength : (treeChildren env d chunks).length =
      (groups (chunkTreeFanout ^ d) chunks).length := length_map _
  have hflat := flatten_groups (n := chunkTreeFanout ^ d) chunks
  obtain ⟨_, _, hselect, hrecords, hrun⟩ := walkChildren hwalks
    traversal.boundaries.isSome
    (fun k hk => hmaximum k (Nat.lt_succ_of_lt hk)) (zero_add _)
    (hlength ▸ (treeChildren_lt env hfits).le) (fun piece hpiece => hfits.piece hpiece) hheld.2
    (by rw [hflat]; exact hshaped.sized)
    (show node.baseOffset + 0 + _ < wordLimit by rw [hflat]; exact hbase)
  have hwalk := hrun traversal rfl
  show (Except.mapError _ (decodeTree _ _ _ _) >>= _) = _
  rw [hdecode, mapError_ok, ok_bind, hlength]
  show (Except.mapError _ (selectChildren range node _ _ 0 0
    ((groups (chunkTreeFanout ^ d) chunks).map (treeChild env d))) >>= _) = _
  rw [hselect, mapError_ok, ok_bind, loadMany_ok.2 hrecords, ok_bind, hwalk, hobject]
  rfl

/-- On a store that holds the tree, a walk is a fold over the leaves in range. -/
theorem appendLoadedRange_eq (hrange : range.start ≤ range.stop) :
    ∀ d : Nat, WalksLeaves env source range d := by
  intro d
  induction d with
  | zero => exact appendLoadedRange_chunk hrange
  | succ _ ih => exact appendLoadedRange_tree ih

end Walk

end Astrid.Content
