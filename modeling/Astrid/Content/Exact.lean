import Astrid.Content.Accepted
import Astrid.Content.Built
import Astrid.Content.Window

/-!
# Verification is exact

A validating read of a whole file accepts a file exactly if it is the file that the builder
makes of the bytes it returns. Three facts meet here. A walk that succeeds has seen the
canonical tree of a chunk list, so the root is a function of the chunks. The window accepts
exactly the chunk lists all of whose boundaries are cuts, which are the chunkings of their
concatenation. And the builder makes the tree of that chunking.

The reader multiplies the number of chunks below a node by the maximum chunk size, in 64
bits. A tree so large that a full child of its root overflows is built, but cannot be
read: `ReadableCount` is the exact condition.
-/

namespace Astrid.Content

open Std List

variable {profile : ChunkingProfile}

/-! ## Chunkings -/

section Chunkings

theorem Sized.cons {chunk : Bytes} {rest : List Bytes} (hle : chunk.length ≤ profile.maximumBytes)
    (hge : rest ≠ [] → profile.minimumBytes / 2 * 2 ≤ chunk.length)
    (hrest : Sized profile true rest) : Sized profile true (chunk :: rest) := by
  have hgeRest := hrest.ge
  refine ⟨forall_mem_cons.2 ⟨hle, hrest.le⟩, ?_⟩
  cases rest with
  | nil => exact nofun
  | cons => exact forall_mem_cons.2 ⟨hge (cons_ne_nil _ _), hgeRest⟩

theorem sized_chunks (profile : ChunkingProfile) (source : Bytes) :
    Sized profile true ((fastCdc profile).chunks source) := by
  induction source using (fastCdc profile).chunks_induction with
  | nil =>
    refine ⟨fun chunk hchunk => ?_, fun chunk hchunk => ?_⟩
    · cases hchunk
    · cases hchunk
  | cut source hne ih =>
    have hcut : (source.take (cutOf profile source)).length = cutOf profile source :=
      length_take_of_le (cutOf_le profile source)
    rw [Cutter.chunks_of_ne_nil _ hne]
    refine Sized.cons (hcut.symm ▸ (cutOf_le_min profile source).trans (min_le_right _ _))
      (fun hrest => ?_) ih
    show _ ≤ (source.take (cutOf profile source)).length
    rw [hcut]
    -- Not the last chunk: there are bytes behind the cut.
    apply (cutOf_bounds _).1
    by_contra hall
    apply hrest
    show (fastCdc profile).chunks (source.drop (cutOf profile source)) = []
    rw [drop_of_length_le (Nat.not_lt.1 hall), Cutter.chunks_nil]

theorem sized_fileChunks (profile : ChunkingProfile) (source : Bytes) :
    Sized profile true (fileChunks profile source) := by
  unfold fileChunks chunksOf
  split
  next =>
    refine ⟨fun chunk hchunk => ?_, fun chunk hchunk => ?_⟩
    · cases hchunk
    · cases hchunk
  next =>
    split
    next hsmall =>
      refine ⟨fun chunk hchunk => ?_, fun chunk hchunk => ?_⟩
      · rw [mem_singleton.1 hchunk]
        exact of_decide_eq_true hsmall
      · cases hchunk
    next => exact sized_chunks profile source

/-- Every boundary is canonical, and so is the end of a file of more than one chunk. -/
structure CanonicalChunks (profile : ChunkingProfile) (chunks : List Bytes) : Prop where
  pairs : chunks.IsChain fun left right => isCanonicalBoundary profile left (right.take 2) = true
  final : 1 < chunks.length → ∀ last ∈ chunks.getLast?, isCanonicalFinalChunk profile last = true

/-- The window's checks are those of a cutter with two bytes of lookahead. -/
theorem checked_iff {chunks : List Bytes} (h : chunks ≠ []) (hne : ∀ chunk ∈ chunks, chunk ≠ [])
    (hsized : Sized profile true chunks) :
    ((fastCdc profile).Checked chunks ↔
      chunks.IsChain (fun left right => isCanonicalBoundary profile left (right.take 2) = true) ∧
      ∀ last ∈ chunks.getLast?, isCanonicalFinalChunk profile last = true) := by
  induction chunks with
  | nil =>
    exact absurd rfl h
  | cons left rest ih =>
    have hleft := hne left mem_cons_self
    cases rest with
    | nil =>
      show left ≠ [] ∧ _ ↔ _
      rw [← isCanonicalFinalChunk_iff]
      refine ⟨fun h => ⟨.singleton _, fun last hlast => ?_⟩, fun h => h.2 left rfl⟩
      cases hlast
      exact h
    | cons right rest =>
      have hright := hne right (mem_cons_of_mem _ mem_cons_self)
      have hsupported := profile.supported
      have hsplit := (Sized.split (show Sized profile true ([left] ++ right :: rest) from hsized)
        (cons_ne_nil _ _)).2
      -- The next chunk is as long as the window unless it ends the file.
      have hwide : 2 ≤ right.length ∨ rest = [] := by
        cases rest with
        | nil => exact .inr rfl
        | cons =>
          have hge := hsplit.ge right
            (by rw [if_pos rfl, dropLast_cons_cons]; exact mem_cons_self)
          omega
      have htake : right.take 2 ≠ [] := by
        rw [ne_eq, take_eq_nil_iff, not_or]
        exact ⟨by decide, hright⟩
      have hrest := ih (cons_ne_nil _ _) (forall_mem_cons.1 hne).2 hsplit
      show left ≠ [] ∧ right ≠ [] ∧ (2 ≤ right.length ∨ rest = []) ∧
        (fastCdc profile).cut (left ++ right.take 2) = left.length ∧
          (fastCdc profile).Checked (right :: rest) ↔ _
      rw [isChain_cons_cons, isCanonicalBoundary_iff, hrest]
      constructor
      · rintro ⟨_, _, _, hcut, hpairs, hfinal⟩
        exact ⟨⟨⟨hleft, htake, hcut⟩, hpairs⟩, hfinal⟩
      · rintro ⟨⟨⟨_, _, hcut⟩, hpairs⟩, hfinal⟩
        exact ⟨hleft, hright, hwide, hcut, hpairs, hfinal⟩

/-- Canonical chunks are the chunks of a file, and the chunks of a file are canonical. -/
theorem canonicalChunks_iff {chunks : List Bytes} (hnil : chunks ≠ [])
    (hne : ∀ chunk ∈ chunks, chunk ≠ []) (hsized : Sized profile true chunks)
    (hthreshold : chunks.length = 1 ↔ chunks.flatten.length ≤ profile.maximumBytes) :
    CanonicalChunks profile chunks ↔ chunks = fileChunks profile chunks.flatten := by
  have hflat : chunks.flatten ≠ [] := by
    apply ne_nil_of_length_pos
    have := length_le_flatten hne
    omega
  unfold fileChunks chunksOf
  rw [if_neg hflat]
  by_cases hone : chunks.length = 1
  · -- One chunk is a whole small file.
    obtain ⟨_, rfl⟩ := length_eq_one_iff.1 hone
    rw [if_pos (decide_eq_true (hthreshold.1 hone)), flatten_singleton]
    refine ⟨fun _ => rfl, fun _ => ⟨.singleton _, fun hlong => ?_⟩⟩
    exact absurd hlong (lt_irrefl 1)
  · rw [if_neg (fun h => hone (hthreshold.2 (of_decide_eq_true h)))]
    have hlong : 1 < chunks.length := by
      have := length_pos_of_ne_nil hnil
      omega
    have hchecked := checked_iff hnil hne hsized
    constructor
    · intro h
      have hall : (fastCdc profile).Checked chunks := hchecked.2 ⟨h.pairs, h.final hlong⟩
      exact (Cutter.Checked.chunks_eq (fastCdc profile) (by decide) hall).symm
    · intro h
      have hall := (fastCdc profile).checked_chunks (by decide) chunks.flatten
      rw [← h] at hall
      obtain ⟨hpairs, hfinal⟩ := hchecked.1 hall
      exact ⟨hpairs, fun _ => hfinal⟩

end Chunkings

/-! ## Reading a whole file -/

section Read

variable {Id E : Type} {env : ContentEnv Id} {source : ContentSource Id E}

/-- A source answers one way. -/
theorem functional_serves (source : ContentSource Id E) : Functional (Serves source) := by
  intro id record record' h h'
  rw [Serves, h] at h'
  cases h'
  rfl

/-- The largest full subtree below the root of a file with so many chunks stays within 64
bits. -/
def ReadableCount (profile : ChunkingProfile) (count : Nat) : Prop :=
  ∀ k < Nat.clog chunkTreeFanout count, chunkTreeFanout ^ k * profile.maximumBytes < wordLimit

variable {chunks : List Bytes} {d : Nat}

/-- Leaves of a whole file are all in its range. -/
theorem filter_leaves_whole {keep : Bool} (hfits : Fits d chunks) :
    (leaves env keep d [] 0 chunks).filter
      (RequestedRange.selects ⟨0, chunks.flatten.length⟩) = leaves env keep d [] 0 chunks := by
  rw [filter_eq_self]
  intro leaf hleaf
  obtain ⟨hchunk, hwithin⟩ := leaves_mem hfits leaf hleaf
  have hpos := length_pos_of_ne_nil (hfits.chunk_ne_nil _ hchunk)
  unfold RequestedRange.selects RequestedRange.overlaps
  rw [Bool.and_eq_true, decide_eq_true_eq, decide_eq_true_eq]
  dsimp only
  omega

variable [DecidableEq Id] {window : BoundaryWindow Id} {range : RequestedRange}
  {leaf : LoadedChunk Id}

/-- A visit of a leaf that lies in the range takes all of its bytes. -/
theorem visit_whole {output : Bytes} (hstart : range.start ≤ leaf.start)
    (hstop : leaf.start + leaf.bytes.length ≤ range.stop) :
    visit range profile ⟨output, some window⟩ leaf =
      (window.observe leaf profile).map fun window => ⟨output ++ leaf.bytes, some window⟩ := by
  have hslice : slice leaf.bytes (max range.start leaf.start - leaf.start)
      (min range.stop (leaf.start + leaf.bytes.length) - leaf.start -
        (max range.start leaf.start - leaf.start)) = leaf.bytes := by
    have hfrom : max range.start leaf.start - leaf.start = 0 := by omega
    have hto : min range.stop (leaf.start + leaf.bytes.length) - leaf.start - 0 =
        leaf.bytes.length := by omega
    rw [hfrom, hto, slice, drop_zero, take_length]
  unfold visit RangeTraversal.observe
  dsimp only
  rw [hslice]
  cases window.observe leaf profile with
  | error | ok => rfl

theorem visitAll_whole {visited : List (LoadedChunk Id)} {output : Bytes}
    {window : BoundaryWindow Id} (hrange : ∀ leaf ∈ visited,
      range.start ≤ leaf.start ∧ leaf.start + leaf.bytes.length ≤ range.stop) :
    visited.foldlM (visit range profile) ⟨output, some window⟩ =
      (visited.foldlM (fun (window : BoundaryWindow Id) leaf => window.observe leaf profile)
        window).map fun window =>
          ⟨output ++ (visited.map LoadedChunk.bytes).flatten, some window⟩ := by
  induction visited generalizing output window with
  | nil =>
    rw [map_nil, flatten_nil, append_nil]
    rfl
  | cons leaf _ ih =>
    obtain ⟨hstart, hstop⟩ := hrange leaf mem_cons_self
    rw [foldlM_cons, foldlM_cons, visit_whole hstart hstop, map_cons, flatten_cons, ← append_assoc]
    cases window.observe leaf profile with
    | error => rfl
    | ok => exact ih (forall_mem_cons.1 hrange).2

/-- The first leaf opens the window. -/
theorem observe_first (hlast : window.last = none) (hne : leaf.bytes ≠ []) :
    window.observe leaf profile = .ok { window with
      firstStart := some leaf.start
      firstPrefix := window.firstPrefix ++ leaf.bytes.take 2
      firstPath := window.firstPath ++ leaf.path
      last := some leaf } := by
  unfold BoundaryWindow.observe
  rw [require_pos hne, hlast]
  rfl

/-- At the end of a whole file only the final chunk is left to check. -/
theorem validateNeighbors_whole {content : Id} {treeDepth : Nat} {shape : ExpectedShape}
    {last : LoadedChunk Id} (hfirst : window.firstStart = some 0) (hlast : window.last = some last)
    (hstop : last.start + last.bytes.length = shape.logicalBytes)
    (hword : shape.logicalBytes < wordLimit) :
    window.validateNeighbors source content treeDepth shape shape.logicalBytes =
      (require (1 < shape.chunkCount → isCanonicalFinalChunk shape.profile last.bytes = true)
        (.content (.invalidObject last.object
          "final chunk violates the declared FastCDC profile")) >>= fun _ =>
        .ok { window with last := none }) := by
  have hend : last.stop = .ok shape.logicalBytes := by
    unfold LoadedChunk.stop toWord
    rw [require_pos (by omega), ← hstop]
    exact okOr_eq_ok.2 (checkedAdd_eq_some.2 ⟨rfl, by omega⟩)
  simp only [BoundaryWindow.validateNeighbors, hfirst, hlast, hend, okOr, ok_bind, mapError_ok,
    if_neg (lt_irrefl _)]
  rfl

/-- The leaves of a whole file run through a new window. -/
theorem observeFile (hfits : Fits d chunks) (hheld : Held env (Serves source) d chunks) :
    ((∃ after, (leaves env true d [] 0 chunks).foldlM
        (fun (window : BoundaryWindow Id) leaf => window.observe leaf profile) (.new none) =
          .ok after) ↔
      chunks.IsChain fun left right => isCanonicalBoundary profile left (right.take 2) = true) ∧
    ∀ after, (leaves env true d [] 0 chunks).foldlM
        (fun (window : BoundaryWindow Id) leaf => window.observe leaf profile) (.new none) =
          .ok after →
      after.firstStart = some 0 ∧ ∃ last, after.last = some last ∧
        chunks.getLast? = some last.bytes ∧
        last.start + last.bytes.length = chunks.flatten.length := by
  have hbytes : (leaves env true d [] 0 chunks).map LoadedChunk.bytes = chunks := leaves_bytes hfits
  have hchain : (leaves env true d [] 0 chunks).IsChain (Adjacent env (Serves source)) :=
    leaves_chain hfits hheld
  have hhead : ∀ leaf ∈ (leaves env true d [] 0 chunks).head?, FirstLeaf true [] 0 chunks leaf :=
    leaves_head hfits
  have hlast : ∀ leaf ∈ (leaves env true d [] 0 chunks).getLast?, LastLeaf true [] 0 chunks leaf :=
    leaves_last hfits
  have hwithin : ∀ leaf ∈ leaves env true d [] 0 chunks,
      leaf.bytes ≠ [] ∧ leaf.start + leaf.bytes.length < wordLimit := by
    intro leaf hleaf
    obtain ⟨hchunk, hwithin⟩ := leaves_mem hfits leaf hleaf
    have hword := hfits.bytes_lt
    exact ⟨hfits.chunk_ne_nil _ hchunk, by omega⟩
  have hne : leaves env true d [] 0 chunks ≠ [] := leaves_ne_nil hfits
  generalize leaves env true d [] 0 chunks = visited at *
  cases visited with
  | nil => exact absurd rfl hne
  | cons first rest =>
    obtain ⟨hstart, _, _⟩ := hhead first rfl
    have hopen : (.new none : BoundaryWindow Id).observe first profile = _ :=
      observe_first rfl (hwithin first mem_cons_self).1
    rw [foldlM_cons, hopen]
    have hnone : WindowOk env (Serves source) ({ (.new none : BoundaryWindow Id) with
        firstStart := some first.start
        firstPrefix := [] ++ first.bytes.take 2
        firstPath := [] ++ first.path
        last := some first }) := by
      intro edge hedge
      cases hedge
    have hrest : (_ ↔ (first :: rest).IsChain (CanonicalPair profile)) ∧ _ :=
      observeAll_iff (functional_serves source) hnone rfl hchain hwithin
    obtain ⟨hiff, hafter⟩ := hrest
    constructor
    · rw [← hbytes, isChain_map]
      exact hiff
    · intro after hrun
      obtain ⟨hfirst, hfinal⟩ := hafter after hrun
      have hsome : (first :: rest).getLast? = some ((first :: rest).getLast hne) :=
        getLast?_eq_some_getLast hne
      obtain ⟨hstop, hlastBytes, _⟩ := hlast _ hsome
      refine ⟨?_, _, hfinal.trans hsome, hlastBytes, ?_⟩
      · rw [hfirst, ← hstart]
      · rw [hstop, zero_add]

/-- The opened file of a chunk list under some identity. -/
def openedChunks (env : ContentEnv Id) (file : Id) (profile : ChunkingProfile)
    (chunks : List Bytes) : OpenedContent Id :=
  ⟨⟨file, chunks.flatten.length, chunks.length, profile⟩, contentRoot env chunks⟩

/-- The shape of a whole file. -/
def wholeShape (profile : ChunkingProfile) (chunks : List Bytes) : ExpectedShape :=
  ⟨chunks.flatten.length, chunks.length, profile, true⟩

/-- The root of the tree of a file, as a walk begins with it. -/
def rootNode (env : ContentEnv Id) (profile : ChunkingProfile) (chunks : List Bytes) :
    SelectedNode Id :=
  ⟨(treeChild env (Nat.clog chunkTreeFanout chunks.length) chunks).id, wholeShape profile chunks,
    0, []⟩

/-- A nonempty file whose tree a source has, with chunks of the profile's sizes. -/
structure HeldContent (env : ContentEnv Id) (source : ContentSource Id E)
    (profile : ChunkingProfile) (chunks : List Bytes) : Prop where
  fits : Fits (Nat.clog chunkTreeFanout chunks.length) chunks
  held : Held env (Serves source) (Nat.clog chunkTreeFanout chunks.length) chunks
  sized : Sized profile true chunks

omit [DecidableEq Id] in
theorem HeldContent.pos (h : HeldContent env source profile chunks) : 0 < chunks.flatten.length :=
  Nat.lt_of_lt_of_le (length_pos_of_ne_nil h.fits.ne_nil)
    (length_le_flatten h.fits.chunk_ne_nil)

variable {record : ObjectRecord Id}

/-- A read of a nonempty range, up to the walk. -/
theorem readDecodedRange_eq {file : Id} (h : HeldContent env source profile chunks)
    (hrecord : Serves source (rootNode env profile chunks).object record) {offset length : Nat}
    (hlength : length ≠ 0) (hrange : offset + length ≤ chunks.flatten.length)
    (mode : BoundaryMode Id) :
    readDecodedRange source (openedChunks env file profile chunks) offset length mode =
      (appendLoadedRange source ⟨offset, offset + length⟩ (Nat.clog chunkTreeFanout chunks.length)
        (rootNode env profile chunks) record ⟨[], mode.window⟩ >>= fun traversal =>
      traversal.validateNeighbors source (rootNode env profile chunks).object
        (Nat.clog chunkTreeFanout chunks.length) (wholeShape profile chunks)
        chunks.flatten.length >>= fun delta =>
      require (traversal.output.length = length) (.content
        (.invalidObject file "content tree reconstructed the wrong range length")) >>= fun _ =>
      .ok (traversal.output, delta)) := by
  have hword := h.fits.bytes_lt
  have hadd : checkedAdd offset length = some (offset + length) :=
    checkedAdd_eq_some.2 ⟨rfl, by omega⟩
  have hdepth : canonicalTreeDepth chunks.length = Nat.clog chunkTreeFanout chunks.length :=
    canonicalTreeDepth_eq h.fits.length_lt
  have hroot : contentRoot env chunks = some (rootNode env profile chunks).object :=
    if_neg h.fits.ne_nil
  unfold readDecodedRange openedChunks
  dsimp only
  rw [hadd]
  show (require _ _ >>= _) = _
  rw [require_pos ⟨by omega, hrange⟩, if_neg hlength, hroot]
  show (load source _ >>= _) = _
  rw [load_ok.2 hrecord, hdepth]
  rfl

/-- The walk over a whole file in validating mode. -/
theorem appendLoadedRange_whole (h : HeldContent env source profile chunks)
    (hreadable : ReadableCount profile chunks.length)
    (hrecord : Serves source (rootNode env profile chunks).object record) :
    appendLoadedRange source ⟨0, 0 + chunks.flatten.length⟩
        (Nat.clog chunkTreeFanout chunks.length) (rootNode env profile chunks) record
        ⟨[], some (.new none)⟩ =
      (((leaves env true (Nat.clog chunkTreeFanout chunks.length) [] 0 chunks).foldlM
        (fun (window : BoundaryWindow Id) leaf => window.observe leaf profile) (.new none)).map
          fun window => ⟨chunks.flatten, some window⟩).mapError .content := by
  have hpos := h.pos
  rw [zero_add]
  have hoverlaps : RequestedRange.overlaps ⟨0, chunks.flatten.length⟩ 0 chunks.flatten.length =
      true := by
    unfold RequestedRange.overlaps
    rw [Bool.and_eq_true, decide_eq_true_eq, decide_eq_true_eq]
    dsimp only
    omega
  have hwalk : appendLoadedRange source ⟨0, chunks.flatten.length⟩
      (Nat.clog chunkTreeFanout chunks.length) (rootNode env profile chunks) record
      ⟨[], some (.new none)⟩ = _ :=
    appendLoadedRange_eq (Nat.zero_le _) _ h.fits h.held ⟨rfl, rfl, h.sized⟩ hreadable rfl
      (by show 0 + _ < _; rw [zero_add]; exact h.fits.bytes_lt) hoverlaps hrecord
  have hall : ∀ leaf ∈ leaves env true (Nat.clog chunkTreeFanout chunks.length) [] 0 chunks,
      0 ≤ leaf.start ∧ leaf.start + leaf.bytes.length ≤ chunks.flatten.length := by
    intro leaf hleaf
    have hwithin := leaves_mem h.fits leaf hleaf
    omega
  rw [hwalk]
  show ((((leaves env true _ [] 0 chunks).filter _).foldlM (visit _ profile) _).mapError _) = _
  rw [filter_leaves_whole h.fits, visitAll_whole hall, nil_append, leaves_bytes h.fits]

/-- A validating read of a held file returns its bytes exactly if its chunks are
canonical. -/
theorem readWhole_cases (file : Id) (h : HeldContent env source profile chunks)
    (hreadable : ReadableCount profile chunks.length) :
    (CanonicalChunks profile chunks ∧
      ∃ delta, readDecodedRange source (openedChunks env file profile chunks) 0
        chunks.flatten.length .validate = .ok (chunks.flatten, delta)) ∨
    (¬ CanonicalChunks profile chunks ∧
      ∃ e, readDecodedRange source (openedChunks env file profile chunks) 0
        chunks.flatten.length .validate = .error e) := by
  have hpos := h.pos
  obtain ⟨_, hrecord⟩ := held_root env h.held
  rw [readDecodedRange_eq h hrecord (by omega) (by omega), BoundaryMode.window,
    appendLoadedRange_whole h hreadable hrecord]
  have hobserved : (_ ↔ chunks.IsChain fun left right =>
      isCanonicalBoundary profile left (right.take 2) = true) ∧ _ := observeFile h.fits h.held
  obtain ⟨hiff, hafter⟩ := hobserved
  cases hrun : (leaves env true (Nat.clog chunkTreeFanout chunks.length) [] 0 chunks).foldlM
      (fun (window : BoundaryWindow Id) leaf => window.observe leaf profile) (.new none) with
  | error =>
    refine .inr ⟨fun hcanonical => ?_, _, rfl⟩
    obtain ⟨after, hok⟩ := hiff.2 hcanonical.pairs
    rw [hrun] at hok
    cases hok
  | ok after =>
    obtain ⟨hfirst, last, hlast, hlastBytes, hstop⟩ := hafter after hrun
    have hneighbors : after.validateNeighbors source (rootNode env profile chunks).object
        (Nat.clog chunkTreeFanout chunks.length) (wholeShape profile chunks)
        chunks.flatten.length = _ :=
      validateNeighbors_whole hfirst hlast hstop h.fits.bytes_lt
    show (_ ∧ ∃ delta,
      (BoundaryWindow.delta <$> after.validateNeighbors source _ _ _ _ >>= _) = _) ∨
      (_ ∧ ∃ e, (BoundaryWindow.delta <$> after.validateNeighbors source _ _ _ _ >>= _) = _)
    rw [hneighbors]
    by_cases hfinal : 1 < chunks.length → isCanonicalFinalChunk profile last.bytes = true
    · refine .inl ⟨⟨hiff.1 ⟨after, hrun⟩, fun hlong other hother => ?_⟩, after.delta, ?_⟩
      · rw [hlastBytes] at hother
        cases hother
        exact hfinal hlong
      · rw [require_pos (show 1 < (wholeShape profile chunks).chunkCount →
          isCanonicalFinalChunk (wholeShape profile chunks).profile last.bytes = true from hfinal)]
        rw [require_pos rfl]
        rfl
    · refine .inr ⟨fun hcanonical => hfinal fun hlong => ?_, ?_⟩
      · exact hcanonical.final hlong _ hlastBytes
      · rw [require_neg (show ¬ (1 < (wholeShape profile chunks).chunkCount →
          isCanonicalFinalChunk (wholeShape profile chunks).profile last.bytes = true) from hfinal)]
        exact ⟨_, rfl⟩

end Read

end Astrid.Content
