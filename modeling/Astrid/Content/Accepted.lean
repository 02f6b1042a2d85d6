import Astrid.Content.Leaves

/-!
# What a walk accepts

The other direction: a walk over the whole of a node that succeeds has seen the tree of a
chunk list (`walk_accepted`). Whatever records an adversary offers under their identities,
the node is the root of the canonical tree over the chunks below it, because the counts
alone fix the shape: every child but the last is full, and the depth is given.
-/

namespace Astrid.Content

open Std List

variable {count : Nat}

/-- Pieces that end the file where their parent does are joined again. -/
theorem Sized.join {profile : ChunkingProfile} {endsFile : Bool} {piece : List Bytes}
    {rest : List (List Bytes)} {index : Nat}
    (hfirst : Sized profile (endsFile && index + 1 == count) piece)
    (hrest : Sized profile endsFile rest.flatten) (hcount : index + (rest.length + 1) = count)
    (hne : ∀ other ∈ rest, other ≠ []) : Sized profile endsFile (piece ++ rest.flatten) := by
  cases rest with
  | nil =>
    have hlast : index + 1 = count := by
      rw [← hcount, length_nil]
    rw [hlast, beq_self_eq_true, Bool.and_true] at hfirst
    rw [flatten_nil, append_nil]
    exact hfirst
  | cons next rest =>
    have hnil : (next :: rest).flatten ≠ [] := by
      exact append_ne_nil_of_left_ne_nil (hne next mem_cons_self) _
    have hbefore : index + 1 ≠ count := by
      rw [length_cons] at hcount
      omega
    rw [beq_eq_false_iff_ne.2 hbefore] at hfirst
    have hge := hfirst.ge
    have hge' := hrest.ge
    refine ⟨forall_mem_append.2 ⟨hfirst.le, hrest.le⟩, ?_⟩
    cases endsFile with
    | false => exact forall_mem_append.2 ⟨hge, hge'⟩
    | true =>
      show ∀ chunk ∈ dropLast _, _
      rw [dropLast_append_of_ne_nil hnil]
      exact forall_mem_append.2 ⟨hge, hge'⟩

section Accepted

variable {Id E : Type} {env : ContentEnv Id} {source : ContentSource Id E}

/-- Every record that a source returns has the identity it was asked for. -/
def AddressedSource (env : ContentEnv Id) (source : ContentSource Id E) : Prop :=
  ∀ id record, Serves source id record → env.identify record = id

variable {d : Nat} {shape : ExpectedShape}

/-- Children that are full but for the last come from full pieces. -/
theorem full_of_childrenOk {pieces : List (List Bytes)} {index : Nat}
    (hok : ChildrenOk shape count (chunkTreeFanout ^ d) index (pieces.map (treeChild env d)))
    (hcount : index + pieces.length = count) (hfits : ∀ piece ∈ pieces, Fits d piece) :
    Full (chunkTreeFanout ^ d) pieces := by
  induction pieces generalizing index with
  | nil =>
    trivial
  | cons piece rest ih =>
    have hpiece := hfits piece mem_cons_self
    have hlen := (treeChild_totals env hpiece).2
    rw [length_cons] at hcount
    cases rest with
    | nil => exact ⟨length_pos_of_ne_nil hpiece.ne_nil, hpiece.length_le⟩
    | cons =>
      have hfull := hok.1.full (by rw [length_cons] at hcount; omega)
      refine ⟨hlen.symm.trans hfull, ?_⟩
      exact ih hok.2 (by omega) (forall_mem_cons.1 hfits).2

variable {record : ObjectRecord Id} {treeDepth : Nat}

theorem validateChunk_inv {object : Id} {u : Unit} (hkind : record.kind = .chunk)
    (h : validateChunk object record treeDepth shape = .ok u) :
    record = chunkObject record.canonicalBytes ∧ treeDepth = 0 ∧
      Shaped shape [record.canonicalBytes] ∧ record.canonicalBytes ≠ [] ∧
      record.canonicalBytes.length < wordLimit := by
  simp only [validateChunk, toWord, bind_eq_ok, require_eq_ok] at h
  obtain ⟨_, ⟨_, hlen, hactual⟩, _, ⟨hversion, hcls, hlogical, hreferences, hbytes, hcount, hdepth⟩,
    hbounds⟩ := h
  cases hactual
  have hsupported := shape.profile.supported
  obtain ⟨_, hleast, hmost⟩ := validateProfileBounds_inv hbounds
  rw [hcount, one_mul] at hmost
  have hpos : 0 < record.canonicalBytes.length := by
    rw [hcount] at hleast
    cases hends : shape.endsFile with
    | false =>
      rw [hends, if_neg Bool.false_ne_true] at hleast
      omega
    | true =>
      rw [hends, if_pos rfl] at hleast
      omega
  have hshaped : Shaped shape [record.canonicalBytes] := by
    refine ⟨by rw [flatten_singleton, hbytes], hcount, ?_, ?_⟩
    · intro chunk hchunk
      rw [mem_singleton.1 hchunk]
      exact hmost
    · intro chunk hchunk
      cases hends : shape.endsFile with
      | false =>
        rw [hends] at hchunk hleast
        rw [mem_singleton.1 hchunk]
        rw [hcount, one_mul] at hleast
        exact hleast
      | true =>
        rw [hends] at hchunk
        cases hchunk
  refine ⟨?_, hdepth, hshaped, ne_nil_of_length_pos hpos, hlen⟩
  obtain ⟨_, _, _, _, _, _, _⟩ := record
  subst hkind hversion hcls hlogical hreferences
  rfl

variable [DecidableEq Id]

/-- A walk with `d` levels below that succeeds on the whole of a node has seen the tree of a
chunk list. -/
def WalksAccepted (env : ContentEnv Id) (source : ContentSource Id E) (range : RequestedRange)
    (d : Nat) : Prop :=
  ∀ {node : SelectedNode Id} {record : ObjectRecord Id} {traversal traversal' : RangeTraversal Id},
    appendLoadedRange source range d node record traversal = .ok traversal' →
    range.start ≤ node.baseOffset → node.baseOffset + node.shape.logicalBytes ≤ range.stop →
    node.shape.logicalBytes < wordLimit → Serves source node.object record →
    ∃ chunks, Fits d chunks ∧ Held env (Serves source) d chunks ∧ Shaped node.shape chunks ∧
      node.object = (treeChild env d chunks).id

variable {range : RequestedRange} {node : SelectedNode Id}
  {traversal traversal' : RangeTraversal Id}

theorem walk_accepted_chunk (haddressed : AddressedSource env source)
    (h : appendChunkRange range treeDepth node record traversal = .ok traversal')
    (hkind : record.kind = .chunk) (hrecord : Serves source node.object record) :
    treeDepth = 0 ∧ ∃ chunks, Fits 0 chunks ∧ Held env (Serves source) 0 chunks ∧
      Shaped node.shape chunks ∧ node.object = (treeChild env 0 chunks).id := by
  obtain ⟨_, hvalidate, _⟩ := bind_eq_ok.1 h
  obtain ⟨heq, hdepth, hshaped, hne, hlen⟩ := validateChunk_inv hkind hvalidate
  have hidentity := haddressed _ _ hrecord
  have hflat : [record.canonicalBytes].flatten = record.canonicalBytes := flatten_singleton
  have hobject : node.object = (treeChild env 0 [record.canonicalBytes]).id := by
    rw [treeChild_zero, hflat, ← hidentity]
    exact congrArg env.identify heq
  refine ⟨hdepth, [record.canonicalBytes], ⟨cons_ne_nil _ _, Nat.le_refl 1, ?_, ?_⟩, ?_,
    hshaped, hobject⟩
  · intro chunk hchunk
    rw [mem_singleton.1 hchunk]
    exact hne
  · rw [hflat]
    exact hlen
  · show Serves source (treeChild env 0 [record.canonicalBytes]).id _
    rw [hflat, ← hobject, ← heq]
    exact hrecord

/-- All children of a node in range are selected, and each of them is accepted. -/
theorem walkChildren_accepted {capacity : Nat} (haccepted : WalksAccepted env source range d)
    {keep : Bool} : ∀ {children : List (Child Id)} {index cursor : Nat}
      {selected : List (SelectedNode Id)} {records : List (ObjectRecord Id)}
      {traversal traversal' : RangeTraversal Id},
      ChildrenOk node.shape count capacity index children → index + children.length = count →
      selectChildren range node count keep index cursor children = .ok selected →
      List.Forall₂ (Serves source) (selected.map SelectedNode.object) records →
      (selected.zip records).foldlM (fun traversal visit =>
        appendLoadedRange source range d visit.1 visit.2 traversal) traversal = .ok traversal' →
      range.start ≤ node.baseOffset →
      node.baseOffset + (cursor + (children.map Child.logicalBytes).sum) ≤ range.stop →
      ∃ pieces : List (List Bytes), children = pieces.map (treeChild env d) ∧
        (∀ piece ∈ pieces, Fits d piece) ∧
        (∀ piece ∈ pieces, Held env (Serves source) d piece) ∧
        Sized node.shape.profile node.shape.endsFile pieces.flatten := by
  intro children
  induction children with
  | nil =>
    intro index cursor selected records traversal traversal' _ _ _ _ _ _ _
    refine ⟨[], rfl, fun piece hpiece => ?_, fun piece hpiece => ?_, fun chunk hchunk => ?_,
      fun chunk hchunk => ?_⟩
    · cases hpiece
    · cases hpiece
    · cases hchunk
    · cases hends : node.shape.endsFile <;> rw [hends] at hchunk <;> cases hchunk
  | cons child rest ih =>
    intro index cursor selected records traversal traversal' hok hcount hselect hrecords hrun
      hstart hstop
    obtain ⟨hchild, hrestOk⟩ := hok
    rw [length_cons] at hcount
    rw [map_cons, sum_cons] at hstop
    have hpos := hchild.logicalBytes_pos
    simp only [selectChildren, bind_eq_ok, okOr_eq_ok, checkedAdd_eq_some] at hselect
    obtain ⟨_, ⟨rfl, _⟩, _, ⟨rfl, _⟩, _, ⟨rfl, _⟩, _, hfirst, _, hothers, hout⟩ :=
      hselect
    cases hout
    rw [if_pos ⟨by omega, by omega⟩] at hfirst
    obtain ⟨_, _, hfirst⟩ := bind_eq_ok.1 hfirst
    cases hfirst
    cases hrecords with
    | @cons _ _ _ _ hrecord hrecords =>
      obtain ⟨_, hwalk, hrun⟩ := bind_eq_ok.1 hrun
      obtain ⟨piece, hfits, hheld, hshaped, hobject⟩ := haccepted hwalk
        (by show range.start ≤ node.baseOffset + cursor; omega)
        (by show node.baseOffset + cursor + child.logicalBytes ≤ range.stop; omega)
        (by show child.logicalBytes < wordLimit; omega) hrecord
      obtain ⟨pieces, hpieces, hfitsRest, hheldRest, hsized⟩ :=
        ih hrestOk (by omega) hothers hrecords hrun hstart (by omega)
      obtain ⟨hbytes, hchunks⟩ := treeChild_totals env hfits
      have hchildEq : child = treeChild env d piece := by
        obtain ⟨id, logicalBytes, chunkCount⟩ := child
        have hbytesEq : logicalBytes = piece.flatten.length := hshaped.bytes_eq
        have hcountEq : chunkCount = piece.length := hshaped.count_eq
        have hid : id = (treeChild env d piece).id := hobject
        rw [hid, hbytesEq, hcountEq, ← hbytes, ← hchunks]
      have hlength : rest.length = pieces.length := by
        rw [hpieces, length_map]
      refine ⟨piece :: pieces, ?_, ?_, ?_, ?_⟩
      · rw [map_cons, ← hchildEq, ← hpieces]
      · exact forall_mem_cons.2 ⟨hfits, hfitsRest⟩
      · exact forall_mem_cons.2 ⟨hheld, hheldRest⟩
      · exact hshaped.sized.join hsized (by omega) fun other hother =>
          (hfitsRest other hother).ne_nil

/-- A tree node is accepted if its children are. -/
theorem walk_accepted_tree (haddressed : AddressedSource env source)
    (hcapacity : chunkTreeFanout ^ d < wordLimit) (haccepted : WalksAccepted env source range d)
    (h : appendLoadedRange source range (d + 1) node record traversal = .ok traversal')
    (hkind : record.kind = .chunkTree) (hstart : range.start ≤ node.baseOffset)
    (hstop : node.baseOffset + node.shape.logicalBytes ≤ range.stop)
    (hword : node.shape.logicalBytes < wordLimit) (hrecord : Serves source node.object record) :
    ∃ chunks, Fits (d + 1) chunks ∧ Held env (Serves source) (d + 1) chunks ∧
      Shaped node.shape chunks ∧ node.object = (treeChild env (d + 1) chunks).id := by
  unfold appendLoadedRange at h
  rw [hkind] at h
  simp only [bind_eq_ok, mapError_eq_ok] at h
  obtain ⟨children, hdecode, _, hselect, _, hload, hrun⟩ := h
  obtain ⟨htree, heq⟩ := decodeTree_inv hkind hdecode
  have hok := htree.children
  have hcap : treeCapacity (d + 1 - 1) = chunkTreeFanout ^ d := treeCapacity_eq hcapacity
  rw [hcap] at hok
  obtain ⟨pieces, hpieces, hfits, hheld, hsized⟩ := walkChildren_accepted haccepted hok
    (zero_add _) hselect (loadMany_ok.1 hload) hrun hstart
    (by rw [htree.bytes_eq]; omega)
  have hlength : children.length = pieces.length := by
    rw [hpieces, length_map]
  -- The counts make the pieces the groups of their concatenation.
  have hfull : Full (chunkTreeFanout ^ d) pieces := by
    rw [hpieces] at hok
    exact full_of_childrenOk hok (by rw [zero_add, length_map]) hfits
  have hgroups : groups (chunkTreeFanout ^ d) pieces.flatten = pieces := hfull.groups_eq
  have hchildren : treeChildren env d pieces.flatten = children := by
    rw [treeChildren, hgroups, hpieces]
  have htotals : ∀ piece ∈ groups (chunkTreeFanout ^ d) pieces.flatten,
      (treeChild env d piece).logicalBytes = piece.flatten.length ∧
        (treeChild env d piece).chunkCount = piece.length :=
    fun piece hpiece => treeChild_totals env (hfits piece (hgroups ▸ hpiece))
  have hsums := sums_of_totals env htotals
  rw [hchildren, htree.bytes_eq, htree.count_eq] at hsums
  have hnil : pieces ≠ [] := by
    intro hnil
    rw [hpieces, hnil] at htree
    exact htree.ne_nil rfl
  have hall : Fits (d + 1) pieces.flatten := by
    refine ⟨?_, ?_, ?_, hsums.1 ▸ hword⟩
    · rw [ne_eq, flatten_eq_nil_iff]
      intro hempty
      obtain ⟨piece, hpiece⟩ := exists_mem_of_ne_nil _ hnil
      exact (hfits piece hpiece).ne_nil (hempty piece hpiece)
    · have hmost := (hfull.length_flatten hnil).2
      have hmul := Nat.mul_le_mul_right (chunkTreeFanout ^ d) (hlength ▸ htree.length_le)
      rw [pow_succ']
      omega
    · intro chunk hchunk
      obtain ⟨piece, hpiece, hmem⟩ := mem_flatten.1 hchunk
      exact (hfits piece hpiece).chunk_ne_nil chunk hmem
  have hobject : node.object = (treeChild env (d + 1) pieces.flatten).id := by
    rw [treeChild_eq env hall, ← haddressed _ _ hrecord]
    subst heq
    simp only [hchildren]
  refine ⟨pieces.flatten, hall, ⟨⟨_, _, treeRecord_children env hall, ?_⟩, ?_⟩,
    ⟨hsums.1, hsums.2, hsized⟩, hobject⟩
  · rw [← hobject]
    subst heq
    simp only [hchildren]
    exact hrecord
  · rw [hgroups]
    exact hheld

/-- A successful walk over the whole of a node has seen the canonical tree of its chunks. -/
theorem walk_accepted (haddressed : AddressedSource env source) :
    ∀ d : Nat, (∀ k < d, chunkTreeFanout ^ k < wordLimit) → WalksAccepted env source range d := by
  intro d
  induction d with
  | zero =>
    intro _ node record traversal traversal' h _ _ _ hrecord
    unfold appendLoadedRange at h
    split at h
    next hkind => exact (walk_accepted_chunk haddressed (mapError_eq_ok.1 h) hkind hrecord).2
    next => cases h
    next => cases h
  | succ d ih =>
    intro hcapacity node record traversal traversal' h hstart hstop hword hrecord
    by_cases hkind : record.kind = .chunkTree
    · exact walk_accepted_tree haddressed (hcapacity d (Nat.lt_succ_self d))
        (ih fun k hk => hcapacity k (Nat.lt_succ_of_lt hk)) h hkind hstart hstop hword hrecord
    -- A chunk is refused above the lowest level, and so is any other kind.
    unfold appendLoadedRange at h
    split at h
    next hchunk =>
      have hdepth := (walk_accepted_chunk haddressed (mapError_eq_ok.1 h) hchunk hrecord).1
      cases hdepth
    next htree => exact absurd htree hkind
    next => cases h

end Accepted

end Astrid.Content
