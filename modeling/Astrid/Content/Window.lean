import Astrid.Content.Leaves

/-!
# The boundary window

The window sees the leaves of a tree from left to right and checks each boundary once. It
skips a boundary whose tree edge it has seen before. That is sound because a tree is
determined by its identity (`tree_unique`): the chunks on the two sides of an edge are the
same wherever the tree occurs. So the window accepts a list of leaves exactly if every
boundary between neighbours is canonical (`observeAll_iff`).
-/

namespace Astrid.Content

open Std List

variable {Id : Type} {env : ContentEnv Id} {tree : Id} {has : Id → ObjectRecord Id → Prop}
  {index : Nat}

/-! ## Leaves in order -/

theorem map_snd_placed : ∀ (chunks : List Bytes) (base : Nat),
    (placed base chunks).map Prod.snd = chunks
  | [], _ => rfl
  | chunk :: rest, base => congrArg (chunk :: ·) (map_snd_placed rest (base + chunk.length))

section Order

variable {keep : Bool}

/-- The first leaf begins where the node does. -/
structure FirstLeaf (keep : Bool) (path : List (TreeStep Id)) (base : Nat) (chunks : List Bytes)
    (leaf : LoadedChunk Id) : Prop where
  start_eq : leaf.start = base
  bytes_eq : chunks.head? = some leaf.bytes
  below : keep = true → ∃ rest, leaf.path = path ++ rest

/-- The last leaf ends where the node does. -/
structure LastLeaf (keep : Bool) (path : List (TreeStep Id)) (base : Nat) (chunks : List Bytes)
    (leaf : LoadedChunk Id) : Prop where
  stop_eq : leaf.start + leaf.bytes.length = base + chunks.flatten.length
  bytes_eq : chunks.getLast? = some leaf.bytes
  below : keep = true → ∃ rest, leaf.path = path ++ rest

variable {path : List (TreeStep Id)} {d base : Nat}

theorem leaves_bytes {chunks : List Bytes} (hfits : Fits d chunks) :
    (leaves env keep d path base chunks).map LoadedChunk.bytes = chunks := by
  have hplaced : (leaves env keep d path base chunks).map (fun leaf => (leaf.start, leaf.bytes)) =
      placed base chunks := leaves_placed hfits
  have hbytes := congrArg (map Prod.snd) hplaced
  rwa [map_map, map_snd_placed] at hbytes

theorem leaves_ne_nil {chunks : List Bytes} (hfits : Fits d chunks) :
    leaves env keep d path base chunks ≠ [] := by
  intro hnil
  have hbytes := @leaves_bytes _ env keep path d base _ hfits
  rw [hnil] at hbytes
  exact hfits.ne_nil hbytes.symm

/-- The path of a leaf goes on from that of its node. -/
theorem leaves_below (hkeep : keep = true) {d : Nat} {path : List (TreeStep Id)} {base : Nat}
    {chunks : List Bytes} :
    ∀ leaf ∈ leaves env keep d path base chunks, ∃ rest, leaf.path = path ++ rest := by
  induction d generalizing path base chunks with
  | zero =>
    intro leaf hleaf
    obtain rfl := mem_singleton.1 hleaf
    exact ⟨[], (append_nil path).symm⟩
  | succ d ih =>
    have hpieces : ∀ (pieces : List (List Bytes)) (index start : Nat) (tree : Id) (count : Nat),
        ∀ leaf ∈ childLeaves keep (leaves env keep d) tree path count index start pieces,
          ∃ rest, leaf.path = path ++ rest := by
      intro pieces
      induction pieces with
      | nil =>
        intro index start tree count leaf hleaf
        cases hleaf
      | cons _ _ ihrest =>
        intro index start tree count leaf hleaf
        rcases mem_append.1 hleaf with hfirst | hrest
        · obtain ⟨rest, hpath⟩ := ih leaf hfirst
          rw [if_pos hkeep, append_assoc] at hpath
          exact ⟨_, hpath⟩
        · exact ihrest _ _ _ _ leaf hrest
    exact hpieces _ _ _ _ _

theorem leaves_head {chunks : List Bytes} (hfits : Fits d chunks) :
    ∀ leaf ∈ (leaves env keep d path base chunks).head?, FirstLeaf keep path base chunks leaf := by
  intro leaf hleaf
  have hplaced := congrArg head? (@leaves_placed _ env keep d path base _ hfits)
  rw [head?_map, hleaf] at hplaced
  obtain ⟨_, _, rfl⟩ := exists_cons_of_ne_nil hfits.ne_nil
  cases hplaced
  exact ⟨rfl, rfl, fun hkeep => leaves_below hkeep leaf (mem_of_head? hleaf)⟩

theorem leaves_last {chunks : List Bytes} (hfits : Fits d chunks) : ∀ leaf ∈ (leaves env keep d
    path base chunks).getLast?, LastLeaf keep path base chunks leaf := by
  intro leaf hleaf
  have hplaced := congrArg getLast? (@leaves_placed _ env keep d path base _ hfits)
  rw [getLast?_map, hleaf] at hplaced
  obtain ⟨front, last, rfl⟩ := (eq_nil_or_concat' chunks).resolve_left hfits.ne_nil
  rw [placed_append, placed, placed, getLast?_concat, Option.map_some, Option.some.injEq,
    Prod.mk.injEq] at hplaced
  obtain ⟨hstart, rfl⟩ := hplaced
  refine ⟨?_, getLast?_concat, fun hkeep => leaves_below hkeep leaf (mem_of_getLast? hleaf)⟩
  rw [hstart, flatten_append, flatten_singleton, length_append, add_assoc]

/-- Two leaves on the two sides of one edge of a tree that a store has. -/
structure EdgeSides (env : ContentEnv Id) (has : Id → ObjectRecord Id → Prop) (tree : Id)
    (index : Nat) (left right : Bytes) : Prop where
  sides : ∃ d chunks piece next, Fits (d + 1) chunks ∧ Held env has (d + 1) chunks ∧
    tree = (treeChild env (d + 1) chunks).id ∧
    (groups (chunkTreeFanout ^ d) chunks)[index]? = some piece ∧
    (groups (chunkTreeFanout ^ d) chunks)[index + 1]? = some next ∧
    piece.getLast? = some left ∧ next.head? = some right

/-- Neighbours in the walk: they touch, and their paths part at one edge. -/
structure Adjacent (env : ContentEnv Id) (has : Id → ObjectRecord Id → Prop)
    (left right : LoadedChunk Id) : Prop where
  touch : right.start = left.start + left.bytes.length
  parts : ∃ path tree index count lefts rights, left.path = path ++ ⟨tree, index, count⟩ :: lefts ∧
    right.path = path ++ ⟨tree, index + 1, count⟩ :: rights ∧
    EdgeSides env has tree index left.bytes right.bytes

theorem leaves_chain {has : Id → ObjectRecord Id → Prop} {d : Nat} {path : List (TreeStep Id)}
    {base : Nat} {chunks : List Bytes} (hfits : Fits d chunks) (hheld : Held env has d chunks) :
    (leaves env true d path base chunks).IsChain (Adjacent env has) := by
  induction d generalizing path base chunks with
  | zero =>
    exact .singleton _
  | succ d ih =>
    -- Over the children from `index` on, which are a tail of all the groups.
    have hpieces : ∀ (pieces front : List (List Bytes)) (start : Nat),
        groups (chunkTreeFanout ^ d) chunks = front ++ pieces →
        (childLeaves true (leaves env true d) (treeChild env (d + 1) chunks).id path
          (groups (chunkTreeFanout ^ d) chunks).length front.length start pieces).IsChain
            (Adjacent env has) := by
      intro pieces
      induction pieces with
      | nil =>
        intro front start _
        exact .nil
      | cons piece rest ihrest =>
        intro front start hgroups
        have hpiece : piece ∈ groups (chunkTreeFanout ^ d) chunks := by
          rw [hgroups]
          exact mem_append_right _ mem_cons_self
        have hfitsPiece := hfits.piece hpiece
        have hrest := ihrest (front ++ [piece]) (start + piece.flatten.length)
          (by rw [hgroups, append_assoc, singleton_append])
        rw [length_append] at hrest
        rw [childLeaves, isChain_append]
        refine ⟨ih hfitsPiece (hheld.2 piece hpiece), hrest, ?_⟩
        intro left hleft right hright
        cases rest with
        | nil => cases hright
        | cons next =>
          have hnext : next ∈ groups (chunkTreeFanout ^ d) chunks := by
            rw [hgroups]
            exact mem_append_right _ (mem_cons_of_mem _ mem_cons_self)
          have hfitsNext := hfits.piece hnext
          rw [childLeaves, head?_append_of_ne_nil _ (leaves_ne_nil hfitsNext)] at hright
          obtain ⟨hstop, hlastBytes, hleftPath⟩ := leaves_last hfitsPiece left hleft
          obtain ⟨hstart, hfirstBytes, hrightPath⟩ := leaves_head hfitsNext right hright
          obtain ⟨lefts, hleftPath⟩ := hleftPath rfl
          obtain ⟨rights, hrightPath⟩ := hrightPath rfl
          refine ⟨hstart.trans hstop.symm, path, _, front.length,
            (groups (chunkTreeFanout ^ d) chunks).length, lefts, rights, ?_, ?_, d, chunks, piece,
            next, hfits, hheld, rfl, ?_, ?_, hlastBytes, hfirstBytes⟩
          · rw [hleftPath, if_pos rfl, append_assoc, singleton_append]
          · rw [hrightPath, if_pos rfl, append_assoc, singleton_append]
          · rw [hgroups, getElem?_append_right (le_rfl), Nat.sub_self, getElem?_cons_zero]
          · rw [hgroups, getElem?_append_right (Nat.le_add_right _ 1), Nat.add_sub_cancel_left,
              getElem?_cons_succ, getElem?_cons_zero]
    exact hpieces _ [] base rfl

end Order

/-! ## Trees are determined by their identity -/

section Unique

/-- A store has at most one record under an identity. -/
def Functional (has : Id → ObjectRecord Id → Prop) : Prop :=
  ∀ id record record', has id record → has id record' → record = record'

theorem targets_treeReferences (children : List (Child Id)) (index : Nat) : (treeReferences index
    children).map ObjectReference.target = children.map Child.id := by
  induction children generalizing index with
  | nil =>
    rfl
  | cons _ _ ih =>
    rw [treeReferences, map_cons, ih]
    rfl

/-- Equal roots over stored trees have equal chunks below them. -/
theorem tree_unique (hfunctional : Functional has) {d d' : Nat} {chunks chunks' : List Bytes}
    (hfits : Fits d chunks) (hheld : Held env has d chunks) (hfits' : Fits d' chunks')
    (hheld' : Held env has d' chunks')
    (hid : (treeChild env d chunks).id = (treeChild env d' chunks').id) :
    d = d' ∧ chunks = chunks' := by
  induction d generalizing d' chunks chunks' with
  | zero =>
    have hroot : has (treeChild env 0 chunks).id (chunkObject chunks.flatten) := hheld
    cases d' with
    | zero =>
      have hroot' : has (treeChild env 0 chunks').id (chunkObject chunks'.flatten) := hheld'
      have hsame := hfunctional _ _ _ hroot (hid ▸ hroot')
      obtain ⟨chunk, rfl⟩ := hfits.singleton
      obtain ⟨chunk', rfl⟩ := hfits'.singleton
      have hbytes : [chunk].flatten = [chunk'].flatten := congrArg ObjectRecord.canonicalBytes hsame
      rw [flatten_singleton, flatten_singleton] at hbytes
      exact ⟨rfl, by rw [hbytes]⟩
    | succ =>
      have hsame := hfunctional _ _ _ hroot (hid ▸ hheld'.root env hfits')
      have hkind := congrArg ObjectRecord.kind hsame
      cases hkind
  | succ d ih =>
    cases d' with
    | zero =>
      have hroot' : has (treeChild env 0 chunks').id (chunkObject chunks'.flatten) := hheld'
      have hsame := hfunctional _ _ _ (hheld.root env hfits) (hid ▸ hroot')
      have hkind := congrArg ObjectRecord.kind hsame
      cases hkind
    | succ d' =>
      have hsame := hfunctional _ _ _ (hheld.root env hfits) (hid ▸ hheld'.root env hfits')
      have hreferences := congrArg (map ObjectReference.target)
        (congrArg ObjectRecord.references hsame)
      have hids : (treeChildren env d chunks).map Child.id =
          (treeChildren env d' chunks').map Child.id := by
        rw [← targets_treeReferences _ 0, ← targets_treeReferences _ 0]
        exact hreferences
      rw [treeChildren, treeChildren, map_map, map_map] at hids
      -- Child by child, the subtrees are the same.
      have hpieces : ∀ {pieces pieces' : List (List Bytes)},
          pieces.map (Child.id ∘ treeChild env d) = pieces'.map (Child.id ∘ treeChild env d') →
          (∀ piece ∈ pieces, Fits d piece ∧ Held env has d piece) →
          (∀ piece ∈ pieces', Fits d' piece ∧ Held env has d' piece) →
          pieces = pieces' ∧ (pieces ≠ [] → d = d') := by
        intro pieces
        induction pieces with
        | nil =>
          intro pieces' hmap _ _
          rw [map_nil, eq_comm, map_eq_nil_iff] at hmap
          exact ⟨hmap.symm, fun h => absurd rfl h⟩
        | cons piece _ ihrest =>
          intro pieces' hmap hall hall'
          cases pieces' with
          | nil => cases hmap
          | cons piece' =>
            rw [map_cons, map_cons, cons.injEq] at hmap
            obtain ⟨hfirst, hfirstHeld⟩ := hall piece mem_cons_self
            obtain ⟨hfirst', hfirstHeld'⟩ := hall' piece' mem_cons_self
            obtain ⟨hdepth, hpiece⟩ := ih hfirst hfirstHeld hfirst' hfirstHeld' hmap.1
            have hrest := (ihrest hmap.2 (forall_mem_cons.1 hall).2
              fun p hp => hall' p (mem_cons_of_mem _ hp)).1
            exact ⟨by rw [hpiece, hrest], fun _ => hdepth⟩
      obtain ⟨hgroups, hdepth⟩ := hpieces hids
        (fun piece hpiece => ⟨hfits.piece hpiece, hheld.2 piece hpiece⟩)
        fun piece hpiece => ⟨hfits'.piece hpiece, hheld'.2 piece hpiece⟩
      refine ⟨congrArg Nat.succ (hdepth (groups_ne_nil hfits.ne_nil)), ?_⟩
      rw [← flatten_groups (n := chunkTreeFanout ^ d) chunks, hgroups, flatten_groups]

variable {left right : Bytes}

/-- The two sides of an edge do not depend on where its tree occurs. -/
theorem EdgeSides.unique (hfunctional : Functional has) {left' right' : Bytes}
    (h : EdgeSides env has tree index left right) (h' : EdgeSides env has tree index left' right') :
    left = left' ∧ right = right' := by
  obtain ⟨_, _, _, _, hfits, hheld, htree, hpiece, hnext, hleft, hright⟩ := h.sides
  obtain ⟨_, _, _, _, hfits', hheld', htree', hpiece', hnext', hleft', hright'⟩ :=
    h'.sides
  obtain ⟨hdepth, rfl⟩ := tree_unique hfunctional hfits hheld hfits' hheld' (htree ▸ htree')
  cases hdepth
  rw [hpiece] at hpiece'
  rw [hnext] at hnext'
  cases hpiece'
  cases hnext'
  rw [hleft] at hleft'
  rw [hright] at hright'
  cases hleft'
  cases hright'
  exact ⟨rfl, rfl⟩

/-- The boundary at an edge is canonical, wherever its tree occurs. -/
def EdgeOk (env : ContentEnv Id) (has : Id → ObjectRecord Id → Prop) (edge : VerifiedEdge Id) :
    Prop :=
  ∀ left right, EdgeSides env has edge.tree edge.leftChild left right →
    isCanonicalBoundary edge.profile left (right.take 2) = true

theorem EdgeOk.of_sides (hfunctional : Functional has) {profile : ChunkingProfile}
    (h : EdgeSides env has tree index left right)
    (hcanonical : isCanonicalBoundary profile left (right.take 2) = true) :
    EdgeOk env has ⟨tree, index, profile⟩ := by
  intro left' right' h'
  obtain ⟨rfl, rfl⟩ := h.unique hfunctional h'
  exact hcanonical

end Unique

/-! ## Observing -/

section Observe

variable [DecidableEq Id] {profile : ChunkingProfile}

/-- A boundary between two leaves. -/
def CanonicalPair (profile : ChunkingProfile) (left right : LoadedChunk Id) : Prop :=
  isCanonicalBoundary profile left.bytes (right.bytes.take 2) = true

/-- Verified edges are canonical. -/
def WindowOk (env : ContentEnv Id) (has : Id → ObjectRecord Id → Prop)
    (window : BoundaryWindow Id) : Prop :=
  ∀ edge, window.isVerified edge = true → EdgeOk env has edge

theorem edgeBetween_parts {object : Id} {count : Nat} {lefts rights : List (TreeStep Id)} :
    ∀ path : List (TreeStep Id), edgeBetween object profile (path ++ ⟨tree, index, count⟩ :: lefts)
        (path ++ ⟨tree, index + 1, count⟩ :: rights) = .ok ⟨tree, index, profile⟩ := by
  intro path
  induction path with
  | nil =>
    have hne : (⟨tree, index, count⟩ : TreeStep Id) ≠ ⟨tree, index + 1, count⟩ := by
      intro heq
      have := congrArg TreeStep.childIndex heq
      exact absurd this (Nat.ne_of_lt (Nat.lt_succ_self index))
    show (if _ then _ else if _ then _ else _) = _
    rw [if_neg hne, if_pos ⟨rfl, rfl⟩]
  | cons _ _ ih =>
    show (if _ then _ else _) = _
    rw [if_pos rfl]
    exact ih

/-- What a window that has seen one more leaf looks like. -/
structure Observed (env : ContentEnv Id) (has : Id → ObjectRecord Id → Prop)
    (before after : BoundaryWindow Id) (leaf : LoadedChunk Id) : Prop where
  ok : WindowOk env has after
  last_eq : after.last = some leaf
  first_eq : after.firstStart = before.firstStart

variable {window : BoundaryWindow Id}

/-- The check of one edge decides whether its boundary is canonical. -/
theorem validateEdge_cases (hfunctional : Functional has) (hok : WindowOk env has window)
    {left : LoadedChunk Id} {right : Bytes}
    (hsides : EdgeSides env has tree index left.bytes right) :
    (isCanonicalBoundary profile left.bytes (right.take 2) = true ∧
      ∃ after, window.validateEdge left (right.take 2) ⟨tree, index, profile⟩ profile = .ok after ∧
        WindowOk env has after ∧ after.firstStart = window.firstStart) ∨
    (isCanonicalBoundary profile left.bytes (right.take 2) = false ∧
      ∃ e, window.validateEdge left (right.take 2) ⟨tree, index, profile⟩ profile = .error e) := by
  unfold BoundaryWindow.validateEdge
  split_ifs with hverified
  · exact .inl ⟨hok _ hverified _ _ hsides, window, rfl, hok, rfl⟩
  by_cases hcanonical : isCanonicalBoundary profile left.bytes (right.take 2) = true
  · refine .inl ⟨hcanonical, { window with delta := ⟨tree, index, profile⟩ :: window.delta }, ?_,
      ?_,
      rfl⟩
    · unfold validateBoundary
      rw [require_pos hcanonical]
      rfl
    · -- The new edge is canonical, the others were.
      intro edge hedge
      by_cases hnew : edge = ⟨tree, index, profile⟩
      · rw [hnew]
        exact .of_sides hfunctional hsides hcanonical
      apply hok edge
      unfold BoundaryWindow.isVerified at hedge ⊢
      rw [Bool.or_eq_true, decide_eq_true_eq] at hedge ⊢
      exact hedge.imp_right fun hmem => (mem_cons.1 hmem).resolve_left hnew
  · refine .inr ⟨Bool.not_eq_true _ ▸ hcanonical, ?_⟩
    unfold validateBoundary
    rw [require_neg hcanonical]
    exact ⟨_, rfl⟩

theorem observe_cases (hfunctional : Functional has) (hok : WindowOk env has window)
    {previous leaf : LoadedChunk Id} (hlast : window.last = some previous)
    (hadjacent : Adjacent env has previous leaf) (hne : leaf.bytes ≠ [])
    (hword : previous.start + previous.bytes.length < wordLimit) :
    (CanonicalPair profile previous leaf ∧
      ∃ after, window.observe leaf profile = .ok after ∧ Observed env has window after leaf) ∨
    (¬ CanonicalPair profile previous leaf ∧ ∃ e, window.observe leaf profile = .error e) := by
  obtain ⟨path, tree, index, _, _, _, hleft, hright, hsides⟩ := hadjacent.parts
  have hstop : previous.stop = .ok leaf.start := by
    unfold LoadedChunk.stop toWord
    rw [require_pos (by omega), hadjacent.touch]
    exact okOr_eq_ok.2 (checkedAdd_eq_some.2 ⟨rfl, hword⟩)
  have hedge : edgeBetween leaf.object profile previous.path leaf.path =
      .ok ⟨tree, index, profile⟩ := by
    rw [hleft, hright]
    exact edgeBetween_parts path
  have hrun : window.observe leaf profile =
      ({ window with last := none }.validateEdge previous (leaf.bytes.take 2)
        ⟨tree, index, profile⟩ profile >>= fun after => pure { after with last := some leaf }) := by
    unfold BoundaryWindow.observe
    rw [require_pos hne, hlast]
    show (previous.stop >>= _) = _
    rw [hstop, ok_bind, require_pos rfl, hedge]
    rfl
  have hcleared : WindowOk env has { window with last := none } := hok
  rw [hrun]
  rcases validateEdge_cases hfunctional hcleared hsides with
    ⟨hcanonical, after, hvalid, hafter, hfirst⟩ | ⟨hfails, e, hvalid⟩
  · rw [hvalid]
    exact .inl ⟨hcanonical, _, rfl, hafter, rfl, hfirst⟩
  rw [hvalid]
  refine .inr ⟨?_, e, rfl⟩
  unfold CanonicalPair
  rw [hfails]
  exact Bool.false_ne_true

/-- A run over leaves succeeds exactly if all boundaries between them are canonical. -/
theorem observeAll_iff (hfunctional : Functional has) {rest : List (LoadedChunk Id)}
    {window : BoundaryWindow Id} {previous : LoadedChunk Id} (hok : WindowOk env has window)
    (hlast : window.last = some previous)
    (hchain : (previous :: rest).IsChain (Adjacent env has))
    (hbytes : ∀ leaf ∈ previous :: rest,
      leaf.bytes ≠ [] ∧ leaf.start + leaf.bytes.length < wordLimit) :
    ((∃ after, rest.foldlM (fun window leaf => window.observe leaf profile) window = .ok after) ↔
      (previous :: rest).IsChain (CanonicalPair profile)) ∧
    ∀ after, rest.foldlM (fun window leaf => window.observe leaf profile) window = .ok after →
      after.firstStart = window.firstStart ∧ after.last = (previous :: rest).getLast? := by
  induction rest generalizing window previous with
  | nil =>
    refine ⟨⟨fun _ => .singleton _, fun _ => ⟨window, rfl⟩⟩, fun after hafter => ?_⟩
    cases hafter
    exact ⟨rfl, hlast⟩
  | cons leaf _ ih =>
    rw [isChain_cons_cons] at hchain
    obtain ⟨hadjacent, hchain⟩ := hchain
    have hleaf := hbytes leaf (mem_cons_of_mem _ mem_cons_self)
    have hprevious := hbytes previous mem_cons_self
    rw [foldlM_cons, isChain_cons_cons]
    rcases observe_cases hfunctional hok hlast hadjacent hleaf.1 hprevious.2 with
      ⟨hpair, next, hobserve, hobserved⟩ | ⟨hpair, e, hobserve⟩
    · rw [hobserve]
      obtain ⟨hiff, hafter⟩ := ih hobserved.ok hobserved.last_eq hchain
        (forall_mem_cons.1 hbytes).2
      refine ⟨hiff.trans ⟨fun h => ⟨hpair, h⟩, fun h => h.2⟩, fun after hrun => ?_⟩
      rw [← hobserved.first_eq]
      exact hafter after hrun
    · rw [hobserve]
      refine ⟨⟨fun ⟨_, h⟩ => ?_, fun h => absurd h.1 hpair⟩, fun after h => ?_⟩
      · cases h
      · cases h

end Observe

end Astrid.Content
