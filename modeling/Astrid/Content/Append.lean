import Astrid.Content.Verified

/-!
# Appending to a verified file

`content_dag/append.rs`: bytes are appended without reading the file. The chunks of the old
file are enumerated from its tree (`verifiedChunks`, a loop with a stack of pending nodes),
the last one is read and cut again together with the new bytes, and the tree is built over
the old and the new chunks.

The enumeration of a held tree is its chunk list (`verifiedChunks_eq`), and a read of a
range without checks returns that range (`readVerifiedContentRange_eq`).
-/

namespace Astrid.Content

open Std List

variable {Id E : Type} {shape : ExpectedShape}

/-! ## Enumerating chunks -/

/-- A node that waits to be expanded, with its level. -/
structure PendingNode (Id : Type) where
  object : Id
  shape : ExpectedShape
  treeDepth : Nat

section Enumerate

variable (source : ContentSource Id E)

/-- The children of a node one level down, in their order. -/
def pendingChildren (shape : ExpectedShape) (count treeDepth : Nat) :
    Nat → List (Child Id) → List (PendingNode Id)
  | _, [] => []
  | index, child :: rest =>
    ⟨child.id, shape.child child index count, treeDepth⟩ ::
      pendingChildren shape count treeDepth (index + 1) rest

/-- Load a tree node and expand it. -/
def expandPending (object : Id) (shape : ExpectedShape) (treeDepth : Nat) :
    Except (ContentReadError Id E) (List (PendingNode Id)) := do
  let record ← load source object
  require (record.kind = .chunkTree)
    (.content (.invalidObject object "expected verified chunk-tree object"))
  let children ← (decodeTree object record (treeDepth + 1) shape).mapError .content
  pure (pendingChildren shape children.length treeDepth 0 children)

variable {treeDepth : Nat}

theorem length_pendingChildren {count : Nat} {children : List (Child Id)} {index : Nat} :
    (pendingChildren shape count treeDepth index children).length = children.length ∧ ∀ node ∈
    pendingChildren shape count treeDepth index children, node.treeDepth = treeDepth := by
  induction children generalizing index with
  | nil =>
    exact ⟨rfl, nofun⟩
  | cons _ _ ih =>
    obtain ⟨hlength, hdepth⟩ := @ih (index + 1)
    exact ⟨congrArg (· + 1) hlength, forall_mem_cons.2 ⟨rfl, hdepth⟩⟩

/-- The stack has its top first. -/
def verifiedChunksTurn (state : List (Child Id) × List (PendingNode Id)) :
    Turn (List (Child Id) × List (PendingNode Id))
      (Except (ContentReadError Id E) (List (Child Id))) :=
  match state.2 with
  | [] => .stop (.ok state.1)
  | ⟨object, shape, 0⟩ :: rest => .again (state.1 ++ [⟨object, shape.logicalBytes, 1⟩], rest)
  | ⟨object, shape, treeDepth + 1⟩ :: rest =>
    match expandPending source object shape treeDepth with
    | .error e => .stop (.error e)
    | .ok children => .again (state.1, children ++ rest)

/-- More than all nodes that can come up below the pending ones. -/
def pendingWeight (pending : List (PendingNode Id)) : Nat :=
  (pending.map fun node => (chunkTreeFanout + 1) ^ node.treeDepth).sum

theorem pendingWeight_of_depth {pending : List (PendingNode Id)}
    (h : ∀ node ∈ pending, node.treeDepth = treeDepth) :
    pendingWeight pending = pending.length * (chunkTreeFanout + 1) ^ treeDepth := by
  have hconst : (pending.map fun node => (chunkTreeFanout + 1) ^ node.treeDepth) =
      replicate pending.length ((chunkTreeFanout + 1) ^ treeDepth) := by
    rw [eq_replicate_iff, length_map]
    refine ⟨rfl, fun weight hweight => ?_⟩
    obtain ⟨node, hnode, rfl⟩ := mem_map.1 hweight
    rw [h node hnode]
  rw [pendingWeight, hconst, sum_replicate, smul_eq_mul]

variable {object : Id} {children : List (PendingNode Id)}

/-- A node has at most 128 children, which weigh less than it does. -/
theorem expandPending_weight (h : expandPending source object shape treeDepth = .ok children) :
    pendingWeight children < (chunkTreeFanout + 1) ^ (treeDepth + 1) := by
  simp only [expandPending, bind_eq_ok, require_eq_ok, mapError_eq_ok] at h
  obtain ⟨_, _, _, hkind, decoded, hdecode, hout⟩ := h
  cases hout
  obtain ⟨hok, _⟩ := decodeTree_inv hkind hdecode
  obtain ⟨hlength, hdepth⟩ := @length_pendingChildren Id shape treeDepth decoded.length decoded 0
  rw [pendingWeight_of_depth hdepth, hlength, pow_succ']
  apply Nat.mul_lt_mul_of_pos_right
  · exact Nat.lt_succ_of_le hok.length_le
  · exact Nat.pow_pos (Nat.succ_pos _)

def verifiedChunksLoop : Loop (List (Child Id) × List (PendingNode Id))
    (Except (ContentReadError Id E) (List (Child Id))) where
  turn := verifiedChunksTurn source
  size state := pendingWeight state.2
  shrinks := by
    rintro ⟨chunks, pending⟩ state' h
    unfold verifiedChunksTurn at h
    dsimp only at h ⊢
    split at h
    next => cases h
    next object shape rest =>
      cases h
      rw [pendingWeight, pendingWeight, map_cons, sum_cons, pow_zero]
      exact Nat.lt_add_of_pos_left Nat.one_pos
    next object shape treeDepth rest =>
      cases hexpand : expandPending source object shape treeDepth with
      | error e =>
        rw [hexpand] at h
        cases h
      | ok children =>
        rw [hexpand] at h
        cases h
        have hweight := expandPending_weight source hexpand
        unfold pendingWeight at hweight ⊢
        rw [map_append, sum_append, map_cons, sum_cons]
        exact Nat.add_lt_add_right hweight _

variable {before : List (Child Id)} {rest : List (PendingNode Id)}

theorem verifiedChunksTurn_expand (h : expandPending source object shape treeDepth = .ok children) :
    (verifiedChunksLoop source).turn (before, ⟨object, shape, treeDepth + 1⟩ :: rest) =
      .again (before, children ++ rest) := by
  simp only [verifiedChunksLoop, verifiedChunksTurn, h]

/-- Enumerate chunk identities without loading their payloads. -/
def verifiedChunks (verified : VerifiedContent Id) :
    Except (ContentReadError Id E) (List (Child Id)) :=
  match verified.opened.content with
  | none => .ok []
  | some root =>
    let descriptor := verified.opened.descriptor
    (verifiedChunksLoop source).run ([], [⟨root,
      ⟨descriptor.logicalBytes, descriptor.chunkCount, descriptor.profile, true⟩,
      canonicalTreeDepth descriptor.chunkCount⟩])

end Enumerate

/-! ## Appending -/

/-- The new token and the records that the old closure lacks. -/
structure AppendedContent (Id : Type) [Key Id] where
  verified : VerifiedContent Id
  records : Records Id

def appendVerifiedContent {Id E : Type} [Key Id] (env : ContentEnv Id)
    (source : ContentSource Id E) (old : VerifiedContent Id) (bytes : Bytes) :
    Except (ContentReadError Id E) (AppendedContent Id) := do
  let descriptor := old.opened.descriptor
  let added ← (toWord bytes.length).mapError .content
  let logicalBytes ← okOr (checkedAdd descriptor.logicalBytes added) (.content .lengthOverflow)
  let chunks ← verifiedChunks source old
  let tail ← (match chunks.getLast? with
    | some last => do
      let offset ← okOr (checkedSub descriptor.logicalBytes last.logicalBytes)
        (.content .lengthOverflow)
      readVerifiedContentRange source old offset last.logicalBytes
    | none => .ok [])
  -- The whole-file exception for small values is not one for small tails.
  let state ← (appendChunks env descriptor.profile (tail ++ bytes)
    (decide (logicalBytes ≤ descriptor.profile.maximumBytes))
    ⟨∅, chunks.dropLast, ∅⟩).mapError .content
  let (verified, records) ← (finishContent env descriptor.profile logicalBytes
    state).mapError .content
  pure ⟨verified, records⟩

/-! ## The chunks of a held tree -/

section Chunks

variable {env : ContentEnv Id} {source : ContentSource Id E} {d : Nat}

theorem expandPending_held {chunks : List Bytes} (hfits : Fits (d + 1) chunks)
    (hheld : Held env (Serves source) (d + 1) chunks) (hshaped : Shaped shape chunks)
    (hmaximum : chunkTreeFanout ^ d * shape.profile.maximumBytes < wordLimit) :
    expandPending source (treeChild env (d + 1) chunks).id shape d =
      .ok (pendingChildren shape (groups (chunkTreeFanout ^ d) chunks).length d 0
        ((groups (chunkTreeFanout ^ d) chunks).map (treeChild env d))) := by
  have hlength : (treeChildren env d chunks).length =
      (groups (chunkTreeFanout ^ d) chunks).length := length_map _
  have hkind : (treeObject (treeChildren env d chunks) (treeChildren_lt env hfits).le).kind =
      .chunkTree := rfl
  unfold expandPending
  rw [load_ok.2 (hheld.root env hfits), ok_bind, require_pos hkind, ok_bind,
    decodeTree_shaped hfits hshaped hmaximum, mapError_ok, ok_bind, hlength]
  rfl

/-- A pending tree comes out as its chunks, before everything below it on the stack. -/
def PendingRuns (env : ContentEnv Id) (source : ContentSource Id E) (d : Nat) : Prop :=
  ∀ {chunks : List Bytes} {shape : ExpectedShape} {before : List (Child Id)}
    {rest : List (PendingNode Id)},
    Fits d chunks → Held env (Serves source) d chunks → Shaped shape chunks →
    (∀ k < d, chunkTreeFanout ^ k * shape.profile.maximumBytes < wordLimit) →
    (verifiedChunksLoop source).run
        (before, ⟨(treeChild env d chunks).id, shape, d⟩ :: rest) =
      (verifiedChunksLoop source).run (before ++ chunks.map (chunkChild env), rest)

theorem pendingRuns_children (hruns : PendingRuns env source d) {count : Nat}
    (hmaximum : ∀ k < d, chunkTreeFanout ^ k * shape.profile.maximumBytes < wordLimit)
    {pieces : List (List Bytes)} {index : Nat} {before : List (Child Id)}
    {rest : List (PendingNode Id)} (hcount : index + pieces.length = count)
    (hfits : ∀ piece ∈ pieces, Fits d piece)
    (hheld : ∀ piece ∈ pieces, Held env (Serves source) d piece)
    (hsized : Sized shape.profile shape.endsFile pieces.flatten) :
    (verifiedChunksLoop source).run (before,
      pendingChildren shape count d index (pieces.map (treeChild env d)) ++ rest) =
    (verifiedChunksLoop source).run (before ++ pieces.flatten.map (chunkChild env), rest) := by
  induction pieces generalizing index before rest with
  | nil =>
    rw [flatten_nil, map_nil, map_nil, append_nil]
    rfl
  | cons piece others ih =>
    rw [length_cons] at hcount
    have hpiece := hfits piece mem_cons_self
    obtain ⟨hbytes, hchunks⟩ := treeChild_totals env hpiece
    obtain ⟨hsizedPiece, hsizedRest⟩ := hsized.child hcount
      fun other hother => (hfits other (mem_cons_of_mem _ hother)).ne_nil
    have hshaped : Shaped (shape.child (treeChild env d piece) index count) piece :=
      ⟨hbytes, hchunks, hsizedPiece⟩
    show (verifiedChunksLoop source).run (before,
      ⟨(treeChild env d piece).id, shape.child (treeChild env d piece) index count, d⟩ ::
        (pendingChildren shape count d (index + 1) (others.map (treeChild env d)) ++ rest)) = _
    rw [hruns hpiece (hheld piece mem_cons_self) hshaped hmaximum,
      ih (by omega) (forall_mem_cons.1 hfits).2
      (forall_mem_cons.1 hheld).2 hsizedRest, flatten_cons,
      map_append, append_assoc]

theorem pendingRuns : ∀ d : Nat, PendingRuns env source d := by
  intro d
  induction d with
  | zero =>
    intro chunks shape before rest hfits _ hshaped _
    obtain ⟨_, rfl⟩ := hfits.singleton
    have hbytes := hshaped.bytes_eq
    rw [(verifiedChunksLoop source).run_again rfl, hbytes, treeChild_zero, flatten_singleton]
    rfl
  | succ d ih =>
    intro chunks shape before rest hfits hheld hshaped hmaximum
    have hexpand := expandPending_held hfits hheld hshaped (hmaximum d (Nat.lt_succ_self d))
    have hflat := flatten_groups (n := chunkTreeFanout ^ d) chunks
    rw [(verifiedChunksLoop source).run_again (verifiedChunksTurn_expand source hexpand),
      pendingRuns_children ih (fun k hk => hmaximum k (Nat.lt_succ_of_lt hk)) (zero_add _)
        (fun piece hpiece => hfits.piece hpiece) hheld.2 (by rw [hflat]; exact hshaped.sized),
      hflat]

variable {profile : ChunkingProfile} {content : Bytes}

theorem contentRoot_fileChunks (env : ContentEnv Id) (profile : ChunkingProfile)
    (hne : content ≠ []) :
    contentRoot env (fileChunks profile content) =
      some (treeChild env (Nat.clog chunkTreeFanout (fileChunks profile content).length)
        (fileChunks profile content)).id :=
  if_neg (fileChunks_ne_nil profile hne)

section

variable (hlen : content.length < wordLimit)

include hlen

/-- Of a nonempty file, the loop starts with the root. -/
theorem verifiedChunks_root (hne : content ≠ []) :
    verifiedChunks source (canonicalFile env profile (fileChunks profile content)) =
      (verifiedChunksLoop source).run ([],
        [⟨(rootNode env profile (fileChunks profile content)).object,
          wholeShape profile (fileChunks profile content),
          Nat.clog chunkTreeFanout (fileChunks profile content).length⟩]) := by
  have hcount : (fileChunks profile content).length < wordLimit :=
    Nat.lt_of_le_of_lt (length_fileChunks_le profile content) hlen
  unfold verifiedChunks canonicalFile
  dsimp only
  rw [contentRoot_fileChunks env profile hne, canonicalTreeDepth_eq hcount]
  rfl

/-- The chunks of a held file, if its tree is readable. -/
theorem verifiedChunks_eq
    (hheld : HeldFile env (Serves source) profile (fileChunks profile content))
    (hreadable : ReadableCount profile (fileChunks profile content).length) :
    verifiedChunks source (canonicalFile env profile (fileChunks profile content)) =
      .ok ((fileChunks profile content).map (chunkChild env)) := by
  by_cases hne : content = []
  · subst hne
    rfl
  have hcontent := heldContent_of_heldFile hlen hne hheld
  have hruns : (verifiedChunksLoop source).run ([],
      [⟨(rootNode env profile (fileChunks profile content)).object,
        wholeShape profile (fileChunks profile content),
        Nat.clog chunkTreeFanout (fileChunks profile content).length⟩]) = _ :=
    pendingRuns _ hcontent.fits hcontent.held ⟨rfl, rfl, hcontent.sized⟩ hreadable
  rw [verifiedChunks_root hlen hne, hruns]
  exact (verifiedChunksLoop source).run_stop rfl

/-- Where the tree is too large for the reader, the loop fails at the root. -/
theorem readableCount_of_verifiedChunks {chunks : List (Child Id)}
    (h : verifiedChunks source (canonicalFile env profile (fileChunks profile content)) =
      .ok chunks) : ReadableCount profile (fileChunks profile content).length := by
  by_cases hne : content = []
  · subst hne
    exact fun k hk => absurd hk (Nat.not_lt_zero k)
  rw [verifiedChunks_root hlen hne] at h
  have hcount : (fileChunks profile content).length < wordLimit :=
    Nat.lt_of_le_of_lt (length_fileChunks_le profile content) hlen
  cases hdepth : Nat.clog chunkTreeFanout (fileChunks profile content).length with
  | zero =>
    intro k hk
    rw [hdepth] at hk
    exact absurd hk (Nat.not_lt_zero k)
  | succ d =>
    rw [hdepth] at h
    cases hexpand : expandPending source (rootNode env profile (fileChunks profile content)).object
        (wholeShape profile (fileChunks profile content)) d with
    | error =>
      rw [(verifiedChunksLoop source).run_stop (by
        simp only [verifiedChunksLoop, verifiedChunksTurn, hexpand]; rfl)] at h
      cases h
    | ok =>
      simp only [expandPending, bind_eq_ok, require_eq_ok, mapError_eq_ok] at hexpand
      obtain ⟨_, _, _, hkind, _, hdecode, _⟩ := hexpand
      obtain ⟨hok, _⟩ := decodeTree_inv hkind hdecode
      have hcapacity : chunkTreeFanout ^ d < wordLimit :=
        pow_lt_of_lt_depth hcount (by omega)
      exact readableCount_of_treeOk hok hdepth hcapacity

end

end Chunks

end Astrid.Content
