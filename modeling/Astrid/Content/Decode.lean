import Astrid.Content.Read
import Astrid.Content.Tree

/-!
# What the decoders accept

The reader's checks, as facts about the records that pass them. A tree record that
`decodeTree` accepts is the record of its children (`decodeTree_inv`), and the record of
children of the expected shape is accepted (`decodeTree_ok`). The same for a file record.

The capacities of the source saturate at the largest 64-bit number. For the counts that
fit into one the depth is the base-128 logarithm, and no capacity below it saturates.
-/

namespace Astrid.Content

open Std List

variable {Id : Type} {object : Id} {profile : ChunkingProfile}

/-! ## Capacities -/

theorem treeCapacity_eq_min (d : Nat) :
    treeCapacity d = min (chunkTreeFanout ^ d) (wordLimit - 1) := by
  induction d with
  | zero => rfl
  | succ d =>
    have hfanout : chunkTreeFanout ^ (d + 1) = chunkTreeFanout ^ d * 128 := pow_succ _ _
    show min (treeCapacity d * 128) (wordLimit - 1) = _
    omega

variable {d : Nat}

theorem treeCapacity_eq (h : chunkTreeFanout ^ d < wordLimit) :
    treeCapacity d = chunkTreeFanout ^ d := by
  rw [treeCapacity_eq_min]
  omega

variable {count : Nat}

theorem depthFrom_eq (hcount : count < wordLimit) {turns depth : Nat} (hdepth : turns + depth = 10)
    (hle : depth ≤ Nat.clog chunkTreeFanout count) : depthFrom count turns (treeCapacity depth)
    depth = Nat.clog chunkTreeFanout count := by
  induction turns generalizing depth with
  | zero =>
    -- Ten levels hold every 64-bit count.
    have hten : Nat.clog chunkTreeFanout count ≤ 10 := by
      apply Nat.clog_le_of_le_pow
      have hpow : chunkTreeFanout ^ 10 = 1180591620717411303424 := rfl
      have hword : wordLimit = 18446744073709551616 := rfl
      omega
    show depth = _
    omega
  | succ _ ih =>
    have hcap := treeCapacity_eq_min depth
    have hlt : depth < Nat.clog chunkTreeFanout count ↔ chunkTreeFanout ^ depth < count :=
      Nat.lt_clog_iff_pow_lt (by decide)
    unfold depthFrom
    split
    next hless =>
      have hdeeper : depth + 1 ≤ Nat.clog chunkTreeFanout count := by omega
      exact ih (by omega) hdeeper
    next hmore => omega

theorem canonicalTreeDepth_eq (h : count < wordLimit) :
    canonicalTreeDepth count = Nat.clog chunkTreeFanout count :=
  depthFrom_eq h rfl (Nat.zero_le _)

/-- Below the canonical depth of a 64-bit count, capacities do not saturate. -/
theorem pow_lt_of_lt_depth (h : count < wordLimit) (hd : d < Nat.clog chunkTreeFanout count) :
    chunkTreeFanout ^ d < wordLimit :=
  Nat.lt_trans (Nat.pow_lt_of_lt_clog hd) h

/-! ## Profile bounds -/

section Bounds

variable {logicalBytes chunkCount : Nat} {endsFile : Bool}

/-- As many bytes as so many chunks can have. -/
def InBounds (profile : ChunkingProfile) (endsFile : Bool) (logicalBytes chunkCount : Nat) : Prop :=
  (if endsFile then (chunkCount - 1) * (profile.minimumBytes / 2 * 2) + 1
    else chunkCount * (profile.minimumBytes / 2 * 2)) ≤ logicalBytes ∧
  logicalBytes ≤ chunkCount * profile.maximumBytes

theorem validateProfileBounds_inv {u : Unit}
    (h : validateProfileBounds object logicalBytes chunkCount profile endsFile = .ok u) :
    chunkCount * profile.maximumBytes < wordLimit ∧
      InBounds profile endsFile logicalBytes chunkCount := by
  simp only [validateProfileBounds, bind_eq_ok, okOr_eq_ok, checkedMul_eq_some, require_eq_ok] at h
  obtain ⟨_, ⟨rfl, hmaximum⟩, _, ⟨rfl, _⟩, _, hminimum, hbounds⟩ := h
  refine ⟨hmaximum, ?_, hbounds.2⟩
  cases endsFile with
  | false =>
    cases hminimum
    exact hbounds.1
  | true =>
    have hadd := (checkedAdd_eq_some.1 (okOr_eq_ok.1 hminimum)).1
    rw [← hadd] at hbounds
    exact hbounds.1

theorem validateProfileBounds_ok (hmaximum : chunkCount * profile.maximumBytes < wordLimit)
    (h : InBounds profile endsFile logicalBytes chunkCount) :
    validateProfileBounds object logicalBytes chunkCount profile endsFile = .ok () := by
  obtain ⟨hleast, hmost⟩ := h
  have hmul : checkedMul chunkCount profile.maximumBytes =
      some (chunkCount * profile.maximumBytes) := checkedMul_eq_some.2 ⟨rfl, hmaximum⟩
  unfold validateProfileBounds
  rw [hmul]
  cases endsFile with
  | false =>
    rw [if_neg (by decide)] at hleast
    have hfull : checkedMul chunkCount (profile.minimumBytes / 2 * 2) =
        some (chunkCount * (profile.minimumBytes / 2 * 2)) :=
      checkedMul_eq_some.2 ⟨rfl, by omega⟩
    show (okOr (checkedMul chunkCount _) _ >>= _) = _
    rw [hfull]
    exact require_pos ⟨hleast, hmost⟩ _
  | true =>
    rw [if_pos rfl] at hleast
    have hfull : checkedMul (chunkCount - 1) (profile.minimumBytes / 2 * 2) =
        some ((chunkCount - 1) * (profile.minimumBytes / 2 * 2)) :=
      checkedMul_eq_some.2 ⟨rfl, by omega⟩
    have hlast : checkedAdd ((chunkCount - 1) * (profile.minimumBytes / 2 * 2)) 1 =
        some ((chunkCount - 1) * (profile.minimumBytes / 2 * 2) + 1) :=
      checkedAdd_eq_some.2 ⟨rfl, by omega⟩
    show (okOr (checkedMul (chunkCount - 1) _) _ >>= _) = _
    rw [hfull]
    show (okOr (checkedAdd _ 1) _ >>= _) = _
    rw [hlast]
    exact require_pos ⟨hleast, hmost⟩ _

end Bounds

/-! ## Tree records -/

section Trees

variable {shape : ExpectedShape} {count capacity : Nat}

def childFields (child : Child Id) : Bytes :=
  leBytes 8 child.logicalBytes ++ leBytes 8 child.chunkCount

theorem length_childFields (child : Child Id) : (childFields child).length = 16 := by
  rw [childFields, length_append, length_leBytes, length_leBytes]

theorem length_flatMap_childFields (children : List (Child Id)) :
    (children.flatMap childFields).length = children.length * 16 := by
  induction children with
  | nil => rfl
  | cons =>
    rw [flatMap_cons, length_append, length_childFields, length_cons]
    omega

/-- The shape of a child at `index`, as a parent of `count` children demands it. -/
structure ChildOk (shape : ExpectedShape) (count capacity index : Nat) (child : Child Id) :
    Prop where
  logicalBytes_pos : 0 < child.logicalBytes
  chunkCount_pos : 0 < child.chunkCount
  chunkCount_le : child.chunkCount ≤ capacity
  full : index + 1 < count → child.chunkCount = capacity
  maximum_lt : child.chunkCount * shape.profile.maximumBytes < wordLimit
  bounds : InBounds shape.profile (shape.endsFile && index + 1 == count) child.logicalBytes
    child.chunkCount

/-- All children from `index` on. -/
def ChildrenOk (shape : ExpectedShape) (count capacity : Nat) : Nat → List (Child Id) → Prop
  | _, [] => True
  | index, child :: rest =>
    ChildOk shape count capacity index child ∧ ChildrenOk shape count capacity (index + 1) rest

variable {bytes : Bytes}

/-- What a successful loop has seen: references and bytes are those of the children. -/
theorem decodeChildren_inv {references : List (ObjectReference Id)} {index total totalChunks : Nat}
    {children : List (Child Id)} {total' totalChunks' : Nat}
    (h : decodeChildren object bytes shape count capacity index total totalChunks references =
      .ok (children, total', totalChunks'))
    (hlen : bytes.length = 18 + index * 16 + references.length * 16) :
    references = treeReferences index children ∧
      bytes.drop (18 + index * 16) = children.flatMap childFields ∧
      total' = total + (children.map Child.logicalBytes).sum ∧
      totalChunks' = totalChunks + (children.map Child.chunkCount).sum ∧
      ChildrenOk shape count capacity index children := by
  induction references generalizing index total totalChunks children total' totalChunks' with
  | nil =>
    cases h
    refine ⟨rfl, ?_, rfl, rfl, trivial⟩
    rw [length_nil] at hlen
    exact drop_of_length_le (by omega)
  | cons reference rest ih =>
    simp only [decodeChildren, bind_eq_ok, require_eq_ok, okOr_eq_ok, checkedAdd_eq_some] at h
    obtain ⟨_, _, _, hlabel, _, hshape, _, hbounds, _, ⟨rfl, _⟩, _, ⟨rfl, _⟩,
      ⟨_, _⟩, hrest, hout⟩ := h
    obtain ⟨hmaximum, hbounds⟩ := validateProfileBounds_inv hbounds
    cases hout
    rw [length_cons] at hlen
    obtain ⟨hreferences, hbytes, rfl, rfl, hothers⟩ := ih hrest (by omega)
    have hlogical : (slice bytes (18 + index * 16) 8).length = 8 := length_slice (by omega)
    have hcounts : (slice bytes (18 + index * 16 + 8) 8).length = 8 := length_slice (by omega)
    refine ⟨?_, ?_, ?_, ?_, ⟨Nat.pos_of_ne_zero hshape.1,
      Nat.pos_of_ne_zero hshape.2.1, hshape.2.2.1, hshape.2.2.2, hmaximum, hbounds⟩, hothers⟩
    · obtain ⟨_, _, _⟩ := reference
      obtain ⟨rfl, rfl⟩ := hlabel
      rw [hreferences]
      rfl
    · -- The two fields of the child, then the rest.
      rw [flatMap_cons, ← hbytes, childFields]
      have hfirst := leBytes_ofLe (slice bytes (18 + index * 16) 8)
      have hsecond := leBytes_ofLe (slice bytes (18 + index * 16 + 8) 8)
      rw [hlogical] at hfirst
      rw [hcounts] at hsecond
      have hnext : 18 + (index + 1) * 16 = 18 + index * 16 + 8 + 8 := by omega
      rw [hfirst, hsecond, append_assoc, hnext, slice_append_drop, slice_append_drop]
    · rw [map_cons, sum_cons, add_assoc]
    · rw [map_cons, sum_cons, add_assoc]

theorem decodeChildren_ok {children : List (Child Id)} {index total totalChunks : Nat}
    (h : ChildrenOk shape count capacity index children)
    (hindex : index + children.length ≤ 65536)
    (hbytes : bytes.drop (18 + index * 16) = children.flatMap childFields)
    (htotal : total + (children.map Child.logicalBytes).sum < wordLimit)
    (htotalChunks : totalChunks + (children.map Child.chunkCount).sum < wordLimit) :
    decodeChildren object bytes shape count capacity index total totalChunks
        (treeReferences index children) =
      .ok (children, total + (children.map Child.logicalBytes).sum,
        totalChunks + (children.map Child.chunkCount).sum) := by
  induction children generalizing index total totalChunks with
  | nil =>
    rfl
  | cons child rest ih =>
    obtain ⟨hchild, hrest⟩ := h
    rw [length_cons] at hindex
    rw [map_cons, sum_cons, ← add_assoc] at htotal htotalChunks ⊢
    rw [map_cons, sum_cons, ← add_assoc]
    have hword : wordLimit = 256 ^ 8 := rfl
    -- The fields read back.
    have hfields : bytes.drop (18 + index * 16) =
        leBytes 8 child.logicalBytes ++ (leBytes 8 child.chunkCount ++
          rest.flatMap childFields) := by
      rw [hbytes, flatMap_cons, childFields, append_assoc]
    have hlogical : ofLe (slice bytes (18 + index * 16) 8) = child.logicalBytes := by
      rw [slice, hfields, take_left' (length_leBytes 8 _), ofLe_leBytes (by omega)]
    have hsecond : bytes.drop (18 + index * 16 + 8) =
        leBytes 8 child.chunkCount ++ rest.flatMap childFields := by
      rw [← drop_drop, hfields, drop_left' (length_leBytes 8 _)]
    have hcounts : ofLe (slice bytes (18 + index * 16 + 8) 8) = child.chunkCount := by
      rw [slice, hsecond, take_left' (length_leBytes 8 _), ofLe_leBytes (by omega)]
    have hnext : bytes.drop (18 + (index + 1) * 16) = rest.flatMap childFields := by
      have heq : 18 + (index + 1) * 16 = 18 + index * 16 + 8 + 8 := by omega
      rw [heq, ← drop_drop, hsecond, drop_left' (length_leBytes 8 _)]
    have hadd : checkedAdd total child.logicalBytes = some (total + child.logicalBytes) :=
      checkedAdd_eq_some.2 ⟨rfl, by omega⟩
    have haddChunks : checkedAdd totalChunks child.chunkCount =
        some (totalChunks + child.chunkCount) := checkedAdd_eq_some.2 ⟨rfl, by omega⟩
    have hpos := hchild.logicalBytes_pos
    have hpos' := hchild.chunkCount_pos
    have hrun := ih hrest (by omega) hnext htotal htotalChunks
    unfold treeReferences decodeChildren
    rw [require_pos (by omega), require_pos ⟨rfl, rfl⟩]
    dsimp only
    rw [hlogical, hcounts, require_pos ⟨by omega, by omega, hchild.chunkCount_le, hchild.full⟩,
      validateProfileBounds_ok hchild.maximum_lt hchild.bounds, hadd]
    rw [haddChunks]
    show (decodeChildren _ _ _ _ _ _ _ _ _ >>= _) = _
    rw [hrun]
    rfl

theorem length_treeReferences (children : List (Child Id)) (index : Nat) : (treeReferences index
    children).length = children.length := by
  induction children generalizing index with
  | nil =>
    rfl
  | cons _ _ ih =>
    rw [treeReferences, length_cons, ih, length_cons]

/-- The children of a node of `treeDepth` levels have the expected shape. -/
structure TreeOk (shape : ExpectedShape) (treeDepth : Nat) (children : List (Child Id)) :
    Prop where
  ne_nil : children ≠ []
  length_le : children.length ≤ chunkTreeFanout
  bytes_eq : (children.map Child.logicalBytes).sum = shape.logicalBytes
  count_eq : (children.map Child.chunkCount).sum = shape.chunkCount
  children : ChildrenOk shape children.length (treeCapacity (treeDepth - 1)) 0 children

variable {treeDepth : Nat} {children : List (Child Id)}

theorem TreeOk.lt (h : TreeOk shape treeDepth children) : children.length ≤ 65536 :=
  Nat.le_trans h.length_le (by decide)

theorem treeBytes_eq (children : List (Child Id)) (logicalBytes chunkCount : Nat) :
    treeBytes children logicalBytes chunkCount = leBytes 2 children.length ++
      (leBytes 8 logicalBytes ++ (leBytes 8 chunkCount ++ children.flatMap childFields)) := rfl

theorem length_treeBytes (children : List (Child Id)) (logicalBytes chunkCount : Nat) :
    (treeBytes children logicalBytes chunkCount).length = 18 + children.length * 16 := by
  rw [treeBytes_eq]
  simp only [length_append, length_leBytes, length_flatMap_childFields]
  omega

theorem decodeTree_ok (h : TreeOk shape treeDepth children)
    (hbytes : shape.logicalBytes < wordLimit) (hcount : shape.chunkCount < wordLimit) :
    decodeTree object (treeObject children h.lt) treeDepth shape = .ok children := by
  have hword : wordLimit = 256 ^ 8 := rfl
  have hfanout : chunkTreeFanout = 128 := rfl
  have hlen := h.length_le
  have hpos : 0 < children.length := length_pos_of_ne_nil h.ne_nil
  have hsize := length_treeBytes children shape.logicalBytes shape.chunkCount
  -- The header reads back.
  have hcountField : ofLe (slice (treeBytes children shape.logicalBytes shape.chunkCount) 0 2) =
      children.length := by
    rw [treeBytes_eq, slice_here (length_leBytes 2 _), ofLe_leBytes (by omega)]
  have hlogicalField :
      ofLe (slice (treeBytes children shape.logicalBytes shape.chunkCount) 2 8) =
        shape.logicalBytes := by
    rw [treeBytes_eq, slice_skip (by simp), length_leBytes, slice_here (length_leBytes 8 _),
      ofLe_leBytes (by omega)]
  have hchunksField :
      ofLe (slice (treeBytes children shape.logicalBytes shape.chunkCount) 10 8) =
        shape.chunkCount := by
    rw [treeBytes_eq, slice_skip (by simp), length_leBytes, slice_skip (by simp), length_leBytes,
      slice_here (length_leBytes 8 _), ofLe_leBytes (by omega)]
  have hfields : (treeBytes children shape.logicalBytes shape.chunkCount).drop (18 + 0 * 16) =
      children.flatMap childFields := by
    simp [treeBytes_eq, drop_skip]
  have hrun : decodeChildren object (treeBytes children shape.logicalBytes shape.chunkCount) shape
      children.length (treeCapacity (treeDepth - 1)) 0 0 0 (treeReferences 0 children) = _ :=
    decodeChildren_ok h.children (by omega) hfields
      (by rw [h.bytes_eq]; omega) (by rw [h.count_eq]; omega)
  rw [h.bytes_eq, h.count_eq, zero_add, zero_add] at hrun
  unfold decodeTree treeObject
  dsimp only
  rw [h.bytes_eq, h.count_eq, require_pos ⟨rfl, rfl, rfl, by omega⟩, hcountField, hlogicalField,
    hchunksField, require_pos ⟨by omega, hlen, length_treeReferences children 0, hsize, rfl, rfl⟩,
    hrun]
  show (require _ _ >>= _) = _
  rw [require_pos ⟨rfl, rfl⟩]
  rfl

theorem decodeTree_inv {record : ObjectRecord Id} (hkind : record.kind = .chunkTree)
    (h : decodeTree object record treeDepth shape = .ok children) :
    ∃ hok : TreeOk shape treeDepth children, record = treeObject children hok.lt := by
  simp only [decodeTree, bind_eq_ok, require_eq_ok] at h
  obtain ⟨_, hrecord, _, hheader, ⟨decoded, _, _⟩, hrun, _, htotals, hout⟩ := h
  cases hout
  obtain ⟨hversion, hcls, hlogical, _⟩ := hrecord
  obtain ⟨_, hfanout, hreferences, _, hbytes, hchunks⟩ := hheader
  obtain ⟨hrefs, hfields, rfl, rfl, hok⟩ := decodeChildren_inv hrun (by omega)
  dsimp only at htotals
  rw [zero_add, zero_add] at htotals
  have hlength : decoded.length = record.references.length := by
    rw [hrefs, length_treeReferences]
  have htree : TreeOk shape treeDepth decoded := by
    refine ⟨?_, ?_, ?_, ?_, ?_⟩
    · exact ne_nil_of_length_pos (by omega)
    · rw [hlength, hreferences]
      exact hfanout
    · rw [htotals.1, hbytes]
    · rw [htotals.2, hchunks]
    · rw [hlength, hreferences]
      exact hok
  refine ⟨htree, ?_⟩
  -- The header fields and the children's fields are all of the bytes.
  have hpayload : record.canonicalBytes = treeBytes decoded
      (decoded.map Child.logicalBytes).sum (decoded.map Child.chunkCount).sum := by
    have hfirst := leBytes_ofLe (slice record.canonicalBytes 0 2)
    have hsecond := leBytes_ofLe (slice record.canonicalBytes 2 8)
    have hthird := leBytes_ofLe (slice record.canonicalBytes 10 8)
    rw [length_slice (by omega)] at hfirst hsecond hthird
    rw [treeBytes_eq, htotals.1, htotals.2, hlength, hreferences, hfirst, hsecond, hthird,
      ← hfields,
      slice_append_drop, slice_append_drop, slice_append_drop, drop_zero]
  obtain ⟨_, _, _, _, _, _, _⟩ := record
  subst hkind hversion hcls hlogical hpayload hrefs
  rfl

end Trees

/-! ## File records -/

section Files

theorem fastcdcV2020_ok (profile : ChunkingProfile) :
    (fastcdcV2020 profile.minimumBytes profile.averageBytes profile.maximumBytes
      profile.gearSeed : Except (ContentError Id) ChunkingProfile) = .ok profile := by
  unfold fastcdcV2020
  rw [dif_pos profile.supported, dif_pos profile.ordered, dif_pos profile.power]

theorem fastcdcV2020_inv {minimum average maximum : Nat} {seed : UInt64}
    (h : (fastcdcV2020 minimum average maximum seed : Except (ContentError Id) _) = .ok profile) :
    profile.minimumBytes = minimum ∧ profile.averageBytes = average ∧
      profile.maximumBytes = maximum ∧ profile.gearSeed = seed := by
  unfold fastcdcV2020 at h
  split at h
  next =>
    split at h
    next =>
      split at h
      next =>
        cases h
        exact ⟨rfl, rfl, rfl, rfl⟩
      next => cases h
    next => cases h
  next => cases h

variable {chunkCount logicalBytes : Nat}

theorem decodeFileHeader_ok (hbytes : logicalBytes < wordLimit) (hcount : chunkCount < wordLimit) :
    decodeFileHeader object (encodeFileHeader profile logicalBytes chunkCount) =
      .ok (profile, logicalBytes, chunkCount) := by
  have hsupported := profile.supported
  have hminimum : ofLe (slice (encodeFileHeader profile logicalBytes chunkCount) 4 4) =
      profile.minimumBytes := ofLe_leBytes (n := 4) (by omega)
  have haverage : ofLe (slice (encodeFileHeader profile logicalBytes chunkCount) 8 4) =
      profile.averageBytes := ofLe_leBytes (n := 4) (by omega)
  have hmaximum : ofLe (slice (encodeFileHeader profile logicalBytes chunkCount) 12 4) =
      profile.maximumBytes := ofLe_leBytes (n := 4) (by omega)
  have hseed : UInt64.ofNat (ofLe (slice (encodeFileHeader profile logicalBytes chunkCount) 16 8)) =
      profile.gearSeed := by
    have hword : ofLe (slice (encodeFileHeader profile logicalBytes chunkCount) 16 8) =
      profile.gearSeed.toNat := ofLe_leBytes_word profile.gearSeed
    rw [hword, UInt64.ofNat_toNat]
  have hlogical : ofLe (slice (encodeFileHeader profile logicalBytes chunkCount) 24 8) =
      logicalBytes := ofLe_leBytes (n := 8) hbytes
  have hchunks : ofLe (slice (encodeFileHeader profile logicalBytes chunkCount) 32 8) =
      chunkCount := ofLe_leBytes (n := 8) hcount
  unfold decodeFileHeader
  rw [hminimum, haverage, hmaximum, hseed, fastcdcV2020_ok, ok_bind, hlogical, hchunks]
  rfl

theorem decodeFileHeader_inv {bytes : Bytes}
    (h : decodeFileHeader object bytes = .ok (profile, logicalBytes, chunkCount)) :
    bytes = encodeFileHeader profile logicalBytes chunkCount ∧ logicalBytes < wordLimit ∧
      chunkCount < wordLimit := by
  simp only [decodeFileHeader, bind_eq_ok, require_eq_ok] at h
  obtain ⟨_, ⟨hlen, hcode, hrevision, hlevel⟩, _, hprofile, hout⟩ := h
  cases hout
  obtain ⟨hminimum, haverage, hmaximum, hseed⟩ := fastcdcV2020_inv hprofile
  have hforty : bytes.length = 40 := hlen
  have hfield : ∀ start len, start + len ≤ 40 →
      leBytes len (ofLe (slice bytes start len)) = slice bytes start len := by
    intro start len hend
    have hfield := leBytes_ofLe (slice bytes start len)
    rw [length_slice (by omega)] at hfield
    exact hfield
  have hlt : ∀ start, start + 8 ≤ 40 → ofLe (slice bytes start 8) < wordLimit := by
    intro start hend
    have hlt := ofLe_lt (slice bytes start 8)
    rw [length_slice (by omega)] at hlt
    exact hlt
  refine ⟨?_, hlt 24 (by omega), hlt 32 (by omega)⟩
  have hseedField : leBytes 8 profile.gearSeed.toNat = slice bytes 16 8 := by
    rw [hseed, UInt64.toNat_ofNat_of_lt' (hlt 16 (by omega)), hfield 16 8 (by omega)]
  have hend : bytes.drop 40 = [] := drop_of_length_le (by omega)
  have htail : slice bytes 32 8 = bytes.drop 32 := by
    rw [← slice_append_drop bytes 32 8, hend, append_nil]
  -- The header is the nine slices one after the other.
  have hheader : encodeFileHeader profile (ofLe (slice bytes 24 8)) (ofLe (slice bytes 32 8)) =
      slice bytes 0 1 ++ (slice bytes 1 2 ++ (slice bytes 3 1 ++ (slice bytes 4 4 ++
        (slice bytes 8 4 ++ (slice bytes 12 4 ++ (slice bytes 16 8 ++ (slice bytes 24 8 ++
          slice bytes 32 8))))))) := by
    rw [hcode, hrevision, hlevel, encodeFileHeader, hminimum, haverage, hmaximum, hseedField,
      hfield 4 4 (by omega), hfield 8 4 (by omega), hfield 12 4 (by omega), hfield 24 8 (by omega),
      hfield 32 8 (by omega)]
  rw [hheader, htail, slice_append_drop bytes 24 8, slice_append_drop bytes 16 8,
    slice_append_drop bytes 12 4, slice_append_drop bytes 8 4, slice_append_drop bytes 4 4,
    slice_append_drop bytes 3 1, slice_append_drop bytes 1 2, slice_append_drop bytes 0 1,
    drop_zero]

/-- The conditions on a file's header and its content reference. -/
structure FileOk (profile : ChunkingProfile) (logicalBytes chunkCount : Nat)
    (content : Option Id) : Prop where
  bytes_lt : logicalBytes < wordLimit
  count_lt : chunkCount < wordLimit
  empty : logicalBytes = 0 → chunkCount = 0 ∧ content = none
  threshold : logicalBytes ≠ 0 → (chunkCount = 1 ↔ logicalBytes ≤ profile.maximumBytes)
  present : logicalBytes ≠ 0 → chunkCount ≠ 0 ∧ content.isSome

variable {content : Option Id}

theorem decodeFile_ok (h : FileOk profile logicalBytes chunkCount content) :
    decodeFile object (fileObject profile logicalBytes chunkCount content) =
      .ok (profile, logicalBytes, chunkCount, content) := by
  have hthreshold : logicalBytes = 0 ∨ (chunkCount = 1 ↔ logicalBytes ≤ profile.maximumBytes) := by
    by_cases hzero : logicalBytes = 0
    · exact .inl hzero
    · exact .inr (h.threshold hzero)
  show (decodeFileHeader object (encodeFileHeader profile logicalBytes chunkCount) >>= _) = _
  rw [decodeFileHeader_ok h.bytes_lt h.count_lt]
  show (require _ _ >>= _) = _
  rw [require_pos hthreshold]
  by_cases hzero : logicalBytes = 0
  · obtain ⟨rfl, rfl⟩ := h.empty hzero
    subst hzero
    rfl
  obtain ⟨hcount, hsome⟩ := h.present hzero
  obtain ⟨_, rfl⟩ := Option.isSome_iff_exists.1 hsome
  obtain ⟨_, rfl⟩ := Nat.exists_eq_succ_of_ne_zero hzero
  obtain ⟨_, rfl⟩ := Nat.exists_eq_succ_of_ne_zero hcount
  rfl

theorem decodeFile_inv {record : ObjectRecord Id}
    (h : decodeFile object record = .ok (profile, logicalBytes, chunkCount, content)) :
    record = fileObject profile logicalBytes chunkCount content ∧
      FileOk profile logicalBytes chunkCount content := by
  simp only [decodeFile, bind_eq_ok, require_eq_ok] at h
  obtain ⟨_, ⟨hkind, hversion, hcls, hlogical⟩, ⟨_, _, _⟩, hheader, _, hthreshold,
    hout⟩ := h
  obtain ⟨hpayload, hbytes, hcount⟩ := decodeFileHeader_inv hheader
  obtain ⟨kind, _, _, _, _, _, _⟩ := record
  dsimp only at hkind hversion hcls hlogical hpayload hthreshold hout
  subst hkind hversion hcls hlogical hpayload
  split at hout
  next _ _ _ _ hlength _ =>
    cases hout
    obtain rfl := eq_nil_of_length_eq_zero hlength
    exact ⟨rfl, hbytes, hcount, fun _ => ⟨rfl, rfl⟩, fun h => absurd rfl h, fun h => absurd rfl h⟩
  next => cases hout
  next => cases hout
  next _ _ _ _ reference hbytes' hcount' hlength hreference =>
    split at hout
    next howns =>
      cases hout
      -- The only reference is the one that was found.
      obtain ⟨only, rfl⟩ := length_eq_one_iff.1 hlength
      have hfound : only.label = contentLabel ∧ only = reference := by
        have hfind : [only].find? (fun r => decide (r.label = contentLabel)) = some reference :=
          hreference
        have hmem := mem_of_find?_eq_some hfind
        have hlabel := find?_some hfind
        obtain rfl := mem_singleton.1 hmem
        exact ⟨of_decide_eq_true hlabel, rfl⟩
      obtain ⟨hlabel, rfl⟩ := hfound
      obtain ⟨label, _, kind⟩ := only
      obtain rfl : label = contentLabel := hlabel
      obtain rfl : kind = .owns := howns
      have hnonzero : logicalBytes ≠ 0 := hbytes'
      exact ⟨rfl, hbytes, hcount, fun h => absurd h hnonzero,
        fun h => hthreshold.resolve_left h, fun _ => ⟨hcount', rfl⟩⟩
    next => cases hout
  next => cases hout

end Files

end Astrid.Content
