import Astrid.Content.Sparse

/-!
# Building and verifying are inverse

The two directions of the exactness of verification, put together from the walk and the
window. What the builder makes of a byte string opens, and reads back as that string as
long as its tree is not too large for the reader (`readContent_held`). What a validating
read returns from a content-addressed source, the builder turns into the same file
(`opened_of_verified`).

Both conditions are needed: zeros under the sparse profile are built and cannot be read,
and a source that answers every identity with one record has that record verified under
each of them.
-/

namespace Astrid.Content

open Std List

/-! ## Opening -/

section Open

variable {Id E : Type} {env : ContentEnv Id} {source : ContentSource Id E}
  {profile : ChunkingProfile}

theorem openContent_eq_ok {file : Id} {opened : OpenedContent Id} :
    openContent source file = .ok opened ↔ ∃ profile logicalBytes chunkCount content,
        Serves source file (fileObject profile logicalBytes chunkCount content) ∧
        FileOk profile logicalBytes chunkCount content ∧
        opened = ⟨⟨file, logicalBytes, chunkCount, profile⟩, content⟩ := by
  simp only [openContent, bind_eq_ok, mapError_eq_ok, load_ok]
  constructor
  · rintro ⟨record, hrecord, ⟨profile, logicalBytes, chunkCount, content⟩, hdecode, hout⟩
    obtain ⟨rfl, hok⟩ := decodeFile_inv hdecode
    cases hout
    exact ⟨profile, logicalBytes, chunkCount, content, hrecord, hok, rfl⟩
  · rintro ⟨profile, logicalBytes, chunkCount, content, hrecord, hok, rfl⟩
    exact ⟨_, hrecord, _, decodeFile_ok hok, rfl⟩

variable {content : Bytes}

section

variable (profile : ChunkingProfile)

/-- A file is one chunk exactly if it is small. -/
theorem length_fileChunks_eq_one (hne : content ≠ []) :
    (fileChunks profile content).length = 1 ↔ content.length ≤ profile.maximumBytes := by
  constructor
  · intro hone
    obtain ⟨chunk, hchunk⟩ := length_eq_one_iff.1 hone
    have hflat := flatten_fileChunks profile content
    rw [hchunk, flatten_singleton] at hflat
    rw [← hflat]
    apply (sized_fileChunks profile content).le
    rw [hchunk]
    exact mem_singleton_self chunk
  · intro hsmall
    rw [fileChunks, chunksOf, if_neg hne, if_pos (decide_eq_true hsmall)]
    rfl

theorem fileChunks_ne_nil (hne : content ≠ []) : fileChunks profile content ≠ [] := by
  intro hnil
  apply hne
  rw [← flatten_fileChunks profile content, hnil, flatten_nil]

theorem length_fileChunks_le (content : Bytes) :
    (fileChunks profile content).length ≤ content.length := by
  have hle := length_le_flatten
    (chunksOf_ne_nil profile (decide (content.length ≤ profile.maximumBytes)) content)
  rw [flatten_chunksOf] at hle
  exact hle

end

/-- The header of a canonical file passes the reader's checks. -/
theorem fileOk_fileChunks (env : ContentEnv Id) (profile : ChunkingProfile)
    (hlen : content.length < wordLimit) :
    FileOk profile content.length (fileChunks profile content).length
      (contentRoot env (fileChunks profile content)) where
  bytes_lt := hlen
  count_lt := Nat.lt_of_le_of_lt (length_fileChunks_le profile content) hlen
  empty := by
    intro hzero
    rw [eq_nil_of_length_eq_zero hzero]
    exact ⟨rfl, rfl⟩
  threshold := by
    intro hpos
    exact length_fileChunks_eq_one profile (ne_nil_of_length_pos (Nat.pos_of_ne_zero hpos))
  present := by
    intro hpos
    have hne := fileChunks_ne_nil profile
      (ne_nil_of_length_pos (Nat.pos_of_ne_zero hpos))
    refine ⟨ne_of_gt (length_pos_of_ne_nil hne), ?_⟩
    rw [contentRoot, if_neg hne]
    rfl

/-- A held canonical file opens to the builder's token. -/
theorem openContent_held (hlen : content.length < wordLimit)
    (hheld : HeldFile env (Serves source) profile (fileChunks profile content)) :
    openContent source (canonicalFile env profile (fileChunks profile
      content)).opened.descriptor.file =
      .ok (canonicalFile env profile (fileChunks profile content)).opened := by
  have hflat := flatten_fileChunks profile content
  show openContent source (env.identify (canonicalObject env profile _)) = _
  refine openContent_eq_ok.2 ⟨profile, content.length, (fileChunks profile content).length,
    contentRoot env (fileChunks profile content), ?_, fileOk_fileChunks env profile hlen, ?_⟩
  · have hfile := hheld.file
    rw [canonicalObject, hflat] at hfile
    rw [canonicalObject, hflat]
    exact hfile
  · rw [canonicalFile, hflat]

theorem fits_fileChunks (profile : ChunkingProfile) (hlen : content.length < wordLimit)
    (hne : content ≠ []) :
    Fits (Nat.clog chunkTreeFanout (fileChunks profile content).length)
      (fileChunks profile content) where
  ne_nil := fileChunks_ne_nil profile hne
  length_le := Nat.le_pow_clog (by decide) _
  chunk_ne_nil := chunksOf_ne_nil profile _ content
  bytes_lt := by
    rw [flatten_fileChunks]
    exact hlen

/-- The tree of a canonical file, held. -/
theorem heldContent_of_heldFile (hlen : content.length < wordLimit) (hne : content ≠ [])
    (hheld : HeldFile env (Serves source) profile (fileChunks profile content)) :
    HeldContent env source profile (fileChunks profile content) where
  fits := fits_fileChunks profile hlen hne
  held := hheld.tree (fileChunks_ne_nil profile hne)
  sized := sized_fileChunks profile content

end Open

/-! ## Reading -/

section Read

variable {Id E : Type} {env : ContentEnv Id} {source : ContentSource Id E}
  {profile : ChunkingProfile}

/-- A root that decodes bounds every full subtree below it: its first child is full,
because one child would not hold the chunks. -/
theorem readableCount_of_treeOk {d : Nat} {shape : ExpectedShape} {children : List (Child Id)}
    (hok : TreeOk shape (d + 1) children)
    (hdepth : Nat.clog chunkTreeFanout shape.chunkCount = d + 1)
    (hcapacity : chunkTreeFanout ^ d < wordLimit) :
    ReadableCount shape.profile shape.chunkCount := by
  have hmore : chunkTreeFanout ^ d < shape.chunkCount := Nat.pow_lt_of_lt_clog (by omega)
  obtain ⟨hnil, _, _, hcount, hchildren⟩ := hok
  rw [Nat.add_sub_cancel, treeCapacity_eq hcapacity] at hchildren
  cases children with
  | nil => exact absurd rfl hnil
  | cons first rest =>
    have hfirst := hchildren.1
    have hlong : 0 + 1 < (first :: rest).length := by
      by_contra hshort
      have hrest : rest = [] := by
        apply eq_nil_of_length_eq_zero
        rw [length_cons] at hshort
        omega
      rw [hrest, map_singleton, sum_singleton] at hcount
      have hle := hfirst.chunkCount_le
      omega
    have hlimit := hfirst.maximum_lt
    rw [hfirst.full hlong] at hlimit
    intro k hk
    refine Nat.lt_of_le_of_lt (Nat.mul_le_mul_right _ ?_) hlimit
    exact Nat.pow_le_pow_right (by decide) (by omega)

variable [DecidableEq Id]

/-- A walk that reads the tree of a file has decoded its root. -/
theorem readableCount_of_walk {chunks : List Bytes} (h : HeldContent env source profile chunks)
    {range : RequestedRange} {record : ObjectRecord Id} {traversal traversal' : RangeTraversal Id}
    (hrecord : Serves source (rootNode env profile chunks).object record)
    (hwalk : appendLoadedRange source range (Nat.clog chunkTreeFanout chunks.length)
      (rootNode env profile chunks) record traversal = .ok traversal') :
    ReadableCount profile chunks.length := by
  cases hdepth : Nat.clog chunkTreeFanout chunks.length with
  | zero =>
    intro k hk
    rw [hdepth] at hk
    exact absurd hk (Nat.not_lt_zero k)
  | succ d =>
    have hfits := h.fits
    have hheld := h.held
    rw [hdepth] at hfits hheld hwalk
    have hobject : (rootNode env profile chunks).object = (treeChild env (d + 1) chunks).id := by
      rw [rootNode, hdepth]
    have hsame : record = treeObject (treeChildren env d chunks)
        (treeChildren_lt env hfits).le := by
      rw [hobject] at hrecord
      exact functional_serves source _ _ _ hrecord (hheld.root env hfits)
    have hkind : record.kind = .chunkTree := by
      rw [hsame]
      rfl
    unfold appendLoadedRange at hwalk
    rw [hkind] at hwalk
    simp only [bind_eq_ok, mapError_eq_ok] at hwalk
    obtain ⟨_, hdecode, _⟩ := hwalk
    obtain ⟨hok, _⟩ := decodeTree_inv hkind hdecode
    have hcapacity : chunkTreeFanout ^ d < wordLimit :=
      pow_lt_of_lt_depth h.fits.length_lt (by omega)
    exact readableCount_of_treeOk hok hdepth hcapacity

variable {bytes : Bytes} {opened : OpenedContent Id} {token : VerifiedContent Id}

theorem readOpenedContentAndVerify_eq_ok :
    readOpenedContentAndVerify source opened = .ok (bytes, token) ↔
      (∃ delta, readDecodedRange source opened 0 opened.descriptor.logicalBytes .validate =
        .ok (bytes, delta)) ∧ token = ⟨opened⟩ := by
  simp only [readOpenedContentAndVerify, bind_eq_ok]
  constructor
  · rintro ⟨⟨_, delta⟩, hread, hout⟩
    cases hout
    exact ⟨⟨delta, hread⟩, rfl⟩
  · rintro ⟨⟨delta, hread⟩, rfl⟩
    exact ⟨_, hread, rfl⟩

/-- A validating read of a nonempty file that succeeds has walked the tree of the file. -/
theorem readDecodedRange_inv {offset length : Nat} {mode : BoundaryMode Id}
    {delta : ContentVerificationState Id}
    (h : readDecodedRange source opened offset length mode = .ok (bytes, delta))
    (hlength : length ≠ 0) :
    ∃ content record traversal, opened.content = some content ∧ Serves source content record ∧
      appendLoadedRange source ⟨offset, offset + length⟩
        (canonicalTreeDepth opened.descriptor.chunkCount)
        ⟨content, ⟨opened.descriptor.logicalBytes, opened.descriptor.chunkCount,
          opened.descriptor.profile, true⟩, 0, []⟩ record ⟨[], mode.window⟩ = .ok traversal := by
  simp only [readDecodedRange, bind_eq_ok, okOr_eq_ok, checkedAdd_eq_some, require_eq_ok,
    if_neg hlength, load_ok] at h
  obtain ⟨_, ⟨rfl, _⟩, _, _, content, hcontent, record, hrecord, traversal, hwalk, _⟩ := h
  exact ⟨content, record, traversal, hcontent, hrecord, hwalk⟩

/-- A held canonical file is read back, unless its tree is too large for the reader. -/
theorem readDecodedRange_held {content : Bytes} (hlen : content.length < wordLimit)
    (hheld : HeldFile env (Serves source) profile (fileChunks profile content)) :
    (∃ delta, readDecodedRange source (canonicalFile env profile
      (fileChunks profile content)).opened
        0 content.length .validate = .ok (content, delta)) ↔
      ReadableCount profile (fileChunks profile content).length := by
  have hflat := flatten_fileChunks profile content
  by_cases hnil : content = []
  · -- Nothing is walked for an empty file.
    subst hnil
    refine ⟨fun _ k hk => absurd hk (Nat.not_lt_zero k), fun _ => ⟨[], rfl⟩⟩
  have hcontent := heldContent_of_heldFile hlen hnil hheld
  have hpos : 0 < content.length := length_pos_of_ne_nil hnil
  constructor
  · rintro ⟨delta, hread⟩
    obtain ⟨root, record, _, hroot, hrecord, hwalk⟩ :=
      readDecodedRange_inv hread (by omega)
    have hsome : contentRoot env (fileChunks profile content) =
        some (rootNode env profile (fileChunks profile content)).object :=
      if_neg (fileChunks_ne_nil profile hnil)
    have hsame : root = (rootNode env profile (fileChunks profile content)).object :=
      Option.some.inj (hroot.symm.trans hsome)
    subst hsame
    have hdepth : canonicalTreeDepth (fileChunks profile content).length =
        Nat.clog chunkTreeFanout (fileChunks profile content).length :=
      canonicalTreeDepth_eq hcontent.fits.length_lt
    change appendLoadedRange source _ (canonicalTreeDepth (fileChunks profile content).length)
      (rootNode env profile (fileChunks profile content)) record _ = _ at hwalk
    rw [hdepth] at hwalk
    exact readableCount_of_walk hcontent hrecord hwalk
  · intro hreadable
    have hthreshold := length_fileChunks_eq_one profile hnil
    have hcanonical : CanonicalChunks profile (fileChunks profile content) := by
      refine (canonicalChunks_iff hcontent.fits.ne_nil hcontent.fits.chunk_ne_nil hcontent.sized
        ?_).2 ?_
      · rw [hflat]
        exact hthreshold
      · rw [hflat]
    have hread := (readWhole_cases
      (canonicalFile env profile (fileChunks profile content)).opened.descriptor.file
      hcontent hreadable).resolve_right fun h => h.1 hcanonical
    rw [hflat] at hread
    exact hread.2

/-- Whatever a content-addressed source offers, a file that passes a validating read is the
file of the bytes that were read. -/
theorem opened_of_verified (haddressed : AddressedSource env source) {file : Id}
    (hopen : openContent source file = .ok opened)
    (hread : readOpenedContentAndVerify source opened = .ok (bytes, token)) :
    bytes.length < wordLimit ∧ token = canonicalFile env opened.descriptor.profile
        (fileChunks opened.descriptor.profile bytes) ∧
      token.opened.descriptor.file = file ∧
      HeldFile env (Serves source) opened.descriptor.profile
        (fileChunks opened.descriptor.profile bytes) := by
  obtain ⟨profile, logicalBytes, _, _, hfile, hok, rfl⟩ :=
    openContent_eq_ok.1 hopen
  have hidentity := haddressed _ _ hfile
  obtain ⟨⟨_, hrange⟩, rfl⟩ := readOpenedContentAndVerify_eq_ok.1 hread
  by_cases hzero : logicalBytes = 0
  · obtain ⟨rfl, rfl⟩ := hok.empty hzero
    subst hzero
    cases hrange
    refine ⟨by decide, ?_, rfl, ?_, fun hne => absurd rfl hne⟩
    · rw [← hidentity]
      rfl
    · rw [← hidentity] at hfile
      exact hfile
  · obtain ⟨_, _, _, rfl, hrecord, hwalk⟩ := readDecodedRange_inv hrange hzero
    rw [canonicalTreeDepth_eq hok.count_lt] at hwalk
    obtain ⟨chunks, hfits, hheld, hshaped, hroot⟩ := walk_accepted haddressed _
      (fun k hk => pow_lt_of_lt_depth hok.count_lt hk) hwalk (Nat.le_refl 0) (le_rfl)
      hok.bytes_lt hrecord
    obtain ⟨hbytes, hcount, hsized⟩ := hshaped
    subst hbytes hcount hroot
    have hcontent : HeldContent env source profile chunks := ⟨hfits, hheld, hsized⟩
    have hreadable : ReadableCount profile chunks.length :=
      readableCount_of_walk hcontent hrecord hwalk
    have hopened : contentRoot env chunks =
        some (treeChild env (Nat.clog chunkTreeFanout chunks.length) chunks).id :=
      if_neg hfits.ne_nil
    rcases readWhole_cases file hcontent hreadable with ⟨hcanonical, _, hwhole⟩ | ⟨_, _, hwhole⟩
    · rw [openedChunks, hopened, hrange] at hwhole
      cases hwhole
      have hthreshold := hok.threshold (ne_of_gt hcontent.pos)
      have hchunks := (canonicalChunks_iff hfits.ne_nil hfits.chunk_ne_nil hsized hthreshold).1
        hcanonical
      rw [← hchunks]
      have hobject : env.identify (canonicalObject env profile chunks) = file := by
        rw [canonicalObject, hopened, hidentity]
      refine ⟨hfits.bytes_lt, ?_, rfl, ?_, fun _ => hheld⟩
      · rw [canonicalFile, hobject, hopened]
      · rw [hobject, canonicalObject, hopened]
        exact hfile
    · rw [openedChunks, hopened, hrange] at hwhole
      cases hwhole

end Read

/-! ## Exactness -/

section Exactness

variable {Id E : Type} [Key Id] {env : ContentEnv Id} {profile : ChunkingProfile}

/-- A source that answers from a map of records. -/
def mapSource (records : Records Id) : ContentSource Id E := fun id => .ok records[id]?

theorem serves_mapSource {records : Records Id} {id : Id} {record : ObjectRecord Id} :
    Serves (mapSource records : ContentSource Id E) id record ↔ Has records id record := by
  constructor
  · intro h
    exact Except.ok.inj h
  · intro h
    exact congrArg Except.ok h

/-- A read of a held canonical file, from the identity of the file on. -/
theorem readContent_held {source : ContentSource Id E} {content : Bytes}
    (hlen : content.length < wordLimit)
    (hheld : HeldFile env (Serves source) profile (fileChunks profile content)) :
    readContent source
        (canonicalFile env profile (fileChunks profile content)).opened.descriptor.file =
          .ok content ↔
      ReadableCount profile (fileChunks profile content).length := by
  have hlogical : (canonicalFile env profile
      (fileChunks profile content)).opened.descriptor.logicalBytes = content.length :=
    congrArg length (flatten_fileChunks profile content)
  rw [← readDecodedRange_held hlen hheld, readContent, openContent_held hlen hheld, ok_bind]
  simp only [bind_eq_ok]
  constructor
  · rintro ⟨⟨bytes, token⟩, hread, hout⟩
    cases hout
    obtain ⟨hrange, _⟩ := readOpenedContentAndVerify_eq_ok.1 hread
    rw [hlogical] at hrange
    exact hrange
  · intro hrange
    rw [← hlogical] at hrange
    exact ⟨_, readOpenedContentAndVerify_eq_ok.2 ⟨hrange, rfl⟩, rfl⟩

/-- Verification is exact. Every byte string is built, and read back from its records
exactly if its tree is readable; every file that a content-addressed source has verified is
the one the builder makes of its bytes; and checks of one chunk and two bytes decide
whether a chunk list is the chunking of its concatenation. -/
theorem contentVerification_exact (hsound : env.Sound) :
    (∀ (profile : ChunkingProfile) (content : Bytes), content.length < wordLimit →
      ∃ built, buildContent env profile content = .ok built ∧ ∀ source : ContentSource Id E,
          (∀ id record, Has built.records id record → Serves source id record) →
          (readContent source built.verified.opened.descriptor.file = .ok content ↔
            ReadableCount profile (fileChunks profile content).length)) ∧
    (∀ source : ContentSource Id E, AddressedSource env source → ∀ file opened bytes token,
      openContent source file = .ok opened →
      readOpenedContentAndVerify source opened = .ok (bytes, token) →
      ∃ built, buildContent env opened.descriptor.profile bytes = .ok built ∧
        built.verified = token ∧ built.verified.opened.descriptor.file = file) ∧
    ∀ (profile : ChunkingProfile) (chunks : List Bytes), chunks ≠ [] →
      (∀ chunk ∈ chunks, chunk ≠ []) → Sized profile true chunks →
      (chunks.length = 1 ↔ chunks.flatten.length ≤ profile.maximumBytes) →
      (CanonicalChunks profile chunks ↔ chunks = fileChunks profile chunks.flatten) := by
  refine ⟨fun profile content hlen => ?_, fun source haddressed file opened bytes token hopen
    hread => ?_, fun profile chunks hnil hne hsized hthreshold =>
      canonicalChunks_iff hnil hne hsized hthreshold⟩
  · obtain ⟨built, hbuild, hverified, _, hheld⟩ := buildContent_ok hsound profile hlen
    refine ⟨built, hbuild, fun source hserves => ?_⟩
    rw [hverified]
    exact readContent_held hlen (hheld.mono hserves)
  · obtain ⟨hlen, htoken, hfile, _⟩ := opened_of_verified haddressed hopen hread
    obtain ⟨built, hbuild, hverified, _, _⟩ :=
      buildContent_ok hsound opened.descriptor.profile hlen
    rw [← htoken] at hverified
    exact ⟨built, hbuild, hverified, by rw [hverified, hfile]⟩

/-- A file of many chunks is built and read back. -/
theorem contentVerification_exact_many :
    (fileChunks sparse (zeros manyChunks)).length = manyChunks ∧
    ∃ env : ContentEnv Nat, env.Sound ∧
      ∃ built, buildContent env sparse (zeros manyChunks) = .ok built ∧
        readContent (mapSource built.records : ContentSource Nat Empty)
          built.verified.opened.descriptor.file = .ok (zeros manyChunks) := by
  obtain ⟨env, hsound⟩ := exists_sound
  obtain ⟨built, hbuild, hread⟩ := (contentVerification_exact (E := Empty) hsound).1 sparse
    (zeros manyChunks) (length_zeros_lt (Nat.le_succ _))
  exact ⟨length_fileChunks_many, env, hsound, built, hbuild,
    (hread _ fun id record h => serves_mapSource.2 h).2 readable_zeros⟩

/-- One record under every identity: a source that is not content-addressed. -/
def constantSource (record : ObjectRecord Id) : ContentSource Id E := fun _ => .ok (some record)

/-- Without the two conditions verification is not exact. -/
theorem contentVerification_inexact :
    ∃ env : ContentEnv Nat, env.Sound ∧ (∃ content built, content.length < wordLimit ∧
        buildContent env sparse content = .ok built ∧
        readContent (mapSource built.records : ContentSource Nat Empty)
          built.verified.opened.descriptor.file ≠ .ok content) ∧
      ∃ (source : ContentSource Nat Empty) (file : Nat) (opened : OpenedContent Nat)
        (bytes : Bytes) (token : VerifiedContent Nat), openContent source file = .ok opened ∧
        readOpenedContentAndVerify source opened = .ok (bytes, token) ∧
        ∀ built, buildContent env opened.descriptor.profile bytes = .ok built →
          built.verified.opened.descriptor.file ≠ file := by
  obtain ⟨env, hsound⟩ := exists_sound
  refine ⟨env, hsound, ?_, ?_⟩
  · have hlen : (zeros (2 ^ 43)).length < wordLimit := by
      rw [zeros, length_replicate]
      decide
    obtain ⟨built, hbuild, hverified, _, hheld⟩ := buildContent_ok hsound sparse hlen
    refine ⟨zeros (2 ^ 43), built, hlen, hbuild, fun hread => not_readable_zeros ?_⟩
    rw [hverified] at hread
    exact (readContent_held hlen
      (hheld.mono fun id record h => serves_mapSource.2 h)).1 hread
  · -- An empty file that is found under an identity that is not its own.
    refine ⟨constantSource (fileObject .astridV1 0 0 none),
      env.identify (fileObject .astridV1 0 0 none) + 1, _, [], _,
      openContent_eq_ok.2 ⟨.astridV1, 0, 0, none, rfl,
        fileOk_fileChunks env .astridV1 (show ([] : Bytes).length < wordLimit by decide), rfl⟩,
      readOpenedContentAndVerify_eq_ok.2 ⟨⟨[], rfl⟩, rfl⟩, fun built hbuild => ?_⟩
    obtain ⟨built', hbuild', hverified, _⟩ := buildContent_ok hsound .astridV1
      (show ([] : Bytes).length < wordLimit by decide)
    have hsame : built' = built := Except.ok.inj (hbuild'.symm.trans hbuild)
    rw [← hsame, hverified]
    exact Nat.ne_of_lt (Nat.lt_succ_self _)

end Exactness

end Astrid.Content
