import Astrid.Content.Append
import Astrid.Content.Range

/-!
# Appending is rebuilding

A verified file to which bytes are appended is the file that the builder makes of all the
bytes, and what it needs beyond the old file is among the returned records
(`append_eq_rebuild`). All cuts of the old file but the last are kept by whatever follows
them, so the old chunks but the last are chunks of the new file; the exception for small
files ends exactly where the old file is one chunk, which is cut again as a whole.
-/

namespace Astrid.Content

open Std List

/-! ## Closures -/

section Closures

variable {Id : Type} {env : ContentEnv Id} {has has' : Id → ObjectRecord Id → Prop}

/-- The record of `a` owns `b`. -/
def OwnsIn (has : Id → ObjectRecord Id → Prop) (a b : Id) : Prop :=
  ∃ record, has a record ∧ b ∈ record.owningReferences

/-- The records below a root, over owning references. -/
def InClosure (has : Id → ObjectRecord Id → Prop) (root id : Id) (record : ObjectRecord Id) :
    Prop :=
  has id record ∧ Relation.ReflTransGen (OwnsIn has) root id

theorem owningReferences_treeObject {children : List (Child Id)} (h : children.length ≤ 65536) :
    (treeObject children h).owningReferences = children.map Child.id := by
  have hall : ∀ (children : List (Child Id)) (index : Nat),
      ((treeReferences index children).filter fun reference => reference.kind = .owns).map
        (·.target) = children.map Child.id := by
    intro children
    induction children with
    | nil =>
      intro index
      rfl
    | cons child _ ih =>
      intro index
      exact congrArg (child.id :: ·) (ih (index + 1))
  exact hall children 0

/-- A held tree below a root is held by the closure of the root. -/
theorem Held.closure {root : Id} {d : Nat} {chunks : List Bytes} (hfits : Fits d chunks)
    (hheld : Held env has d chunks)
    (hreach : Relation.ReflTransGen (OwnsIn has) root (treeChild env d chunks).id) :
    Held env (InClosure has root) d chunks := by
  induction d generalizing chunks with
  | zero =>
    exact ⟨hheld, hreach⟩
  | succ _ ih =>
    have hroot := hheld.root env hfits
    refine ⟨⟨_, _, treeRecord_children env hfits, hroot, hreach⟩, fun piece hpiece => ?_⟩
    refine ih (hfits.piece hpiece) (hheld.2 piece hpiece) (hreach.tail ⟨_, hroot, ?_⟩)
    rw [owningReferences_treeObject]
    exact mem_map_of_mem (mem_map_of_mem hpiece)

/-- What is below the root of a tree is held by every store that holds the tree. -/
theorem Held.covers (hfunctional : Functional has) {d : Nat} {chunks : List Bytes}
    (hfits : Fits d chunks) (hheld : Held env has d chunks) (hheld' : Held env has' d chunks) :
    ∀ {id : Id} {record : ObjectRecord Id},
      Relation.ReflTransGen (OwnsIn has) (treeChild env d chunks).id id → has id record →
      has' id record := by
  induction d generalizing chunks with
  | zero =>
    intro id record hreach hrecord
    rcases hreach.cases_head with rfl | ⟨next, ⟨found, hfound, hnext⟩, _⟩
    · rw [hfunctional _ _ _ hrecord hheld]
      exact hheld'
    · -- A chunk owns nothing.
      rw [hfunctional _ _ _ hfound hheld] at hnext
      cases hnext
  | succ _ ih =>
    intro id record hreach hrecord
    have hroot := hheld.root env hfits
    rcases hreach.cases_head with rfl | ⟨_, ⟨_, hfound, hnext⟩, hbelow⟩
    · rw [hfunctional _ _ _ hrecord hroot]
      exact hheld'.root env hfits
    rw [hfunctional _ _ _ hfound hroot, owningReferences_treeObject] at hnext
    obtain ⟨_, hchild, rfl⟩ := mem_map.1 hnext
    obtain ⟨piece, hpiece, rfl⟩ := mem_map.1 hchild
    exact ih (hfits.piece hpiece) (hheld.2 piece hpiece) (hheld'.2 piece hpiece) hbelow hrecord

/-- A held tree has the records of its chunks. -/
theorem Held.chunk {d : Nat} {chunks : List Bytes} (hfits : Fits d chunks)
    (hheld : Held env has d chunks) :
    ∀ chunk ∈ chunks, has (env.identify (chunkObject chunk)) (chunkObject chunk) := by
  induction d generalizing chunks with
  | zero =>
    intro chunk hchunk
    obtain ⟨only, rfl⟩ := hfits.singleton
    rw [mem_singleton.1 hchunk]
    change has (treeChild env 0 [only]).id (chunkObject [only].flatten) at hheld
    rw [treeChild_zero, flatten_singleton] at hheld
    exact hheld
  | succ d ih =>
    intro chunk hchunk
    rw [← flatten_groups (n := chunkTreeFanout ^ d) chunks] at hchunk
    obtain ⟨piece, hpiece, hmem⟩ := mem_flatten.1 hchunk
    exact ih (hfits.piece hpiece) (hheld.2 piece hpiece) chunk hmem

variable {profile : ChunkingProfile} {content : Bytes}

/-- A held file is held by its own closure. -/
theorem HeldFile.closure (hlen : content.length < wordLimit)
    (hheld : HeldFile env has profile (fileChunks profile content)) :
    HeldFile env (InClosure has
      (canonicalFile env profile (fileChunks profile content)).opened.descriptor.file) profile
        (fileChunks profile content) where
  file := ⟨hheld.file, .refl⟩
  tree := by
    intro hnil
    have hne : content ≠ [] := by
      rintro rfl
      exact hnil rfl
    refine (hheld.tree hnil).closure (fits_fileChunks profile hlen hne)
      (.single ⟨_, hheld.file, ?_⟩)
    rw [canonicalObject, contentRoot_fileChunks env profile hne]
    exact mem_singleton_self _

/-- The closure of a held file is held by every store that holds the file. -/
theorem HeldFile.covers (hfunctional : Functional has) (hlen : content.length < wordLimit)
    (hheld : HeldFile env has profile (fileChunks profile content))
    (hheld' : HeldFile env has' profile (fileChunks profile content)) {id : Id}
    {record : ObjectRecord Id} (h : InClosure has
      (canonicalFile env profile (fileChunks profile content)).opened.descriptor.file id record) :
    has' id record := by
  obtain ⟨hrecord, hreach⟩ := h
  rcases hreach.cases_head with rfl | ⟨_, ⟨_, hfound, hnext⟩, hbelow⟩
  · rw [hfunctional _ _ _ hrecord hheld.file]
    exact hheld'.file
  rw [hfunctional _ _ _ hfound hheld.file, canonicalObject] at hnext
  by_cases hne : content = []
  · subst hne
    cases hnext
  have hnil := fileChunks_ne_nil profile hne
  rw [contentRoot_fileChunks env profile hne] at hnext
  obtain rfl := mem_singleton.1 hnext
  exact Held.covers hfunctional (fits_fileChunks profile hlen hne) (hheld.tree hnil)
    (hheld'.tree hnil) hbelow hrecord

end Closures

/-! ## Chunks of the longer file -/

variable {front : List Bytes}

/-- Appended bytes change the last chunk only, under the exception for the longer file. -/
theorem fileChunks_append {profile : ChunkingProfile} {content last : Bytes}
    (h : fileChunks profile content = front ++ [last]) (bytes : Bytes) :
    fileChunks profile (content ++ bytes) = front ++
      chunksOf profile (decide ((content ++ bytes).length ≤ profile.maximumBytes))
        (last ++ bytes) := by
  have hne : content ≠ [] := by
    rintro rfl
    exact append_ne_nil_of_right_ne_nil front (cons_ne_nil last []) h.symm
  have hlast : last ≠ [] := by
    apply chunksOf_ne_nil profile (decide (content.length ≤ profile.maximumBytes)) content
    show last ∈ fileChunks profile content
    rw [h]
    exact mem_append_right _ (mem_singleton_self last)
  have hall : content ++ bytes ≠ [] := append_ne_nil_of_left_ne_nil hne _
  have htail : last ++ bytes ≠ [] := append_ne_nil_of_left_ne_nil hlast _
  have hlength : (content ++ bytes).length = content.length + bytes.length := length_append
  unfold fileChunks chunksOf at h ⊢
  rw [if_neg hne] at h
  rw [if_neg hall, if_neg htail]
  by_cases hsmall : content.length ≤ profile.maximumBytes
  · -- One chunk, which is cut again as a whole.
    rw [if_pos (decide_eq_true hsmall)] at h
    have hfront : front = [] := by
      have hlen := congrArg length h
      rw [length_append, length_singleton, length_singleton] at hlen
      apply eq_nil_of_length_eq_zero
      omega
    rw [hfront] at h
    cases h
    rw [hfront, nil_append]
  · rw [if_neg (fun hle => hsmall (of_decide_eq_true hle))] at h
    have hlarge : ¬ (decide ((content ++ bytes).length ≤ profile.maximumBytes) = true) := by
      intro hle
      have hle := of_decide_eq_true hle
      omega
    rw [if_neg hlarge, if_neg hlarge]
    exact (fastCdc profile).chunks_append h bytes

/-! ## The tail -/

section Tail

variable {Id E : Type} [DecidableEq Id] {env : ContentEnv Id} {source : ContentSource Id E}
  {profile : ChunkingProfile} {content : Bytes}

/-- The last chunk is read back from the end of the file. -/
theorem readVerifiedContentRange_last (hlen : content.length < wordLimit)
    (hheld : HeldFile env (Serves source) profile (fileChunks profile content))
    (hreadable : ReadableCount profile (fileChunks profile content).length) {last : Bytes}
    (h : fileChunks profile content = front ++ [last]) :
    last.length ≤ content.length ∧
      readVerifiedContentRange source (canonicalFile env profile (fileChunks profile content))
        (content.length - last.length) last.length = .ok last := by
  have hflat := flatten_fileChunks profile content
  have hcontent : content = front.flatten ++ last := by
    rw [← hflat, h, flatten_append, flatten_singleton]
  have hlength : content.length = front.flatten.length + last.length := by
    rw [hcontent, length_append]
  have hlast : last ≠ [] := by
    apply chunksOf_ne_nil profile (decide (content.length ≤ profile.maximumBytes)) content
    show last ∈ fileChunks profile content
    rw [h]
    exact mem_append_right _ (mem_singleton_self last)
  have hne : content ≠ [] := by
    rw [hcontent]
    exact append_ne_nil_of_right_ne_nil _ hlast
  have hpos := length_pos_of_ne_nil hlast
  have hread : readVerifiedContentRange source
      (canonicalFile env profile (fileChunks profile content)) (content.length - last.length)
      last.length = _ :=
    readVerifiedContentRange_eq (heldContent_of_heldFile hlen hne hheld) hreadable (by omega)
      (by rw [hflat]; omega)
  refine ⟨by omega, hread.trans ?_⟩
  have hstart : content.length - last.length = front.flatten.length := by omega
  rw [hflat, hstart, take_of_length_le (by omega)]
  conv_lhs => rw [hcontent]
  rw [drop_left]

end Tail

/-! ## Appending -/

section Append

variable {Id E : Type} [Key Id] {env : ContentEnv Id} {source : ContentSource Id E}
  {profile : ChunkingProfile} {content bytes : Bytes}

/-- Appending, from the tail on: `front` is kept, and the tail is cut again. -/
theorem appendVerifiedContent_tail {tail : Bytes} (hsound : env.Sound)
    (hlen : (content ++ bytes).length < wordLimit)
    (hchunks : fileChunks profile (content ++ bytes) = front ++
      chunksOf profile (decide ((content ++ bytes).length ≤ profile.maximumBytes)) (tail ++ bytes))
    {old : Id → ObjectRecord Id → Prop}
    (hold : ∀ chunk ∈ front, old (env.identify (chunkObject chunk)) (chunkObject chunk)) :
    ∃ records, (Except.mapError ContentReadError.content (appendChunks env profile (tail ++ bytes)
        (decide ((content ++ bytes).length ≤ profile.maximumBytes))
        ⟨∅, front.map (chunkChild env), ∅⟩) >>= fun state =>
        Except.mapError ContentReadError.content
          (finishContent env profile (content ++ bytes).length state) >>= fun finished =>
        (.ok ⟨finished.1, finished.2⟩ : Except (ContentReadError Id E) (AppendedContent Id))) =
          .ok ⟨canonicalFile env profile (fileChunks profile (content ++ bytes)), records⟩ ∧
      HeldFile env (Joined old records) profile (fileChunks profile (content ++ bytes)) := by
  have hflat := flatten_fileChunks profile (content ++ bytes)
  have htail : (tail ++ bytes).length ≤ (content ++ bytes).length := by
    rw [← hflat, hchunks, flatten_append, flatten_chunksOf]
    exact List.IsSuffix.length_le (suffix_append _ _)
  obtain ⟨state, happend, hpushed⟩ := appendChunks_ok hsound (Nat.lt_of_le_of_lt htail hlen)
    (decide ((content ++ bytes).length ≤ profile.maximumBytes))
    (show Addressed env (⟨∅, front.map (chunkChild env), ∅⟩ : ChunkState Id).records from
      addressed_empty)
  have hall : state.chunks = (fileChunks profile (content ++ bytes)).map (chunkChild env) := by
    rw [hpushed.chunks_eq, hchunks, map_append]
  have hjoined : ∀ chunk ∈ fileChunks profile (content ++ bytes),
      Joined old state.records (env.identify (chunkObject chunk)) (chunkObject chunk) := by
    rw [hchunks]
    exact forall_mem_append.2 ⟨fun chunk hkept => .inl (hold chunk hkept),
      fun chunk hnew => .inr (hpushed.held chunk hnew)⟩
  obtain ⟨records, hfinish, _, hheld⟩ := finishContent_ok hsound old hall hpushed.addressed
    (chunksOf_ne_nil profile _ _) (by rw [hflat]; exact hlen) hjoined
  rw [hflat] at hfinish
  refine ⟨records, ?_, hheld⟩
  rw [happend, mapError_ok, ok_bind, hfinish, mapError_ok, ok_bind]

/-- Appending to a held file whose tree is readable. -/
theorem appendVerifiedContent_ok (hsound : env.Sound) (hlen : (content ++ bytes).length < wordLimit)
    (hheld : HeldFile env (Serves source) profile (fileChunks profile content))
    (hreadable : ReadableCount profile (fileChunks profile content).length) :
    ∃ records, appendVerifiedContent env source
        (canonicalFile env profile (fileChunks profile content)) bytes =
          .ok ⟨canonicalFile env profile (fileChunks profile (content ++ bytes)), records⟩ ∧
      HeldFile env (Joined (InClosure (Serves source)
        (canonicalFile env profile (fileChunks profile content)).opened.descriptor.file) records)
        profile (fileChunks profile (content ++ bytes)) := by
  have hflat := flatten_fileChunks profile content
  have hlength : (content ++ bytes).length = content.length + bytes.length := length_append
  have hcontent : content.length < wordLimit := by omega
  have hclosure := hheld.closure hcontent
  have hadd : checkedAdd content.length bytes.length = some (content ++ bytes).length := by
    rw [hlength]
    exact checkedAdd_eq_some.2 ⟨rfl, by omega⟩
  unfold appendVerifiedContent toWord
  rw [require_pos (by omega)]
  show ∃ records, (okOr (checkedAdd (fileChunks profile content).flatten.length bytes.length) _ >>=
    _) = _ ∧ _
  rw [hflat, hadd]
  show ∃ records, (verifiedChunks source _ >>= _) = _ ∧ _
  rw [verifiedChunks_eq hcontent hheld hreadable, ok_bind]
  rcases eq_nil_or_concat (fileChunks profile content) with hnil | ⟨front, last, hfront⟩
  · -- An empty file has no tail.
    have hempty : content = [] := by
      rw [← hflat, hnil, flatten_nil]
    subst hempty
    have hchunks : fileChunks profile ([] ++ bytes) =
        [] ++ chunksOf profile (decide (([] ++ bytes).length ≤ profile.maximumBytes))
          ([] ++ bytes) :=
      rfl
    exact appendVerifiedContent_tail hsound hlen hchunks nofun
  · rw [concat_eq_append] at hfront
    have hgetLast : ((fileChunks profile content).map (chunkChild env)).getLast? =
        some (chunkChild env last) := by
      rw [hfront, map_append, map_singleton, getLast?_concat]
    have hdropLast : ((fileChunks profile content).map (chunkChild env)).dropLast =
        front.map (chunkChild env) := by
      rw [hfront, map_append, map_singleton, dropLast_concat]
    obtain ⟨hle, hread⟩ := readVerifiedContentRange_last hcontent hheld hreadable hfront
    have hsub : checkedSub content.length last.length = some (content.length - last.length) :=
      checkedSub_eq_some.2 ⟨hle, rfl⟩
    rw [hgetLast, hdropLast]
    show ∃ records, ((okOr (checkedSub (fileChunks profile content).flatten.length last.length)
      _ >>=
      _) >>= _) = _ ∧ _
    rw [hflat, hsub]
    show ∃ records, (readVerifiedContentRange source _ _ last.length >>= _) = _ ∧ _
    rw [hread]
    refine appendVerifiedContent_tail hsound hlen (fileChunks_append hfront bytes)
      fun chunk hchunk => ?_
    have hne : content ≠ [] := by
      rintro rfl
      exact append_ne_nil_of_right_ne_nil front (cons_ne_nil last []) hfront.symm
    refine Held.chunk (fits_fileChunks profile hcontent hne)
      (hclosure.tree (fileChunks_ne_nil profile hne)) chunk ?_
    rw [hfront]
    exact mem_append_left _ hchunk

/-- Appending fails where the old tree is too large to be enumerated. -/
theorem readableCount_of_append (hcontent : content.length < wordLimit)
    {appended : AppendedContent Id}
    (h : appendVerifiedContent env source (canonicalFile env profile (fileChunks profile content))
      bytes = .ok appended) :
    (content ++ bytes).length < wordLimit ∧
      ReadableCount profile (fileChunks profile content).length := by
  simp only [appendVerifiedContent, toWord, bind_eq_ok, mapError_eq_ok, require_eq_ok,
    okOr_eq_ok, checkedAdd_eq_some] at h
  obtain ⟨_, ⟨_, _, hadded⟩, _, ⟨rfl, hlen⟩, _, hchunks, _⟩ := h
  cases hadded
  refine ⟨?_, readableCount_of_verifiedChunks hcontent hchunks⟩
  have hflat := flatten_fileChunks profile content
  change (fileChunks profile content).flatten.length + bytes.length < wordLimit at hlen
  rw [hflat] at hlen
  rw [length_append]
  exact hlen

/-! ## Verified files -/

/-- How a token is come by: a file is built, or read with all checks, or made by appending,
and its closure is in the source. Left out are the tokens that `build_content_streaming` makes and
those that a certified key-value tree vouches for. -/
inductive VerifiedFile (env : ContentEnv Id) :
    ContentSource Id E → ChunkingProfile → Bytes → VerifiedContent Id → Prop
  | built {source : ContentSource Id E} {profile : ChunkingProfile} {content : Bytes}
      {built : BuiltContent Id} (hbuild : buildContent env profile content = .ok built)
      (hserves : ∀ id record, Has built.records id record → Serves source id record) :
      VerifiedFile env source profile content built.verified
  | read {source : ContentSource Id E} {file : Id} {opened : OpenedContent Id} {content : Bytes}
      {token : VerifiedContent Id} (haddressed : AddressedSource env source)
      (hopen : openContent source file = .ok opened)
      (hread : readOpenedContentAndVerify source opened = .ok (content, token)) :
      VerifiedFile env source opened.descriptor.profile content token
  | appended {source source' : ContentSource Id E} {profile : ChunkingProfile}
      {content bytes : Bytes} {token : VerifiedContent Id} {appended : AppendedContent Id}
      (hold : VerifiedFile env source profile content token)
      (happend : appendVerifiedContent env source token bytes = .ok appended)
      (hserves : ∀ id record, Joined (InClosure (Serves source) token.opened.descriptor.file)
        appended.records id record → Serves source' id record) :
      VerifiedFile env source' profile (content ++ bytes) appended.verified

/-- A verified file is the canonical one of its bytes, and the source holds it. -/
theorem VerifiedFile.canonical (hsound : env.Sound) {token : VerifiedContent Id}
    (h : VerifiedFile env source profile content token) :
    content.length < wordLimit ∧ token = canonicalFile env profile (fileChunks profile content) ∧
      HeldFile env (Serves source) profile (fileChunks profile content) := by
  induction h with
  | @built _ profile content built hbuild hserves =>
    have hlen : content.length < wordLimit := by
      obtain ⟨_, hword, _⟩ := bind_eq_ok.1 hbuild
      obtain ⟨_, hlen, _⟩ := bind_eq_ok.1 hword
      exact require_eq_ok.1 hlen
    obtain ⟨built', hbuild', hverified, _, hheld⟩ := buildContent_ok hsound profile hlen
    obtain rfl : built' = built := Except.ok.inj (hbuild'.symm.trans hbuild)
    exact ⟨hlen, hverified, hheld.mono hserves⟩
  | read haddressed hopen hread =>
    obtain ⟨hlen, htoken, _, hheld⟩ := opened_of_verified haddressed hopen hread
    exact ⟨hlen, htoken, hheld⟩
  | appended _ happend hserves ih =>
    obtain ⟨hlen, rfl, hheld⟩ := ih
    obtain ⟨hlen', hreadable⟩ := readableCount_of_append hlen happend
    obtain ⟨_, happend', hheld'⟩ := appendVerifiedContent_ok hsound hlen' hheld hreadable
    rw [happend] at happend'
    cases happend'
    exact ⟨hlen', rfl, hheld'.mono hserves⟩

/-- Appending to a verified file gives the file that is built of all the bytes, and the
returned records complete the closure of the old file to the closure of the new one. -/
theorem append_eq_rebuild (hsound : env.Sound) {token : VerifiedContent Id} {bytes : Bytes}
    (hverified : VerifiedFile env source profile content token)
    (hlen : (content ++ bytes).length < wordLimit)
    (hreadable : ReadableCount profile (fileChunks profile content).length) :
    ∃ appended built, appendVerifiedContent env source token bytes = .ok appended ∧
      buildContent env profile (content ++ bytes) = .ok built ∧
      appended.verified = built.verified ∧
      ∀ id record, InClosure (Has built.records) built.verified.opened.descriptor.file id record →
        Joined (InClosure (Serves source) token.opened.descriptor.file) appended.records
          id record := by
  obtain ⟨_, rfl, hheld⟩ := hverified.canonical hsound
  obtain ⟨_, happend, hjoined⟩ := appendVerifiedContent_ok hsound hlen hheld hreadable
  obtain ⟨built, hbuild, htoken, _, hbuilt⟩ := buildContent_ok hsound profile hlen
  refine ⟨_, built, happend, hbuild, htoken.symm, fun id record hclosure => ?_⟩
  rw [htoken] at hclosure
  refine HeldFile.covers (fun id record record' h h' => ?_) hlen hbuilt hjoined hclosure
  exact Option.some.inj (h.symm.trans h')

/-- A chunk is appended to a file of many. -/
theorem append_eq_rebuild_many :
    (fileChunks sparse (zeros manyChunks)).length = manyChunks ∧
    ∃ (env : ContentEnv Nat) (built : BuiltContent Nat), env.Sound ∧
      buildContent env sparse (zeros manyChunks) = .ok built ∧
      ∃ appended built', appendVerifiedContent env (mapSource built.records :
          ContentSource Nat Empty) built.verified (zeros 1) = .ok appended ∧
        buildContent env sparse (zeros manyChunks ++ zeros 1) = .ok built' ∧
        appended.verified = built'.verified := by
  obtain ⟨env, hsound⟩ := exists_sound
  obtain ⟨built, hbuild, _⟩ := buildContent_ok hsound sparse (length_zeros_lt (Nat.le_succ _))
  have hverified : VerifiedFile env (mapSource built.records : ContentSource Nat Empty) sparse
      (zeros manyChunks) built.verified := .built hbuild fun id record h => serves_mapSource.2 h
  obtain ⟨appended, built', happend, hbuild', hsame, _⟩ := append_eq_rebuild hsound hverified
    (zeros_append manyChunks ▸ length_zeros_lt le_rfl) readable_zeros
  exact ⟨length_fileChunks_many, env, built, hsound, hbuild, appended, built', happend, hbuild',
    hsame⟩

/-- A file that was built and cannot be appended to, not even nothing. -/
theorem append_oversized :
    ∃ (env : ContentEnv Nat) (content : Bytes) (built : BuiltContent Nat), env.Sound ∧
      content.length < wordLimit ∧ buildContent env sparse content = .ok built ∧
      ∀ appended, appendVerifiedContent env (mapSource built.records : ContentSource Nat Empty)
        built.verified [] ≠ .ok appended := by
  obtain ⟨env, hsound⟩ := exists_sound
  have hlen : (zeros (2 ^ 43)).length < wordLimit := by
    rw [zeros, length_replicate]
    decide
  obtain ⟨built, hbuild, hverified, _⟩ := buildContent_ok hsound sparse hlen
  refine ⟨env, zeros (2 ^ 43), built, hsound, hlen, hbuild, fun appended happend => ?_⟩
  rw [hverified] at happend
  exact not_readable_zeros (readableCount_of_append hlen happend).2

/-! ## Identity -/

omit [Key Id] in
/-- Identity alone has every tree. -/
theorem held_identified {d : Nat} {chunks : List Bytes} (hfits : Fits d chunks) :
    Held env (fun id record => env.identify record = id) d chunks := by
  induction d generalizing chunks with
  | zero =>
    unfold Held
    rw [treeChild_zero]
    rfl
  | succ _ ih =>
    refine ⟨⟨_, _, treeRecord_children env hfits, ?_⟩, fun _ hpiece => ih (hfits.piece hpiece)⟩
    rw [treeChild_eq env hfits]

/-- A file names its bytes: verified files of any origin, in any sources, that have the same
identity have the same bytes, and the same bytes under one profile are the same file. -/
theorem file_names_bytes (hsound : env.Sound) {source' : ContentSource Id E}
    {profile' : ChunkingProfile} {content' : Bytes} {token token' : VerifiedContent Id}
    (h : VerifiedFile env source profile content token)
    (h' : VerifiedFile env source' profile' content' token') :
    (token.opened.descriptor.file = token'.opened.descriptor.file → content = content') ∧
      (profile = profile' → content = content' → token = token') := by
  obtain ⟨hlen, rfl, _⟩ := h.canonical hsound
  obtain ⟨hlen', rfl, _⟩ := h'.canonical hsound
  refine ⟨fun hfile => ?_, by rintro rfl rfl; rfl⟩
  have hroot : contentRoot env (fileChunks profile content) =
      contentRoot env (fileChunks profile' content') := by
    have htarget := congrArg (fun record => (record.references.map (·.target)).head?)
      (hsound.identify_inj hfile)
    simpa [canonicalObject, fileObject, ObjectReference.owns, Function.comp_def] using htarget
  have hfits : ∀ {profile content}, content.length < wordLimit → fileChunks profile content ≠ [] →
      Fits (Nat.clog chunkTreeFanout (fileChunks profile content).length)
        (fileChunks profile content) := by
    intro profile content hlen hne
    refine fits_fileChunks profile hlen fun hnil => hne ?_
    rw [hnil]
    rfl
  have hchunks : fileChunks profile content = fileChunks profile' content' := by
    unfold contentRoot at hroot
    split_ifs at hroot with hnil hnil' hnil'
    · rw [hnil, hnil']
    · exact (tree_unique (fun _ _ _ hr hr' => hsound.identify_inj (hr.trans hr'.symm))
        (hfits hlen hnil) (held_identified (hfits hlen hnil)) (hfits hlen' hnil')
        (held_identified (hfits hlen' hnil')) (Option.some.inj hroot)).2
  rw [← flatten_fileChunks profile content, hchunks, flatten_fileChunks]

/-- Two files of many chunks, one chunk apart. -/
theorem file_names_bytes_many :
    ∃ (env : ContentEnv Nat) (built built' : BuiltContent Nat), env.Sound ∧
      buildContent env sparse (zeros manyChunks) = .ok built ∧
      buildContent env sparse (zeros (manyChunks + 1)) = .ok built' ∧
      built.verified.opened.descriptor.file ≠ built'.verified.opened.descriptor.file := by
  obtain ⟨env, hsound⟩ := exists_sound
  obtain ⟨built, hbuild, _⟩ := buildContent_ok hsound sparse (length_zeros_lt (Nat.le_succ _))
  obtain ⟨built', hbuild', _⟩ := buildContent_ok hsound sparse (length_zeros_lt le_rfl)
  refine ⟨env, built, built', hsound, hbuild, hbuild', fun hfile => ?_⟩
  have hsame := (file_names_bytes (E := Empty) hsound (.built hbuild fun _ _ => serves_mapSource.2)
    (.built hbuild' fun _ _ => serves_mapSource.2)).1 hfile
  have hlength := congrArg length hsame
  rw [zeros, zeros, length_replicate, length_replicate] at hlength
  omega

end Append

end Astrid.Content
