import Astrid.Content.Tree

/-!
# What the builder builds

With an identity without collisions and a FastCDC library that iterates `cutIndex`, every
byte string of 64-bit length is built, and the build is known: `canonicalFile` is its
token and its records hold the tree of its chunks (`buildContent_ok`).

Insertion into a map that is keyed by identity never meets a collision, so every step of
the builder succeeds and only adds records. The loop over the levels keeps one invariant:
level `k` consists of the roots of `k` levels over the groups of `128 ^ k` chunks.
-/

namespace Astrid.Content

open Std List

/-! ## The assumptions -/

/-- Offsets and lengths of consecutive chunks. -/
def spans : Nat → List Bytes → List (Nat × Nat)
  | _, [] => []
  | offset, chunk :: rest => (offset, chunk.length) :: spans (offset + chunk.length) rest

/-- Object identity is injective, and the two revisions of the library cut by iterating
`cutIndex` on the remaining bytes. -/
structure ContentEnv.Sound {Id : Type} (env : ContentEnv Id) : Prop where
  identify_inj : Function.Injective env.identify
  fastcdc_eq : ∀ (profile : ChunkingProfile) (source : Bytes), profile.usesLegacyFastcdcV4 = false →
    env.fastcdc profile source = spans 0 ((fastCdc profile).chunks source)
  fastcdcV4_eq : ∀ (profile : ChunkingProfile) (source : Bytes),
    profile.usesLegacyFastcdcV4 = true →
    env.fastcdcV4 profile source = spans 0 ((fastCdc profile).chunks source)

/-! ## Records -/

section Insert

variable {Id : Type} [Key Id] {env : ContentEnv Id}

/-- Records under their identities. -/
def Addressed (env : ContentEnv Id) (records : Records Id) : Prop :=
  ∀ id record, records[id]? = some record → env.identify record = id

def Has (records : Records Id) (id : Id) (record : ObjectRecord Id) : Prop :=
  records[id]? = some record

theorem addressed_empty : Addressed env ∅ := by
  intro id record h
  cases h

variable {records : Records Id}

theorem addressed_insert (h : Addressed env records) (record : ObjectRecord Id) :
    Addressed env (records.insert (env.identify record) record) :=
  forall_insert rfl h

/-- Insertion overwrites nothing but the record itself. -/
theorem has_insert (hsound : env.Sound) (h : Addressed env records) (record : ObjectRecord Id)
    {id : Id} {other : ObjectRecord Id} (hother : Has records id other) :
    Has (records.insert (env.identify record) record) id other := by
  unfold Has at hother ⊢
  rw [getElem?_insert_of]
  split
  next heq =>
    have hsame : env.identify other = env.identify record := (h id other hother).trans heq.symm
    rw [hsound.identify_inj hsame]
  next => exact hother

theorem has_insert_self (records : Records Id) (record : ObjectRecord Id) :
    Has (records.insert (env.identify record) record) (env.identify record) record := by
  unfold Has
  rw [getElem?_insert_of, if_pos rfl]

theorem insertRecord_ok (hsound : env.Sound) (h : Addressed env records)
    (record : ObjectRecord Id) :
    insertRecord env records record =
      .ok (env.identify record, records.insert (env.identify record) record) := by
  unfold insertRecord
  cases hexisting : records[env.identify record]? with
  | none => rfl
  | some existing =>
    have hsame : existing = record := hsound.identify_inj (h _ existing hexisting)
    subst hsame
    -- The map has the record already.
    have hinsert : records.insert (env.identify existing) existing = records := by
      refine ExtTreeMap.ext_getElem? fun id => ?_
      rw [getElem?_insert_of]
      split
      next heq => rw [← heq, hexisting]
      next => rfl
    show (require (existing = existing) _ >>= fun _ => _) = _
    rw [require_pos rfl, hinsert]
    rfl

/-! ## Chunks -/

/-- What pushing chunks does to the builder's state. -/
structure Pushed (env : ContentEnv Id) (before after : ChunkState Id) (chunks : List Bytes) :
    Prop where
  chunks_eq : after.chunks = before.chunks ++ chunks.map (chunkChild env)
  addressed : Addressed env after.records
  grows : ∀ id record, Has before.records id record → Has after.records id record
  held : ∀ chunk ∈ chunks, Has after.records (env.identify (chunkObject chunk)) (chunkObject chunk)
  unique : after.uniqueChunks.size ≤ before.uniqueChunks.size + chunks.length

namespace Pushed

theorem refl {state : ChunkState Id} (h : Addressed env state.records) :
    Pushed env state state [] where
  chunks_eq := (append_nil _).symm
  addressed := h
  grows _ _ hrecord := hrecord
  held chunk hchunk := by cases hchunk
  unique := le_rfl

theorem trans {first second third : ChunkState Id} {chunks chunks' : List Bytes}
    (h : Pushed env first second chunks) (h' : Pushed env second third chunks') :
    Pushed env first third (chunks ++ chunks') where
  chunks_eq := by rw [h'.chunks_eq, h.chunks_eq, map_append, append_assoc]
  addressed := h'.addressed
  grows id record hrecord := h'.grows id record (h.grows id record hrecord)
  held := forall_mem_append.2 ⟨fun chunk hmem => h'.grows _ _ (h.held chunk hmem), h'.held⟩
  unique := by
    have hfirst := h.unique
    have hsecond := h'.unique
    rw [length_append]
    omega

end Pushed

variable {state : ChunkState Id}

theorem pushChunk_ok (hsound : env.Sound) (haddressed : Addressed env state.records)
    {bytes : Bytes} (hlen : bytes.length < wordLimit) :
    ∃ after, pushChunk env bytes state = .ok after ∧ Pushed env state after [bytes] := by
  have hrun : pushChunk env bytes state =
      .ok ⟨state.records.insert (env.identify (chunkObject bytes)) (chunkObject bytes),
        state.chunks ++ [chunkChild env bytes],
        state.uniqueChunks.insert (env.identify (chunkObject bytes))⟩ := by
    unfold pushChunk toWord
    rw [chunkRecord_eq, ok_bind, insertRecord_ok hsound haddressed, require_pos hlen]
    rfl
  refine ⟨_, hrun, rfl, addressed_insert haddressed _,
    fun id record h => has_insert hsound haddressed _ h, ?_, ?_⟩
  · intro chunk hchunk
    obtain rfl := mem_singleton.1 hchunk
    exact has_insert_self _ _
  · exact ExtTreeSet.size_insert_le

variable {source : Bytes}

/-- Spans of consecutive chunks push these chunks. -/
theorem pushSpans_ok (hsound : env.Sound) (hlen : source.length < wordLimit) {chunks : List Bytes}
    {front : Bytes} {state : ChunkState Id} (haddressed : Addressed env state.records)
    (hsource : source = front ++ chunks.flatten) :
    ∃ after,
      pushSpans env source (spans front.length chunks) state = .ok after ∧
      Pushed env state after chunks := by
  induction chunks generalizing front state with
  | nil =>
    exact ⟨state, rfl, .refl haddressed⟩
  | cons chunk rest ih =>
    have htotal : source.length = front.length + (chunk.length + rest.flatten.length) := by
      rw [hsource, flatten_cons, length_append, length_append]
    have hslice : slice source front.length chunk.length = chunk := by
      rw [hsource, flatten_cons, slice_skip le_rfl, Nat.sub_self, slice_here rfl]
    obtain ⟨_, hpush, hpushed⟩ := pushChunk_ok hsound haddressed
      (show chunk.length < wordLimit by omega)
    have hrest : source = (front ++ chunk) ++ rest.flatten := by
      rw [hsource, flatten_cons, append_assoc]
    obtain ⟨after, hafter, hpushed'⟩ := ih hpushed.addressed hrest
    refine ⟨after, ?_, hpushed.trans hpushed'⟩
    have hstop : checkedAdd front.length chunk.length = some (front.length + chunk.length) :=
      checkedAdd_eq_some.2 ⟨rfl, by omega⟩
    rw [length_append] at hafter
    show (okOr (checkedAdd _ _) _ >>= _) = _
    rw [hstop]
    show (require _ _ >>= _) = _
    rw [require_pos (by omega), hslice, hpush]
    exact hafter

/-! ## Trees -/

/-- Records are added, under their identities. -/
structure Grown (env : ContentEnv Id) (before after : Records Id) : Prop where
  addressed : Addressed env after
  grows : ∀ id record, Has before id record → Has after id record

theorem Grown.trans {first second third : Records Id} (h : Grown env first second)
    (h' : Grown env second third) : Grown env first third where
  addressed := h'.addressed
  grows id record hrecord := h'.grows id record (h.grows id record hrecord)

theorem grown_insert (hsound : env.Sound) (h : Addressed env records) (record : ObjectRecord Id) :
    Grown env records (records.insert (env.identify record) record) where
  addressed := addressed_insert h record
  grows _ _ hrecord := has_insert hsound h record hrecord

theorem buildTreeNode_ok (hsound : env.Sound) (haddressed : Addressed env records)
    {children : List (Child Id)} {tree : ObjectRecord Id} {totals : Nat × Nat}
    (htree : treeRecord children = .ok (tree, totals)) :
    buildTreeNode env records children =
      .ok (treeNode env children, records.insert (env.identify tree) tree) := by
  unfold buildTreeNode treeNode
  rw [htree]
  show (insertRecord env records tree >>= _) = _
  rw [insertRecord_ok hsound haddressed]
  rfl

theorem buildLevel_ok (hsound : env.Sound) {level : List (List (Child Id))} {records : Records Id}
    (haddressed : Addressed env records)
    (htrees : ∀ group ∈ level, ∃ tree totals, treeRecord group = .ok (tree, totals)) :
    ∃ after,
      buildLevel env records level = .ok (level.map (treeNode env), after) ∧
      Grown env records after ∧ ∀ group ∈ level, ∀ tree totals,
      treeRecord group = .ok (tree, totals) → Has after (env.identify tree) tree := by
  induction level generalizing records with
  | nil =>
    exact ⟨records, rfl, ⟨haddressed, fun _ _ h => h⟩, fun group hgroup => by cases hgroup⟩
  | cons group rest ih =>
    obtain ⟨tree, _, htree⟩ := htrees group mem_cons_self
    have hgrown := grown_insert hsound haddressed tree
    obtain ⟨after, hrun, hgrown', hheld⟩ :=
      ih hgrown.addressed (forall_mem_cons.1 htrees).2
    refine ⟨after, ?_, hgrown.trans hgrown', ?_⟩
    · unfold buildLevel
      rw [buildTreeNode_ok hsound haddressed htree]
      show (buildLevel env _ rest >>= _) = _
      rw [hrun]
      rfl
    · intro g hg tree' totals' htree'
      rcases mem_cons.1 hg with rfl | hmem
      · rw [htree] at htree'
        cases htree'
        exact hgrown'.grows _ _ (has_insert_self _ _)
      · exact hheld g hmem tree' totals' htree'

/-- A record that was there before, or is one of the new ones. -/
def Joined (base : Id → ObjectRecord Id → Prop) (records : Records Id) (id : Id)
    (record : ObjectRecord Id) : Prop :=
  base id record ∨ Has records id record

theorem Grown.joined {before after : Records Id} (h : Grown env before after)
    (base : Id → ObjectRecord Id → Prop) :
    ∀ id record, Joined base before id record → Joined base after id record :=
  fun id record => Or.imp_right (h.grows id record)

/-- Level `k` consists of the roots of `k` levels, and all their records are there. -/
structure LevelInv (env : ContentEnv Id) (base : Id → ObjectRecord Id → Prop)
    (chunks : List Bytes) (k : Nat) (state : List (Child Id) × Records Id) : Prop where
  level_eq : state.1 = treeChildren env k chunks
  addressed : Addressed env state.2
  held : ∀ piece ∈ groups (chunkTreeFanout ^ k) chunks, Held env (Joined base state.2) k piece

variable {base : Id → ObjectRecord Id → Prop} {chunks : List Bytes}

section

variable (hsound : env.Sound)

include hsound

/-- One turn of the loop goes one level up. -/
theorem LevelInv.turn {k : Nat} {state : List (Child Id) × Records Id}
    (h : LevelInv env base chunks k state) (hne : ∀ chunk ∈ chunks, chunk ≠ [])
    (hbytes : chunks.flatten.length < wordLimit) (hlong : 1 < state.1.length) :
    ∃ next, buildTreeTurn env state = .again next ∧ LevelInv env base chunks (k + 1) next ∧
      Grown env state.2 next.2 := by
  have hgroups : groups chunkTreeFanout state.1 =
      (groups (chunkTreeFanout ^ (k + 1)) chunks).map (treeChildren env k) := by
    rw [h.level_eq, treeChildren, groups_level]
    rfl
  have hfits : ∀ piece ∈ groups (chunkTreeFanout ^ (k + 1)) chunks, Fits (k + 1) piece :=
    fun piece hpiece => fits_group hne hbytes hpiece
  have htrees : ∀ group ∈ groups chunkTreeFanout state.1,
      ∃ tree totals, treeRecord group = .ok (tree, totals) := by
    intro group hgroup
    rw [hgroups] at hgroup
    obtain ⟨piece, hpiece, rfl⟩ := mem_map.1 hgroup
    exact ⟨_, _, treeRecord_children env (hfits piece hpiece)⟩
  obtain ⟨after, hrun, hgrown, hheld⟩ := buildLevel_ok hsound h.addressed htrees
  refine ⟨((groups chunkTreeFanout state.1).map (treeNode env), after), ?_,
    ⟨?_, hgrown.addressed, ?_⟩, hgrown⟩
  · unfold buildTreeTurn
    rw [if_pos hlong, hrun]
  · rw [hgroups, map_map]
    rfl
  · intro piece hpiece
    have hrecord := treeRecord_children env (hfits piece hpiece)
    refine ⟨⟨_, _, hrecord, ?_⟩, ?_⟩
    · rw [treeChild_eq env (hfits piece hpiece)]
      right
      apply hheld (treeChildren env k piece) ?_ _ _ hrecord
      rw [hgroups]
      exact mem_map_of_mem hpiece
    · intro part hpart
      apply Held.mono env (hgrown.joined base)
      apply h.held part
      -- The groups of a group are groups of the whole.
      rw [← flatten_groups (n := chunkTreeFanout) (groups (chunkTreeFanout ^ k) chunks),
        groups_pow_succ]
      exact mem_flatten.2 ⟨_, mem_map_of_mem hpiece, hpart⟩

/-- From level `k` on, the loop builds the root of the canonical number of levels. -/
theorem LevelInv.run (hnil : chunks ≠ []) (hne : ∀ chunk ∈ chunks, chunk ≠ [])
    (hbytes : chunks.flatten.length < wordLimit) (more : Nat) {k : Nat}
    {state : List (Child Id) × Records Id}
    (hk : k + more = Nat.clog chunkTreeFanout chunks.length)
    (h : LevelInv env base chunks k state) :
    ∃ after,
      (buildTreeLoop env).run state = .ok (some (treeChild env (k + more) chunks), after) ∧
      Grown env state.2 after ∧ Held env (Joined base after) (k + more) chunks := by
  induction more generalizing k state with
  | zero =>
    rw [add_zero] at hk ⊢
    have hlen : chunks.length ≤ chunkTreeFanout ^ k := by
      rw [hk]
      exact Nat.le_pow_clog (by decide) _
    have hone : groups (chunkTreeFanout ^ k) chunks = [chunks] := groups_of_le hnil hlen
    have hlevel : state.1 = [treeChild env k chunks] := by
      rw [h.level_eq, treeChildren, hone, map_singleton]
    have hstop : (buildTreeLoop env).turn state =
        .stop (.ok (some (treeChild env k chunks), state.2)) := by
      show buildTreeTurn env state = _
      unfold buildTreeTurn
      rw [hlevel]
      rfl
    refine ⟨state.2, (buildTreeLoop env).run_stop hstop, ⟨h.addressed, fun _ _ hr => hr⟩, ?_⟩
    apply h.held
    rw [hone]
    exact mem_singleton_self chunks
  | succ more ih =>
    -- Below the canonical depth there is more than one group.
    have hlong : 1 < state.1.length := by
      have hlt : chunkTreeFanout ^ k < chunks.length := by
        rw [← Nat.lt_clog_iff_pow_lt (by decide)]
        omega
      by_contra hshort
      rw [h.level_eq, treeChildren, length_map] at hshort
      have hsize := ((full_groups chunks).length_flatten
        (groups_ne_nil (n := chunkTreeFanout ^ k) hnil)).2
      rw [flatten_groups] at hsize
      have hmul := Nat.mul_le_mul_right (chunkTreeFanout ^ k) (Nat.not_lt.1 hshort)
      omega
    obtain ⟨_, hturn, hnext, hgrown⟩ := h.turn hsound hne hbytes hlong
    obtain ⟨after, hrun, hgrown', hheld⟩ := ih (by omega) hnext
    have heq : k + 1 + more = k + (more + 1) := by omega
    rw [heq] at hrun hheld
    refine ⟨after, ?_, hgrown.trans hgrown', hheld⟩
    rw [(buildTreeLoop env).run_again hturn]
    exact hrun

theorem buildTree_ok (haddressed : Addressed env records) (hnil : chunks ≠ [])
    (hne : ∀ chunk ∈ chunks, chunk ≠ []) (hbytes : chunks.flatten.length < wordLimit)
    (hheld : ∀ chunk ∈ chunks,
      Joined base records (env.identify (chunkObject chunk)) (chunkObject chunk)) :
    ∃ after, buildTree env records (chunks.map (chunkChild env)) =
        .ok (some (treeChild env (Nat.clog chunkTreeFanout chunks.length) chunks), after) ∧
      Grown env records after ∧
      Held env (Joined base after) (Nat.clog chunkTreeFanout chunks.length) chunks := by
  have hgroups : groups (chunkTreeFanout ^ 0) chunks = chunks.map fun chunk => [chunk] :=
    groups_one chunks
  have hstart : LevelInv env base chunks 0 (chunks.map (chunkChild env), records) := by
    refine ⟨?_, haddressed, ?_⟩
    · rw [treeChildren, hgroups, map_map]
      refine map_congr_left fun chunk _ => ?_
      rw [Function.comp_apply, treeChild_zero, flatten_singleton]
    · intro piece hpiece
      rw [hgroups] at hpiece
      obtain ⟨chunk, hchunk, rfl⟩ := mem_map.1 hpiece
      show Joined base records (treeChild env 0 [chunk]).id (chunkObject [chunk].flatten)
      rw [treeChild_zero, flatten_singleton]
      exact hheld chunk hchunk
  have hrun := LevelInv.run hsound hnil hne hbytes _ (zero_add _) hstart
  rw [zero_add] at hrun
  exact hrun

/-! ## Files -/

variable {profile : ChunkingProfile}

theorem appendChunks_ok (hlen : source.length < wordLimit) (wholeSmallFile : Bool)
    (haddressed : Addressed env state.records) :
    ∃ after, appendChunks env profile source wholeSmallFile state = .ok after ∧
      Pushed env state after (chunksOf profile wholeSmallFile source) := by
  have hspans := pushSpans_ok hsound hlen haddressed
    (show source = [] ++ ((fastCdc profile).chunks source).flatten from
      (Cutter.chunks_flatten _ source).symm)
  unfold appendChunks chunksOf
  split
  next => exact ⟨state, rfl, .refl haddressed⟩
  next =>
    split
    next => exact pushChunk_ok hsound haddressed hlen
    next =>
      split
      next hlegacy =>
        rw [hsound.fastcdcV4_eq profile source hlegacy]
        exact hspans
      next hcurrent =>
        rw [hsound.fastcdc_eq profile source (Bool.not_eq_true _ ▸ hcurrent)]
        exact hspans

theorem finishContent_ok (base : Id → ObjectRecord Id → Prop)
    (hchunks : state.chunks = chunks.map (chunkChild env))
    (haddressed : Addressed env state.records) (hne : ∀ chunk ∈ chunks, chunk ≠ [])
    (hbytes : chunks.flatten.length < wordLimit)
    (hheld : ∀ chunk ∈ chunks,
      Joined base state.records (env.identify (chunkObject chunk)) (chunkObject chunk)) :
    ∃ after, finishContent env profile chunks.flatten.length state =
        .ok (canonicalFile env profile chunks, after) ∧
      Grown env state.records after ∧ HeldFile env (Joined base after) profile chunks := by
  have hcount : state.chunks.length = chunks.length := by
    rw [hchunks, length_map]
  have hword : state.chunks.length < wordLimit := by
    rw [hcount]
    exact Nat.lt_of_le_of_lt (length_le_flatten hne) hbytes
  -- The tree, or nothing for an empty file.
  have htree : ∃ content after, buildTree env state.records state.chunks = .ok (content, after) ∧
      content.map Child.id = contentRoot env chunks ∧ Grown env state.records after ∧
      (chunks ≠ [] →
        Held env (Joined base after) (Nat.clog chunkTreeFanout chunks.length) chunks) := by
    by_cases hnil : chunks = []
    · subst hnil
      refine ⟨none, state.records, ?_, rfl, ⟨haddressed, fun _ _ h => h⟩, fun h => absurd rfl h⟩
      rw [hchunks]
      exact (buildTreeLoop env).run_stop rfl
    obtain ⟨after, hrun, hgrown, htree⟩ := buildTree_ok hsound haddressed hnil hne hbytes hheld
    refine ⟨some (treeChild env (Nat.clog chunkTreeFanout chunks.length) chunks), after, ?_, ?_,
      hgrown, fun _ => htree⟩
    · rw [hchunks]
      exact hrun
    · rw [contentRoot, if_neg hnil]
      rfl
  obtain ⟨content, trees, hrun, hroot, hgrown, htree⟩ := htree
  have hfile := grown_insert hsound hgrown.addressed (canonicalObject env profile chunks)
  refine ⟨_, ?_, hgrown.trans hfile, .inr (has_insert_self _ _),
    fun hnil => (htree hnil).mono env (hfile.joined base)⟩
  unfold finishContent toWord
  rw [require_pos hword, hcount]
  rw [hrun]
  show (fileRecord profile _ _ (content.map Child.id) >>= _) = _
  rw [hroot, fileRecord_eq]
  show (insertRecord env trees (canonicalObject env profile chunks) >>= _) = _
  rw [insertRecord_ok hsound hgrown.addressed]
  rfl

/-- Every byte string of 64-bit length is built. -/
theorem buildContent_ok (profile : ChunkingProfile) (hlen : source.length < wordLimit) :
    ∃ built, buildContent env profile source = .ok built ∧
      built.verified = canonicalFile env profile (fileChunks profile source) ∧
      Addressed env built.records ∧
      HeldFile env (Has built.records) profile (fileChunks profile source) := by
  have hne := chunksOf_ne_nil profile (decide (source.length ≤ profile.maximumBytes)) source
  have hword : (fileChunks profile source).length < wordLimit := by
    have hle := length_le_flatten hne
    rw [flatten_chunksOf] at hle
    exact Nat.lt_of_le_of_lt hle hlen
  obtain ⟨state, happend, hpushed⟩ := appendChunks_ok hsound hlen
    (decide (source.length ≤ profile.maximumBytes))
    (show Addressed env (⟨∅, [], ∅⟩ : ChunkState Id).records from addressed_empty)
  obtain ⟨after, hfinish, hgrown, hheld⟩ := finishContent_ok hsound (fun _ _ => False)
    hpushed.chunks_eq hpushed.addressed hne (by rw [flatten_chunksOf]; exact hlen)
    fun chunk hchunk => .inr (hpushed.held chunk hchunk)
  have hunique : state.uniqueChunks.size < wordLimit := by
    have hsize : state.uniqueChunks.size ≤ (∅ : FSet Id).size + _ := hpushed.unique
    have hempty : (∅ : FSet Id).size = 0 := ExtTreeSet.size_empty
    have hcount : (chunksOf profile (decide (source.length ≤ profile.maximumBytes)) source).length
      < wordLimit := hword
    omega
  refine ⟨⟨canonicalFile env profile (fileChunks profile source), after, state.uniqueChunks.size⟩,
    ?_, rfl, hgrown.addressed, hheld.mono fun _ _ h => h.resolve_left id⟩
  rw [flatten_chunksOf] at hfinish
  unfold buildContent toWord
  rw [require_pos hlen]
  rw [happend]
  show (finishContent env profile source.length state >>= _) = _
  rw [hfinish]
  rw [require_pos hunique]
  rfl

end

end Insert

end Astrid.Content
