import Astrid.Durable.JournalRun
import Astrid.Durable.Compact

/-!
# What compaction keeps

The replacement arena has one frame for each live object, in the order of the identities. The
frame is the one of the old arena: it was canonical there, so encoding the record again gives the
same bytes. All frames are those of different objects, so the new arena is not longer than the old
one, and neither the appends nor the recovery of the new arena can fail.

The roots' closures are live, so they are complete in the new arena as they were in the old one,
and recovery of the new journal accepts them.
-/

namespace Astrid

open Std List

variable {id : Digest} {frames : List (Digest × Bytes)}

variable {P : Type} [Key P] {env : WalEnv P} {hash : Bytes → Digest}

/-! ## An arena of different objects -/

/-- The index of object frames that stand one after the other. -/
def indexFrames (env : WalEnv P) (hash : Bytes → Digest) :
    Nat → List (Digest × Bytes) → ArenaIndex → ArenaIndex
  | _, [], index => index
  | base, frame :: rest, index =>
    indexFrames env hash (base + frameHeaderLen + frame.2.length) rest
      (index.insert frame.1
        (StoredFrame.location (arenaFormat hash env.maxFrameBytes) ⟨base, frame.2⟩))

omit [Key P] in
theorem mem_indexFrames (frames : List (Digest × Bytes)) (base : Nat) (index : ArenaIndex) :
    id ∈ indexFrames env hash base frames index ↔ id ∈ frames.map Prod.fst ∨ id ∈ index := by
  induction frames generalizing base index with
  | nil =>
    simp [indexFrames]
  | cons _ _ ih =>
    rw [indexFrames, ih, ExtTreeMap.mem_insert, Std.compare_eq_iff_eq, map_cons, mem_cons]
    tauto

omit [Key P] in
theorem size_indexFrames (frames : List (Digest × Bytes)) (base : Nat) (index : ArenaIndex)
    (hnodup : (frames.map Prod.fst).Nodup) (hfresh : ∀ frame ∈ frames, frame.1 ∉ index) :
    (indexFrames env hash base frames index).size = index.size + frames.length := by
  induction frames generalizing base index with
  | nil =>
    rfl
  | cons frame rest ih =>
    rw [map_cons, nodup_cons] at hnodup
    have hnew : frame.1 ∉ index := hfresh frame mem_cons_self
    have hrest : ∀ other ∈ rest, other.1 ∉ index.insert frame.1
        (StoredFrame.location (arenaFormat hash env.maxFrameBytes) ⟨base, frame.2⟩) := by
      intro other hother hmem
      rcases ExtTreeMap.mem_insert.1 hmem with hsame | hmem
      · exact hnodup.1 (Std.compare_eq_iff_eq.1 hsame ▸ mem_map_of_mem hother)
      · exact hfresh other (mem_cons_of_mem _ hother) hmem
    rw [indexFrames, ih _ _ hnodup.2 hrest, ExtTreeMap.size_insert,
      if_neg fun hcontains => hnew (ExtTreeMap.mem_iff_contains.2 hcontains), length_cons]
    omega

omit [Key P] in
/-- The scan of frames of different objects indexes them all. -/
theorem foldFrames_objects (frames : List (Digest × Bytes)) (base : Nat)
    (found : ArenaIndex × Option ArenaLocation) (hnodup : (frames.map Prod.fst).Nodup)
    (hfresh : ∀ frame ∈ frames, found.1[frame.1]? = none)
    (hframes : ∀ frame ∈ frames, ∃ record, FrameOf env frame record) :
    ∃ tail,
      foldFrames (acceptObjectFrame env hash) base (frames.map Prod.snd) found =
      .ok (indexFrames env hash base frames found.1, tail) := by
  induction frames generalizing base found with
  | nil =>
    exact ⟨found.2, rfl⟩
  | cons frame _ ih =>
    rw [map_cons, nodup_cons] at hnodup
    obtain ⟨record, hrecord⟩ := hframes frame mem_cons_self
    have hverify : verifyObjectFrame env base frame.2 = .ok (frame.1, record) :=
      (verifyObjectFrame_eq_ok hrecord.fits).2 hrecord
    have haccept : acceptObjectFrame env hash base frame.2 found = .ok (found.1.insert frame.1
          (StoredFrame.location (arenaFormat hash env.maxFrameBytes) ⟨base, frame.2⟩),
          some (StoredFrame.location (arenaFormat hash env.maxFrameBytes) ⟨base, frame.2⟩)) := by
      unfold acceptObjectFrame
      rw [hverify, ok_bind]
      dsimp only
      rw [hfresh frame mem_cons_self]
      rfl
    rw [map_cons, foldFrames, haccept]
    exact ih _ _ hnodup.2 (fresh_insert hnodup.1 hfresh _) (forall_mem_cons.1 hframes).2

/-- The arena of some object frames. -/
def arenaOf (env : WalEnv P) (hash : Bytes → Digest) (frames : List (Digest × Bytes)) : Bytes :=
  encodeFrames (arenaFormat hash env.maxFrameBytes) (frames.map Prod.snd)

/-- Frames of different objects that fit into one file. -/
structure Distinct (env : WalEnv P) (hash : Bytes → Digest) (frames : List (Digest × Bytes)) :
    Prop where
  nodup : (frames.map Prod.fst).Nodup
  frameOf : ∀ frame ∈ frames, ∃ record, FrameOf env frame record
  fits : (arenaOf env hash frames).length < wordLimit

namespace Distinct

omit [Key P] in
theorem limits (h : Distinct env hash frames) :
    ∀ payload ∈ frames.map Prod.snd, payload.length ≤ env.maxFrameBytes := by
  intro payload hpayload
  obtain ⟨frame, hframe, heq⟩ := mem_map.1 hpayload
  subst heq
  obtain ⟨_, hrecord⟩ := h.frameOf frame hframe
  exact hrecord.fits

omit [Key P] in
theorem fold (h : Distinct env hash frames) :
    ∃ tail, foldFrames (acceptObjectFrame env hash) 0 (frames.map Prod.snd) (∅, none) =
      .ok (indexFrames env hash 0 frames ∅, tail) :=
  foldFrames_objects frames 0 (∅, none) h.nodup (fun _ _ => ExtTreeMap.getElem?_empty) h.frameOf

omit [Key P] in
theorem recoverArena_eq (h : Distinct env hash frames) {protectedLen : Nat}
    (hprotected : protectedLen ≤ (arenaOf env hash frames).length) :
    ∃ tail, recoverArena env hash protectedLen (arenaOf env hash frames) =
      (.ok (indexFrames env hash 0 frames ∅, tail), arenaOf env hash frames) := by
  obtain ⟨tail, hfold⟩ := h.fold
  refine ⟨tail, ?_⟩
  unfold recoverArena
  rw [arenaOf, scan_whole h.limits h.fits hprotected, hfold]

omit [Key P] in
theorem holds (h : Distinct env hash frames) :
    ArenaHolds env hash (arenaOf env hash frames) (indexFrames env hash 0 frames ∅)
      (frames.map Prod.snd) := by
  obtain ⟨_, hfold⟩ := h.fold
  have hindexes : Indexes env hash ([] ++ layout 0 (frames.map Prod.snd))
      (indexFrames env hash 0 frames ∅) := Indexes.fold _ indexes_nil h.limits hfold
  exact ⟨rfl, h.fits, h.limits, hindexes⟩

omit [Key P] in
/-- Every frame is found and read back. -/
theorem read (h : Distinct env hash frames) {frame : Digest × Bytes} (hmem : frame ∈ frames)
    {record : ObjectRecord Digest} (hrecord : FrameOf env frame record) :
    ∃ location, (indexFrames env hash 0 frames ∅)[frame.1]? = some location ∧
      readIndexedObjectWithPayload env hash (arenaOf env hash frames) frame.1 location =
        .ok (record, frame.2) := by
  have hindexed : frame.1 ∈ indexFrames env hash 0 frames ∅ :=
    (mem_indexFrames frames 0 ∅).2 (.inl (mem_map_of_mem hmem))
  obtain ⟨location, hlocation⟩ := mem_iff_getElem?.1 hindexed
  obtain ⟨payload, _, hframe, hpayload, hread⟩ := h.holds.read hlocation
  -- The payload is that of a frame for the same object, so of this one.
  obtain ⟨other, hother, heq⟩ := mem_map.1 hpayload
  obtain ⟨_, hrecord''⟩ := h.frameOf other hother
  subst heq
  have hsame : other = frame :=
    inj_on_of_nodup_map h.nodup hother hmem (hrecord''.unique hframe).1
  subst hsame
  obtain ⟨_, hsame⟩ := hrecord.unique hframe
  rw [← hsame] at hread
  exact ⟨location, hlocation, hread⟩

end Distinct

/-! ## Writing the live objects -/

theorem appendFrame_of_fits {f : FrameFormat} {file payload : Bytes}
    (hfits : (file ++ encodeFrame f payload).length < wordLimit) :
    appendFrame f file payload =
      .ok (StoredFrame.location f ⟨file.length, payload⟩, file ++ encodeFrame f payload) := by
  rw [length_append, length_encodeFrame] at hfits
  have hheader := length_frameHeader (f := f) payload.length
    (frameChecksum f payload.length payload)
  have hfirst : writeAllBytes "append durable frame header" file
      (frameHeader f payload.length (frameChecksum f payload.length payload)) =
        .ok (file ++ frameHeader f payload.length (frameChecksum f payload.length payload)) :=
    writeAllBytes_eq_ok.2 ⟨rfl, by rw [length_append, hheader]; omega⟩
  have hsecond : writeAllBytes "append durable frame payload"
      (file ++ frameHeader f payload.length (frameChecksum f payload.length payload)) payload =
        .ok (file ++ encodeFrame f payload) := by
    refine writeAllBytes_eq_ok.2 ⟨?_, ?_⟩
    · rw [encodeFrame, append_assoc]
    · rw [length_append, length_encodeFrame]
      omega
  unfold appendFrame
  rw [require_pos (by omega), ok_bind]
  dsimp only
  rw [hfirst, ok_bind, hsecond]
  rfl

variable {inner : DurableInner P}

theorem writeLiveObjects_eq (frames : List (Digest × Bytes)) (before : Bytes) (index : ArenaIndex)
    (hframes : ∀ frame ∈ frames, ∃ record,
      inner.readCompactionObject env hash frame.1 = .ok record ∧ FrameOf env frame record)
    (hfits : (before ++ arenaOf env hash frames).length < wordLimit) :
    inner.writeLiveObjects env hash (frames.map Prod.fst) (before, index) =
      .ok (before ++ arenaOf env hash frames, indexFrames env hash before.length frames index) := by
  induction frames generalizing before index with
  | nil =>
    rw [show arenaOf env hash [] = [] from rfl, append_nil]
    rfl
  | cons frame rest ih =>
    obtain ⟨record, hread, hrecord⟩ := hframes frame mem_cons_self
    have harena : before ++ arenaOf env hash (frame :: rest) =
        (before ++ encodeFrame (arenaFormat hash env.maxFrameBytes) frame.2) ++
          arenaOf env hash rest := by
      rw [append_assoc]
      rfl
    have hlength : (before ++ encodeFrame (arenaFormat hash env.maxFrameBytes) frame.2).length =
        before.length + frameHeaderLen + frame.2.length := by
      rw [length_append, length_encodeFrame, Nat.add_assoc]
    rw [harena] at hfits ⊢
    have hfirst : (before ++ encodeFrame (arenaFormat hash env.maxFrameBytes) frame.2).length <
        wordLimit := by
      rw [length_append] at hfits
      omega
    have hlimit : LiveEngine.ensurePayloadLimit env .arena frame.2 = .ok () :=
      require_pos hrecord.fits _
    have hpayload : okOr (encodeObjectFrame env.scheme frame.1 record)
      DurableError.encodingOverflow =
        .ok frame.2 := okOr_eq_ok.2 hrecord.encoded
    rw [map_cons, DurableInner.writeLiveObjects, hread, ok_bind, hpayload, ok_bind, hlimit,
      ok_bind, appendFrame_of_fits hfirst, ok_bind, indexFrames]
    dsimp only
    rw [ih _ _ (forall_mem_cons.1 hframes).2 hfits, hlength]

theorem nodup_toList {ids : FSet Digest} : ids.toList.Nodup := by
  refine ExtTreeSet.ordered_toList.imp fun {a b} hlt heq => ?_
  have hself : compare b b = .eq := ReflCmp.compare_self
  rw [heq, hself] at hlt
  cases hlt

/-! ## The recovered store -/

/-- A store as recovery leaves it. -/
structure Recovered (env : WalEnv P) (hash : Bytes → Digest) (inner : DurableInner P)
    (payloads : List Bytes) : Prop where
  holds : ArenaHolds env hash inner.arena inner.index payloads
  pending : inner.pendingWal = ∅
  commits : ∀ {principal : P} {root}, inner.rootsByPrincipal[principal]? = some root →
    ∃ record, inner.readCompactionObject env hash root.commit = .ok record ∧ record.kind = .commit

variable {source : ObjectSource Digest}

omit [Key P] in
theorem materializeRoots_of (roots : List (P × RootState Digest × Nat))
    (h : ∀ entry ∈ roots, Grounded (owned source.object) entry.2.1.commit ∧
      ∃ record, source.object entry.2.1.commit = some record ∧ record.kind = .commit) :
    ∃ validated, LiveEngine.materializeRoots source roots = .ok validated := by
  induction roots with
  | nil => exact ⟨∅, rfl⟩
  | cons first _ ih =>
    obtain ⟨hgrounded, record, hrecord, hkind⟩ := h first mem_cons_self
    obtain ⟨closure, hclosure⟩ := closureWith_of_grounded hgrounded
    obtain ⟨others, hothers⟩ := ih (forall_mem_cons.1 h).2
    refine ⟨closure ∪ others, ?_⟩
    simp only [LiveEngine.materializeRoots, bind_eq_ok, mapError_eq_ok, okOr_eq_ok, require_eq_ok]
    exact ⟨closure, hclosure, record, hrecord, (), hkind, others, hothers, rfl⟩

theorem readCompactionObject_eq (h : inner.pendingWal = ∅) (id : Digest) :
    inner.readCompactionObject env hash id = match inner.index[id]? with
      | some location => readIndexedObject env hash inner.arena id location
      | none => .error (.model (.missingObject id)) := by
  unfold DurableInner.readCompactionObject
  cases inner.index[id]? <;> simp only [h, ExtTreeMap.getElem?_empty]

/-- With an empty overlay, the index alone answers. -/
theorem closureObjects_eq (h : inner.pendingWal = ∅) :
    (inner.closureObjects env hash).object =
      (indexedObjects env hash inner.arena inner.index).object := by
  funext id
  show (inner.readCompactionObject env hash id).toOption = (inner.index[id]?).bind _
  rw [readCompactionObject_eq h]
  cases inner.index[id]? with
  | none | some => rfl

theorem toOption_eq_some {α : Type} {x : Except DurableError α} {a : α} :
    x.toOption = some a ↔ x = .ok a := by
  cases x <;> simp [Except.toOption]

variable {livenessRoots : List Digest} {protectedLen : Nat} {arena journal : Bytes}

/-- What a successful recovery has done. -/
theorem recoverStore_eq_ok :
    recoverStore env hash protectedLen arena journal livenessRoots = .ok inner ↔
      ∃ tail history, recoverArena env hash protectedLen arena =
          (.ok (inner.index, tail), inner.arena) ∧
        recoverRootFile env hash journal = (.ok history, inner.roots) ∧
        LiveEngine.materializeRoots (indexedObjects env hash inner.arena inner.index)
          history.toList = .ok inner.validated ∧
        inner.rootsByPrincipal = rootsIn history ∧ inner.pendingWal = ∅ ∧
        inner.livenessRoots = livenessRoots := by
  constructor
  · intro h
    unfold recoverStore at h
    rcases harena : recoverArena env hash protectedLen arena with ⟨e | ⟨_, tail⟩, _⟩
    · rw [harena] at h
      cases h
    rw [harena] at h
    rw [bind_eq_ok] at h
    obtain ⟨⟨_, validated, _⟩, hroots, hout⟩ := h
    cases hout
    unfold recoverRoots at hroots
    rcases hhistory : recoverRootFile env hash journal with ⟨_ | history, _⟩
    · rw [hhistory] at hroots
      cases hroots
    rw [hhistory] at hroots
    simp only [bind_eq_ok] at hroots
    obtain ⟨_, hvalidated, hout⟩ := hroots
    cases hout
    exact ⟨tail, history, rfl, rfl, hvalidated, rfl, rfl, rfl⟩
  · intro ⟨tail, history, harena, hhistory, hvalidated, hroots, hpending, hliveness⟩
    unfold recoverStore
    rw [harena]
    unfold recoverRoots
    rw [hhistory]
    dsimp only
    rw [hvalidated]
    obtain ⟨_, _, _, _, _, _, _⟩ := inner
    subst hroots hpending hliveness
    rfl

variable {record : ObjectRecord Digest}

theorem closureObjects_eq_some :
    (inner.closureObjects env hash).object id = some record ↔
      inner.readCompactionObject env hash id = .ok record :=
  toOption_eq_some

theorem recoverStore_recovered (hfits : arena.length < wordLimit)
    (h : recoverStore env hash protectedLen arena journal livenessRoots = .ok inner) :
    ∃ payloads, Recovered env hash inner payloads := by
  obtain ⟨_, _, harena, _, hvalidated, hroots, hpending, _⟩ := recoverStore_eq_ok.1 h
  obtain ⟨payloads, hholds⟩ := recoverArena_ok hfits harena
  refine ⟨payloads, hholds, hpending, fun {principal root} hroot => ?_⟩
  rw [hroots, rootsIn_getElem?] at hroot
  obtain ⟨entry, hentry, hfst⟩ := Option.map_eq_some_iff.1 hroot
  obtain ⟨_, record, hrecord, hkind⟩ := (materializeRoots_spec hvalidated).1 (principal, entry)
    (ExtTreeMap.mem_toList_iff_getElem?_eq_some.2 hentry)
  rw [← closureObjects_eq hpending] at hrecord
  rw [hfst] at hrecord
  exact ⟨record, closureObjects_eq_some.1 hrecord, hkind⟩

/-! ## Live objects -/

/-- Owning references reach the object from a root, a retained root or a dependency of a
representation. -/
def IsLive (env : WalEnv P) (hash : Bytes → Digest) (inner : DurableInner P)
    (retained : List Digest)
    (id : Digest) : Prop :=
  ∃ anchor ∈ inner.anchors retained,
    Reaches (owned (inner.closureObjects env hash).object) anchor id

variable {roots : List Digest}

theorem extendLive_spec {live live' : FSet Digest}
    (h : inner.extendLive env hash roots live = .ok live') :
    (∀ root ∈ roots, Grounded (owned (inner.closureObjects env hash).object) root) ∧ ∀ id,
      id ∈ live' ↔
      id ∈ live ∨ ∃ root ∈ roots,
      Reaches (owned (inner.closureObjects env hash).object) root id := by
  induction roots generalizing live live' with
  | nil =>
    cases h
    simp
  | cons _ _ ih =>
    unfold DurableInner.extendLive DurableInner.materializeClosure at h
    simp only [bind_eq_ok, mapError_eq_ok] at h
    obtain ⟨_, hclosure, hrest⟩ := h
    obtain ⟨hgrounded, hreaches⟩ := closureWith_ok hclosure
    obtain ⟨hothers, hmem⟩ := ih hrest
    refine ⟨forall_mem_cons.2 ⟨hgrounded, hothers⟩, fun id => ?_⟩
    rw [hmem, ExtTreeSet.mem_union_iff, hreaches, or_assoc, exists_mem_cons_iff]

theorem extendLive_of_grounded :
    ∀ live : FSet Digest,
      (∀ root ∈ roots, Grounded (owned (inner.closureObjects env hash).object) root) →
      ∃ live', inner.extendLive env hash roots live = .ok live' := by
  induction roots with
  | nil =>
    intro live _
    exact ⟨live, rfl⟩
  | cons root _ ih =>
    intro live hgrounded
    obtain ⟨closure, hclosure⟩ := closureWith_of_grounded (hgrounded root mem_cons_self)
    obtain ⟨live', hlive⟩ := ih (live ∪ closure) (forall_mem_cons.1 hgrounded).2
    refine ⟨live', ?_⟩
    unfold DurableInner.extendLive DurableInner.materializeClosure
    simp only [bind_eq_ok, mapError_eq_ok]
    exact ⟨closure, hclosure, hlive⟩

section Live

variable {inner : DurableInner P} {retained condemned : List Digest} {live : FSet Digest}

theorem captureFacts_spec (h : inner.captureFacts env hash retained = .ok (condemned, live)) :
    (∀ anchor ∈ inner.anchors retained,
      Grounded (owned (inner.closureObjects env hash).object) anchor) ∧
    (∀ id, id ∈ live ↔ IsLive env hash inner retained id) ∧
    condemned = inner.objectUniverse.toList.filter fun id => id ∉ live := by
  unfold DurableInner.captureFacts at h
  rw [bind_eq_ok] at h
  obtain ⟨_, hlive, hout⟩ := h
  cases hout
  obtain ⟨hgrounded, hmem⟩ := extendLive_spec hlive
  refine ⟨hgrounded, fun id => ?_, rfl⟩
  rw [hmem]
  exact or_iff_right ExtTreeSet.not_mem_empty

theorem captureFacts_of_grounded (h : ∀ anchor ∈ inner.anchors retained,
    Grounded (owned (inner.closureObjects env hash).object) anchor) :
    ∃ condemned live, inner.captureFacts env hash retained = .ok (condemned, live) := by
  obtain ⟨live, hlive⟩ := extendLive_of_grounded ∅ h
  refine ⟨inner.objectUniverse.toList.filter fun id => id ∉ live, live, ?_⟩
  unfold DurableInner.captureFacts DurableInner.liveObjects
  rw [hlive]
  rfl

/-- A live object can be loaded. -/
theorem IsLive.loads (h : inner.captureFacts env hash retained = .ok (condemned, live))
    (hlive : IsLive env hash inner retained id) :
    ∃ record, inner.readCompactionObject env hash id = .ok record := by
  obtain ⟨anchor, hanchor, hreaches⟩ := hlive
  obtain ⟨_, hreferences⟩ := ((captureFacts_spec h).1 anchor hanchor).complete hreaches
  obtain ⟨record, hrecord, _⟩ := Option.map_eq_some_iff.1 hreferences
  exact ⟨record, closureObjects_eq_some.1 hrecord⟩

variable {payloads : List Bytes}

section

variable (h : Recovered env hash inner payloads)

include h

theorem Recovered.stored (hread : inner.readCompactionObject env hash id = .ok record) :
    ∃ location payload, inner.index[id]? = some location ∧ FrameOf env (id, payload) record ∧
      payload ∈ payloads ∧
      readIndexedObjectWithPayload env hash inner.arena id location = .ok (record, payload) := by
  rw [readCompactionObject_eq h.pending] at hread
  cases hlocation : inner.index[id]? with
  | none =>
    rw [hlocation] at hread
    cases hread
  | some location =>
    rw [hlocation] at hread
    obtain ⟨payload, _, hframe, hmem, hpayload⟩ := h.holds.read hlocation
    dsimp only [readIndexedObject] at hread
    rw [hpayload] at hread
    cases hread
    exact ⟨location, payload, rfl, hframe, hmem, hpayload⟩

theorem mem_objectUniverse : id ∈ inner.objectUniverse ↔ id ∈ inner.index := by
  unfold DurableInner.objectUniverse
  rw [h.pending, ExtTreeSet.mem_ofList, contains_iff_mem, mem_append,
    ExtTreeMap.mem_keys, ExtTreeMap.mem_keys]
  exact or_iff_left ExtTreeMap.not_mem_empty

/-- The frames of the live objects. -/
theorem exists_liveFrames : ∀ (ids : List Digest),
    (∀ id ∈ ids, ∃ record, inner.readCompactionObject env hash id = .ok record) →
    ∃ frames : List (Digest × Bytes), frames.map Prod.fst = ids ∧ ∀ frame ∈ frames,
      frame.2 ∈ payloads ∧ ∃ record, inner.readCompactionObject env hash frame.1 = .ok record ∧
        FrameOf env frame record := by
  intro ids
  induction ids with
  | nil =>
    intro _
    exact ⟨[], rfl, by simp⟩
  | cons id _ ih =>
    intro hloads
    obtain ⟨record, hread⟩ := hloads id mem_cons_self
    obtain ⟨_, payload, _, hframe, hmem, _⟩ := h.stored hread
    obtain ⟨frames, hids, hframes⟩ := ih (forall_mem_cons.1 hloads).2
    refine ⟨(id, payload) :: frames, by rw [map_cons, hids], forall_mem_cons.2 ⟨?_, hframes⟩⟩
    exact ⟨hmem, record, hread, hframe⟩

end

theorem journalLength_le_of_subperm {some all : List Bytes} (h : some.Subperm all) :
    journalLength some ≤ journalLength all := by
  obtain ⟨between, hperm, hsub⟩ := h
  have hsame : journalLength between = journalLength some := (hperm.map _).sum_eq
  rw [← hsame]
  exact (hsub.map _).sum_le_sum fun _ _ => Nat.zero_le _

/-- The frames of different objects of an arena take no more room than the arena. -/
theorem distinct_of_stored (h : Recovered env hash inner payloads) {frames : List (Digest × Bytes)}
    (hnodup : (frames.map Prod.fst).Nodup)
    (hframes : ∀ frame ∈ frames, frame.2 ∈ payloads ∧ ∃ record, FrameOf env frame record) :
    Distinct env hash frames := by
  refine ⟨hnodup, fun frame hframe => (hframes frame hframe).2, ?_⟩
  have hpayloads : (frames.map Prod.snd).Nodup := by
    refine List.Nodup.map_on ?_ hnodup.of_map
    intro first hfirst second hsecond hsame
    obtain ⟨_, _, hrecord⟩ := hframes first hfirst
    obtain ⟨_, _, hrecord'⟩ := hframes second hsecond
    obtain ⟨_, payload⟩ := first
    subst hsame
    rw [(hrecord.unique hrecord').1]
  have hsubset : frames.map Prod.snd ⊆ payloads := by
    intro payload hpayload
    obtain ⟨frame, hframe, heq⟩ := mem_map.1 hpayload
    subst heq
    exact (hframes frame hframe).1
  have hlength := journalLength_le_of_subperm (subperm_of_subset hpayloads hsubset)
  have hfits := h.holds.fits
  rw [h.holds.encoded, length_encodeFrames] at hfits
  rw [arenaOf, length_encodeFrames]
  omega

/-! ## Compaction -/

/-- The store keeps exactly the live objects of another one, and its roots. -/
structure CompactedFrom (env : WalEnv P) (hash : Bytes → Digest) (inner : DurableInner P)
    (retained condemned : List Digest) (compacted : DurableInner P) : Prop where
  /-- One frame for each live object, and no other byte. -/
  arena : ∃ frames, compacted.arena = arenaOf env hash frames ∧ (frames.map Prod.fst).Nodup ∧
    ∀ id, id ∈ frames.map Prod.fst ↔ IsLive env hash inner retained id
  index : ∀ id, id ∈ compacted.index ↔ IsLive env hash inner retained id
  /-- The frames have the bytes they had before. -/
  bytes : ∀ id, IsLive env hash inner retained id → ∃ location location' object,
    inner.index[id]? = some location ∧ compacted.index[id]? = some location' ∧
      readIndexedObjectWithPayload env hash inner.arena id location = .ok object ∧
      readIndexedObjectWithPayload env hash compacted.arena id location' = .ok object
  reads : ∀ id, IsLive env hash inner retained id →
    compacted.readCompactionObject env hash id = inner.readCompactionObject env hash id
  roots : compacted.rootsByPrincipal = inner.rootsByPrincipal
  condemned : ∀ id, id ∈ condemned ↔ id ∈ inner.index ∧ ¬ IsLive env hash inner retained id
  /-- Recovery of the new files finds all this again. -/
  reopens : ∀ protectedLen ≤ compacted.arena.length,
    recoverStore env hash protectedLen compacted.arena compacted.roots inner.livenessRoots =
      .ok compacted

/-- What the new files hold. -/
structure Rewritten (env : WalEnv P) (hash : Bytes → Digest) (inner : DurableInner P)
    (live : FSet Digest) (frames : List (Digest × Bytes)) : Prop where
  ids : frames.map Prod.fst = live.toList
  distinct : Distinct env hash frames
  frameOf : ∀ frame ∈ frames, ∃ record,
    inner.readCompactionObject env hash frame.1 = .ok record ∧ FrameOf env frame record

theorem exists_rewritten (h : Recovered env hash inner payloads)
    (hfacts : inner.captureFacts env hash retained = .ok (condemned, live)) :
    ∃ frames, Rewritten env hash inner live frames := by
  obtain ⟨_, hlive, _⟩ := captureFacts_spec hfacts
  obtain ⟨frames, hids, hframes⟩ := exists_liveFrames h live.toList
    fun id hid => IsLive.loads hfacts ((hlive id).1 (ExtTreeSet.mem_toList.1 hid))
  have hnodup : (frames.map Prod.fst).Nodup := by
    rw [hids]
    exact nodup_toList
  refine ⟨frames, hids, distinct_of_stored h hnodup fun frame hframe => ?_,
    fun frame hframe => (hframes frame hframe).2⟩
  obtain ⟨hpayload, record, _, hrecord⟩ := hframes frame hframe
  exact ⟨hpayload, record, hrecord⟩

namespace Rewritten

section

variable (h : Rewritten env hash inner live frames)

include h

theorem mem_index (id : Digest) : id ∈ indexFrames env hash 0 frames ∅ ↔ id ∈ live := by
  rw [mem_indexFrames, h.ids, ExtTreeSet.mem_toList]
  exact or_iff_left ExtTreeMap.not_mem_empty

/-- The new files answer for a live object as the old ones do. -/
theorem object_eq {id : Digest} (hlive : id ∈ live) :
    (indexedObjects env hash (arenaOf env hash frames) (indexFrames env hash 0 frames ∅)).object
      id =
      (inner.closureObjects env hash).object id := by
  obtain ⟨frame, hframe, heq⟩ := mem_map.1 (h.ids ▸ ExtTreeSet.mem_toList.2 hlive)
  subst heq
  obtain ⟨_, hread, hrecord⟩ := h.frameOf frame hframe
  obtain ⟨_, hlocation, hstored⟩ := h.distinct.read hframe hrecord
  show ((indexFrames env hash 0 frames ∅)[frame.1]?).bind _ =
    (inner.readCompactionObject env hash frame.1).toOption
  rw [hlocation, hread, Option.bind_some, readIndexedObject, hstored]
  rfl

/-- The closures of the roots are complete in the new files. -/
theorem rooted (hrecovered : Recovered env hash inner payloads)
    (hfacts : inner.captureFacts env hash retained = .ok (condemned, live)) {principal : P}
    {root : RootState Digest} (hroot : inner.rootsByPrincipal[principal]? = some root) :
    Grounded (owned (indexedObjects env hash (arenaOf env hash frames)
        (indexFrames env hash 0 frames ∅)).object) root.commit ∧
      ∃ record, (indexedObjects env hash (arenaOf env hash frames)
        (indexFrames env hash 0 frames ∅)).object root.commit = some record ∧
          record.kind = .commit := by
  obtain ⟨hgrounded, hlive, _⟩ := captureFacts_spec hfacts
  have hanchor : root.commit ∈ inner.anchors retained := by
    refine mem_append_left _ (mem_map.2 ⟨(principal, root), ?_, rfl⟩)
    exact ExtTreeMap.mem_toList_iff_getElem?_eq_some.2 hroot
  refine ⟨(hgrounded _ hanchor).congr fun id hreaches => ?_, ?_⟩
  · unfold owned
    rw [h.object_eq ((hlive id).2 ⟨_, hanchor, hreaches⟩)]
  · obtain ⟨record, hread, hkind⟩ := hrecovered.commits hroot
    refine ⟨record, ?_, hkind⟩
    rw [h.object_eq ((hlive _).2 ⟨_, hanchor, .refl⟩)]
    exact closureObjects_eq_some.2 hread

/-- The new files recover to the live objects and the old roots. -/
theorem recovers (hcodec : CodecRoundTrip env) (hrecovered : Recovered env hash inner payloads)
    (hfacts : inner.captureFacts env hash retained = .ok (condemned, live))
    (hsnapshot : writeRootSnapshot env hash inner.rootsByPrincipal = .ok journal) :
    ∃ validated, ∀ protectedLen ≤ (arenaOf env hash frames).length,
      recoverStore env hash protectedLen (arenaOf env hash frames) journal inner.livenessRoots =
        .ok ⟨arenaOf env hash frames, journal, indexFrames env hash 0 frames ∅,
          inner.rootsByPrincipal, validated, ∅, inner.livenessRoots⟩ := by
  obtain ⟨_, hjournal, hlimit, hfits, hroots⟩ := writeRootSnapshot_eq_ok hash hcodec hsnapshot
  subst hjournal
  obtain ⟨history, hhistory, hsame⟩ := recoverRootFile_of_recovers hroots
    (fun p hp => mem_singleton.1 hp ▸ hlimit) hfits
  have hentries : ∀ entry ∈ history.toList, inner.rootsByPrincipal[entry.1]? = some entry.2.1 := by
    intro entry hentry
    rw [← hsame, rootsIn_getElem?, ExtTreeMap.mem_toList_iff_getElem?_eq_some.1 hentry]
    rfl
  obtain ⟨validated, hvalidated⟩ := materializeRoots_of history.toList
    fun entry hentry => h.rooted hrecovered hfacts (hentries entry hentry)
  refine ⟨validated, fun protectedLen hprotected => recoverStore_eq_ok.2 ?_⟩
  obtain ⟨tail, harena⟩ := h.distinct.recoverArena_eq hprotected
  exact ⟨tail, history, harena, hhistory, hvalidated, hsame.symm, rfl, rfl⟩

/-- The condemned objects are those that are not written. -/
theorem count (hrecovered : Recovered env hash inner payloads)
    (hfacts : inner.captureFacts env hash retained = .ok (condemned, live)) :
    checkedSub inner.objectUniverse.size (indexFrames env hash 0 frames ∅).size =
      some condemned.length := by
  obtain ⟨_, hlive, hcondemned⟩ := captureFacts_spec hfacts
  have hsize : (indexFrames env hash 0 frames ∅).size = live.toList.length := by
    rw [size_indexFrames frames 0 ∅ h.distinct.nodup fun _ _ => ExtTreeMap.not_mem_empty,
      ExtTreeMap.size_empty, Nat.zero_add, ← length_map (f := Prod.fst), h.ids]
  -- The live objects are the rest of the universe.
  have hkept : (inner.objectUniverse.toList.filter fun id => id ∈ live).Perm live.toList := by
    refine (perm_ext_iff_of_nodup (nodup_toList.filter _) nodup_toList).2 fun id => ?_
    rw [mem_filter, ExtTreeSet.mem_toList, ExtTreeSet.mem_toList, decide_eq_true_iff,
      and_iff_right_iff_imp, mem_objectUniverse hrecovered]
    intro hid
    obtain ⟨_, hread⟩ := IsLive.loads hfacts ((hlive id).1 hid)
    obtain ⟨location, _, hlocation, _⟩ := hrecovered.stored hread
    exact mem_iff_getElem?.2 ⟨location, hlocation⟩
  have hsplit := inner.objectUniverse.toList.length_eq_length_filter_add fun id =>
    decide (id ∈ live)
  rw [hkept.length_eq, ExtTreeSet.length_toList] at hsplit
  have hlength : condemned.length =
      (inner.objectUniverse.toList.filter fun id => !decide (id ∈ live)).length := by
    rw [hcondemned]
    congr 2
    funext id
    exact decide_not
  rw [checkedSub_eq_some]
  omega

end

end Rewritten

theorem Recovered.compact_eq (hinner : Recovered env hash inner payloads)
    (hcodec : CodecRoundTrip env) {snapshot : Bytes}
    (hfacts : inner.captureFacts env hash retained = .ok (condemned, live))
    (hsnapshot : writeRootSnapshot env hash inner.rootsByPrincipal = .ok snapshot) :
    ∃ compacted,
      inner.compact env hash retained = .ok (condemned, compacted) ∧
      CompactedFrom env hash inner retained condemned compacted := by
  obtain ⟨frames, hframes⟩ := exists_rewritten hinner hfacts
  obtain ⟨_, hlive, hcondemned⟩ := captureFacts_spec hfacts
  obtain ⟨validated, hrecovers⟩ := hframes.recovers hcodec hinner hfacts hsnapshot
  have hwritten : inner.writeLiveObjects env hash live.toList ([], ∅) =
      .ok (arenaOf env hash frames, indexFrames env hash 0 frames ∅) := by
    rw [← hframes.ids]
    exact writeLiveObjects_eq frames [] ∅ hframes.frameOf hframes.distinct.fits
  refine ⟨⟨arenaOf env hash frames, snapshot, indexFrames env hash 0 frames ∅,
    inner.rootsByPrincipal, validated, ∅, inner.livenessRoots⟩, ?_, ?_⟩
  · unfold DurableInner.compact DurableInner.prepareCompaction DurableInner.writeReplacementFiles
      DurableInner.validateReplacement
    simp only [bind_eq_ok, require_eq_ok, okOr_eq_ok]
    exact ⟨_, hfacts, _, ⟨_, ⟨_, hwritten, _, hsnapshot, _, hrecovers 0 (Nat.zero_le _), (), rfl,
      rfl⟩,
      _, hframes.count hinner hfacts, (), rfl, rfl⟩, _, hrecovers 0 (Nat.zero_le _), rfl⟩
  · have hmem : ∀ id, id ∈ frames.map Prod.fst ↔ IsLive env hash inner retained id := by
      intro id
      rw [hframes.ids, ExtTreeSet.mem_toList, hlive]
    have hbytes : ∀ id, IsLive env hash inner retained id → ∃ location location' object,
        inner.index[id]? = some location ∧
        (indexFrames env hash 0 frames ∅)[id]? = some location' ∧
        readIndexedObjectWithPayload env hash inner.arena id location = .ok object ∧
        readIndexedObjectWithPayload env hash (arenaOf env hash frames) id location' =
          .ok object := by
      intro id hid
      obtain ⟨frame, hframe, heq⟩ := mem_map.1 ((hmem id).2 hid)
      subst heq
      obtain ⟨_, hread, hrecord⟩ := hframes.frameOf frame hframe
      obtain ⟨location, payload, hlocation, hstored, _, hold⟩ := hinner.stored hread
      obtain ⟨location', hlocation', hnew⟩ := hframes.distinct.read hframe hrecord
      have hsame : payload = frame.2 := by
        have hencoded := hstored.encoded
        rw [hrecord.encoded] at hencoded
        cases hencoded
        rfl
      subst hsame
      exact ⟨location, location', _, hlocation, hlocation', hold, hnew⟩
    refine ⟨⟨frames, rfl, hframes.distinct.nodup, hmem⟩, fun id => ?_, hbytes, fun id hid => ?_,
      rfl,
      fun id => ?_, hrecovers⟩
    · rw [← hlive]
      exact hframes.mem_index id
    · obtain ⟨_, _, _, hlocation, hlocation', hold, hnew⟩ := hbytes id hid
      rw [readCompactionObject_eq rfl, readCompactionObject_eq hinner.pending, hlocation,
        hlocation']
      dsimp only [readIndexedObject]
      rw [hold, hnew]
    · rw [hcondemned, mem_filter, ExtTreeSet.mem_toList, mem_objectUniverse hinner, ← hlive,
        decide_eq_true_iff]

end Live

/-! ## A store with a specification object -/

section

variable (content : UInt8)

def contentId : Digest := WalEnv.byContent.identify (contentCommit content)

def contentFrame : Bytes :=
  (encodeObjectFrame WalEnv.byContent.scheme (contentId content) (contentCommit content)).getD []

theorem length_contentFrame : (contentFrame content).length = 70 := rfl

theorem contentFrame_frameOf :
    FrameOf WalEnv.byContent (contentId content, contentFrame content) (contentCommit content) := by
  have hencoded : encodeObjectFrame WalEnv.byContent.scheme (contentId content)
      (contentCommit content) = some (contentFrame content) := by
    simp [encodeObjectFrame, contentFrame, contentCommit, wordLimit]
  refine ⟨hencoded, rfl, ?_⟩
  rw [length_contentFrame]
  decide

end

/-- Three objects, of which only the first is the commit of a root. -/
def threeObjects : List (Digest × Bytes) :=
  [7, 8, 9].map fun content => (contentId content, contentFrame content)

theorem threeObjects_distinct : Distinct WalEnv.byContent zeroChecksum threeObjects := by
  refine ⟨by decide, fun frame hframe => ?_, ?_⟩
  · obtain ⟨content, _, heq⟩ := mem_map.1 hframe
    subst heq
    exact ⟨_, contentFrame_frameOf content⟩
  · rw [arenaOf, length_encodeFrames]
    simp [journalLength, threeObjects, length_contentFrame, frameHeaderLen, wordLimit]

/-- The store with the given dependencies of its representations. -/
def threeObjectStore (validated : FSet Digest) (livenessRoots : List Digest) :
    DurableInner UInt8 where
  arena := arenaOf WalEnv.byContent zeroChecksum threeObjects
  roots := encodeFrames (rootFormat zeroChecksum WalEnv.byContent.maxFrameBytes)
    [(encodeRootRecord WalEnv.byContent.scheme [1] none (contentRoot .initial 7)).getD []]
  index := indexFrames WalEnv.byContent zeroChecksum 0 threeObjects ∅
  rootsByPrincipal := (∅ : Roots UInt8).insert 1 (contentRoot .initial 7)
  validated
  pendingWal := ∅
  livenessRoots

variable {validated : FSet Digest} {content : UInt8}

section

variable (h : content ∈ [7, 8, 9])

include h

theorem threeObjectStore_reads :
    (threeObjectStore validated livenessRoots).readCompactionObject WalEnv.byContent zeroChecksum
      (contentId content) = .ok (contentCommit content) := by
  obtain ⟨_, hlocation, hread⟩ := threeObjects_distinct.read
    (mem_map_of_mem h) (contentFrame_frameOf content)
  rw [readCompactionObject_eq rfl]
  dsimp only [threeObjectStore, readIndexedObject]
  rw [hlocation]
  dsimp only
  rw [hread]
  rfl

/-- None of the objects has references. -/
theorem threeObjectStore_owned :
    owned ((threeObjectStore validated livenessRoots).closureObjects WalEnv.byContent
      zeroChecksum).object (contentId content) = some [] := by
  show Option.map _ (Except.toOption _) = _
  rw [threeObjectStore_reads h]
  rfl

theorem threeObjectStore_grounded :
    Grounded (owned ((threeObjectStore validated livenessRoots).closureObjects WalEnv.byContent
      zeroChecksum).object) (contentId content) :=
  .intro (threeObjectStore_owned h) fun _ hb => absurd hb not_mem_nil

theorem threeObjectStore_reaches
    (hreaches : Reaches (owned ((threeObjectStore validated livenessRoots).closureObjects
      WalEnv.byContent zeroChecksum).object) (contentId content) id) : id = contentId content := by
  rcases Relation.ReflTransGen.cases_head hreaches with heq | ⟨_, ⟨_, hreferences, hnext⟩, _⟩
  · exact heq.symm
  · rw [threeObjectStore_owned h] at hreferences
    cases hreferences
    cases hnext

end

theorem threeObjectStore_recovers (livenessRoots : List Digest) : ∃ validated,
    recoverStore WalEnv.byContent zeroChecksum 0 (threeObjectStore validated livenessRoots).arena
      (threeObjectStore validated livenessRoots).roots livenessRoots =
        .ok (threeObjectStore validated livenessRoots) := by
  have hroots : RecoversRoots WalEnv.byContent
      [(encodeRootRecord WalEnv.byContent.scheme [1] none (contentRoot .initial 7)).getD []]
      ((∅ : Roots UInt8).insert 1 (contentRoot .initial 7)) :=
    recoversRoots_nil.transition (fun _ => rfl)
      (rfl : acceptRoot WalEnv.byContent ∅ ⟨1, none, contentId 7⟩ = .ok (_, _))
  obtain ⟨history, hhistory, hsame⟩ := @recoverRootFile_of_recovers _ _ _ zeroChecksum _ _ hroots
    (by decide) (by decide)
  have hobjects := @closureObjects_eq _ _ WalEnv.byContent zeroChecksum
    (threeObjectStore ∅ livenessRoots) rfl
  have hentries : ∀ entry ∈ history.toList, entry.2.1 = contentRoot .initial 7 := by
    intro entry hentry
    have hroot : (rootsIn history)[entry.1]? = some entry.2.1 := by
      rw [rootsIn_getElem?, ExtTreeMap.mem_toList_iff_getElem?_eq_some.1 hentry]
      rfl
    rw [hsame, getElem?_insert_of] at hroot
    split at hroot
    next => exact (Option.some.inj hroot).symm
    next => cases hroot
  have hcommit : ∀ entry ∈ history.toList,
      Grounded (owned (indexedObjects WalEnv.byContent zeroChecksum
        (threeObjectStore ∅ livenessRoots).arena (threeObjectStore ∅ livenessRoots).index).object)
          entry.2.1.commit ∧
      ∃ record, (indexedObjects WalEnv.byContent zeroChecksum
        (threeObjectStore ∅ livenessRoots).arena (threeObjectStore ∅ livenessRoots).index).object
          entry.2.1.commit = some record ∧ record.kind = .commit := by
    intro entry hentry
    rw [hentries entry hentry, ← hobjects]
    refine ⟨threeObjectStore_grounded (by decide), contentCommit 7, ?_, rfl⟩
    exact closureObjects_eq_some.2 (threeObjectStore_reads (by decide))
  obtain ⟨validated, hvalidated⟩ := materializeRoots_of history.toList hcommit
  refine ⟨validated, recoverStore_eq_ok.2 ?_⟩
  obtain ⟨tail, harena⟩ := threeObjects_distinct.recoverArena_eq
    (Nat.zero_le (arenaOf WalEnv.byContent zeroChecksum threeObjects).length)
  exact ⟨tail, history, harena, hhistory, hvalidated, hsame.symm, rfl, rfl⟩

theorem snapshot_threeObjectStore :
    ∃ snapshot, writeRootSnapshot WalEnv.byContent zeroChecksum
      (threeObjectStore validated livenessRoots).rootsByPrincipal = .ok snapshot := by
  unfold writeRootSnapshot
  dsimp only [threeObjectStore]
  rw [encodedRoots_first]
  exact ⟨_, rfl⟩

variable {retained : List Digest}

section

variable (h : ∀ id ∈ retained ++ livenessRoots, id = contentId 8)

include h

/-- What a compaction starts from: the commit, and the second object if it is named. -/
theorem threeObjectStore_anchors {anchor : Digest}
    (hanchor : anchor ∈ (threeObjectStore validated livenessRoots).anchors retained) :
    ∃ content ∈ [7, 8, 9], anchor = contentId content ∧ contentId 9 ≠ contentId content := by
  rcases mem_append.1 hanchor with hroot | hother
  · exact ⟨7, by decide, mem_singleton.1 hroot, by decide⟩
  · exact ⟨8, by decide, h anchor hother, by decide⟩

/-- The third object is condemned. -/
theorem threeObjectStore_compacts :
    (∃ condemned live, (threeObjectStore validated livenessRoots).captureFacts WalEnv.byContent
      zeroChecksum retained = .ok (condemned, live)) ∧
    ¬ IsLive WalEnv.byContent zeroChecksum (threeObjectStore validated livenessRoots) retained
      (contentId 9) := by
  refine ⟨captureFacts_of_grounded fun anchor hanchor => ?_, fun ⟨anchor, hanchor, hreaches⟩ => ?_⟩
  · obtain ⟨content, hcontent, heq, _⟩ := threeObjectStore_anchors h hanchor
    rw [heq]
    exact threeObjectStore_grounded hcontent
  · obtain ⟨_, hcontent, heq, hother⟩ := threeObjectStore_anchors h hanchor
    rw [heq] at hreaches
    exact hother (threeObjectStore_reaches hcontent hreaches)

end

theorem mem_threeObjectStore (h : content ∈ [7, 8, 9]) :
    contentId content ∈ (threeObjectStore validated livenessRoots).index := by
  refine (mem_indexFrames threeObjects 0 ∅).2 (.inl ?_)
  exact mem_map_of_mem h

end Astrid
