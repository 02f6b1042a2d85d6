import Astrid.Durable.Group

/-!
# What an accepted transaction stores

`Sound` is what holds of an engine without a WAL between two groups. The frames of a group go to
the arena in an order of their own, but no identity occurs in two of them, so the arena ends up
with what it had and the records of all frames (`persistGroupLegacy_arena`). For one transaction
over a sound engine `Readied` collects what `prepare` has checked; publishing it leaves a sound
engine again (`Sound.publish`).
-/

namespace Astrid

open Std List ExtTreeMap Option

variable {P : Type} [Key P] {env : WalEnv P}

namespace LiveEngine

section Sound

variable {unique : FMap Digest (ObjectRecord Digest)} {reachable : FSet Digest}

/-! ## The records of a transaction -/

variable {id : Digest} {record : ObjectRecord Digest}
  {records : List (Digest × ObjectRecord Digest)}

/-- The unique records are those of the transaction. -/
theorem unique_eq_some_iff (h : uniqueTransactionRecords records ∅ = .ok unique) :
    unique[id]? = some record ↔ (id, record) ∈ records := by
  rw [uniqueTransactionRecords_iff h, getElem?_empty, or_iff_right (by simp)]

theorem mem_unique_iff (h : uniqueTransactionRecords records ∅ = .ok unique)
    (entry : Digest × ObjectRecord Digest) : entry ∈ unique.toList ↔ entry ∈ records :=
  mem_toList_iff_getElem?_eq_some.trans (unique_eq_some_iff h)

/-! ## Sound engines -/

/-- What holds of an engine without a WAL between two groups. -/
structure Sound (env : WalEnv P) (e : LiveEngine P) : Prop where
  legacy : e.pendingObjects = ∅
  identified : ∀ (id : Digest) record, e.arena[id]? = some record → env.identify record = id
  grounded : ∀ id ∈ e.validated, Grounded (owned fun id => e.arena[id]?) id
  closed : ∀ a ∈ e.validated, ∀ b, Edge (owned fun id => e.arena[id]?) a b → b ∈ e.validated

variable {e : LiveEngine P}

theorem Sound.visible (h : Sound env e) (id : Digest) : e.visible id = e.arena[id]? := by
  unfold LiveEngine.visible
  rw [h.legacy]
  rfl

theorem Sound.closureObjects (h : Sound env e) (unique : FMap Digest (ObjectRecord Digest)) :
    (e.closureObjects unique).object = fun id => (unique[id]?).or e.arena[id]? := by
  funext id
  rw [closureObjects_object, h.visible]

theorem Sound.stored (h : Sound env e) (hid : id ∈ e.validated) :
    ∃ record, e.arena[id]? = some record := by
  obtain ⟨_, hchildren⟩ := (h.grounded id hid).present
  obtain ⟨record, hrecord, _⟩ := map_eq_some_iff.1 hchildren
  exact ⟨record, hrecord⟩

/-- Without an overlay a reachable record is compared with the arena or encoded. -/
theorem prepareObjects_cons (h : Sound env e) {rest : List (Digest × ObjectRecord Digest)} :
    e.prepareObjects env reachable ((id, record) :: rest) =
      (if id ∉ reachable then e.prepareObjects env reachable rest
      else
        match e.arena[id]? with
        | some existing => do
          require (existing = record) (.model (.objectCollision id))
          e.prepareObjects env reachable rest
        | none => do
          let payload ← okOr (encodeObjectFrame env.scheme id record) .encodingOverflow
          ensurePayloadLimit env .arena payload
          let objects ← e.prepareObjects env reachable rest
          pure ((id, payload) :: objects)) := by
  cases harena : e.arena[id]? <;>
    simp only [prepareObjects, h.legacy, getElem?_empty, harena]

end Sound

/-! ## Frames -/

variable {frame : Digest × Bytes}

omit [Key P] in
theorem loadFrame_of_frameOf {record : ObjectRecord Digest} (h : FrameOf env frame record) :
    loadFrame env frame = some (frame.1, record) := by
  unfold loadFrame
  rw [decodeObjectFrame_encode h.encoded (Nat.lt_of_le_of_lt h.fits env.maxFrameBytes_lt)]

omit [Key P] in
theorem loadFrame_fst {object : Digest × ObjectRecord Digest}
    (h : loadFrame env frame = some object) : object.1 = frame.1 := by
  unfold loadFrame at h
  split at h
  next =>
    cases h
    rfl
  next => cases h

omit [Key P] in
theorem keys_filterMap_loadFrame (frames : List (Digest × Bytes)) :
    ((frames.filterMap (loadFrame env)).map Prod.fst).Sublist (frames.map Prod.fst) := by
  induction frames with
  | nil => exact .slnil
  | cons frame _ ih =>
    cases hload : loadFrame env frame with
    | none =>
      rw [filterMap_cons_none hload]
      exact ih.cons _
    | some =>
      rw [filterMap_cons_some hload, map_cons, loadFrame_fst hload]
      exact ih.cons_cons _

omit [Key P] in
/-- Objects first and commits last is only another order. -/
theorem groupFrames_perm (accepted : List (Prepared P)) :
    (groupFrames accepted).Perm (accepted.flatMap Prepared.objects) := by
  induction accepted with
  | nil => exact .refl _
  | cons prepared _ ih =>
    unfold groupFrames at ih ⊢
    simp only [flatMap_cons]
    have hown : (prepared.objectFrames ++ prepared.commitFrames).Perm prepared.objects := by
      have hsplit := filter_append_perm
        (fun frame : Digest × Bytes => decide (frame.1 ≠ prepared.root.commit)) prepared.objects
      simpa [Prepared.objectFrames, Prepared.commitFrames] using hsplit
    refine List.Perm.trans ?_ (hown.append ih)
    rw [append_assoc, append_assoc]
    refine List.Perm.append_left _ ?_
    rw [← append_assoc, ← append_assoc]
    exact List.Perm.append_right _ perm_append_comm

variable {e : LiveEngine P}

/-- The arena after a group: what it had, and the record of every frame. -/
theorem persistGroupLegacy_arena {accepted : List (Prepared P)}
    (hdistinct : ((accepted.flatMap Prepared.objects).map Prod.fst).Nodup)
    (hfresh : ∀ frame ∈ accepted.flatMap Prepared.objects, e.arena[frame.1]? = none) (id : Digest)
    (record : ObjectRecord Digest) :
    (e.persistGroupLegacy env accepted).arena[id]? = some record ↔ e.arena[id]? = some record ∨
        ∃ frame ∈ accepted.flatMap Prepared.objects, loadFrame env frame = some (id, record) := by
  have hperm := groupFrames_perm accepted
  unfold persistGroupLegacy
  rw [getElem?_insertMany_iff]
  · simp only [mem_filterMap, hperm.mem_iff]
  · exact (keys_filterMap_loadFrame _).nodup ((hperm.map _).nodup_iff.2 hdistinct)
  · intro object hobject
    obtain ⟨frame, hframe, hload⟩ := mem_filterMap.1 hobject
    rw [loadFrame_fst hload]
    exact hfresh frame (hperm.mem_iff.1 hframe)

/-! ## Reservation -/

/-- Distinct frames are kept unless they are reserved, and reserved once they are kept. -/
theorem retainFrames_spec {frames : List (Digest × Bytes)} (pending : FMap Digest Bytes)
    (hnodup : (frames.map Prod.fst).Nodup) :
    (retainFrames frames pending).1 = frames.filter (fun frame => frame.1 ∉ pending) ∧
    ∀ (id : Digest) payload, (retainFrames frames pending).2[id]? = some payload ↔
      pending[id]? = some payload ∨
        (id, payload) ∈ frames.filter (fun frame => frame.1 ∉ pending) := by
  induction frames generalizing pending with
  | nil =>
    simp [retainFrames]
  | cons frame rest ih =>
    obtain ⟨key, value⟩ := frame
    rw [map_cons, nodup_cons] at hnodup
    rw [retainFrames]
    split_ifs with hkey
    · rw [filter_cons_of_neg (by simp [hkey])]
      exact ih pending hnodup.2
    rw [filter_cons_of_pos (by simp [hkey])]
    obtain ⟨hkept, hpending⟩ := ih (pending.insert key value) hnodup.2
    -- the key just reserved does not occur again
    have hfilter : rest.filter (fun frame => frame.1 ∉ pending.insert key value) =
        rest.filter (fun frame => frame.1 ∉ pending) := by
      refine filter_congr fun other hother => ?_
      have hne : key ≠ other.1 := fun heq =>
        hnodup.1 (mem_map.2 ⟨other, hother, heq.symm⟩)
      simp [mem_insert, hne]
    rw [hfilter] at hkept hpending
    refine ⟨congrArg (cons (key, value)) hkept, fun id payload => ?_⟩
    rw [hpending, getElem?_insert_of, mem_cons, Prod.mk.injEq]
    by_cases hid : key = id
    · subst hid
      rw [getElem?_eq_none_of_not_mem hkey, eq_comm]
      simp
    · rw [if_neg hid]
      have hne : ¬ (id = key ∧ payload = value) := fun h => hid h.1.symm
      rw [or_iff_right hne]

variable {prepared : Prepared P}

omit [Key P] in
theorem reserveGroupFrames_eq {pending : FMap Digest Bytes}
    (hnodup : (prepared.objects.map Prod.fst).Nodup)
    (hsame : ∀ frame ∈ prepared.objects, ∀ payload, pending[frame.1]? = some payload →
      payload = frame.2) :
    ∃ pending', (∀ (id : Digest) payload, pending'[id]? = some payload ↔
        pending[id]? = some payload ∨
          (id, payload) ∈ prepared.objects.filter (fun frame => frame.1 ∉ pending)) ∧
      reserveGroupFrames prepared pending = (do
        let objects := prepared.objects.filter fun frame => frame.1 ∉ pending
        require (objects.length < wordLimit) (.model .arithmeticOverflow)
        pure ({ prepared with objects }, pending')) := by
  obtain ⟨hkept, hpending⟩ := retainFrames_spec pending hnodup
  refine ⟨(retainFrames prepared.objects pending).2, hpending, ?_⟩
  have hfind : (prepared.objectFrames ++ prepared.commitFrames).find? (fun frame =>
      (pending[frame.1]?).any (· ≠ frame.2)) = none := by
    rw [find?_eq_none]
    intro frame hframe
    have hmem : frame ∈ prepared.objects := by
      rcases mem_append.1 hframe with h | h <;> exact mem_of_mem_filter h
    cases hlookup : pending[frame.1]? with
    | none => simp
    | some payload => simp [hsame frame hmem payload hlookup]
  unfold reserveGroupFrames
  rw [hfind, ← hkept]

/-! ## One transaction -/

theorem exists_left_of_mem {α β : Type} {R : α → β → Prop} {l : List α} {l' : List β}
    (h : List.Forall₂ R l l') : ∀ b ∈ l', ∃ a ∈ l, R a b := by
  induction h with
  | nil => simp
  | cons hfirst _ ih =>
    intro b hb
    rcases mem_cons.1 hb with rfl | hmem
    · exact ⟨_, mem_cons_self, hfirst⟩
    · obtain ⟨a, ha, hR⟩ := ih b hmem
      exact ⟨a, mem_cons_of_mem _ ha, hR⟩

theorem prepareObjects_reachable (h : Sound env e) {reachable : FSet Digest}
    {entries : List (Digest × ObjectRecord Digest)} {frames : List (Digest × Bytes)}
    (hframes : e.prepareObjects env reachable entries = .ok frames) :
    ∀ frame ∈ frames, frame.1 ∈ reachable := by
  induction entries generalizing frames with
  | nil =>
    intro frame hframe
    cases hframes
    cases hframe
  | cons _ _ ih =>
    rw [prepareObjects_cons h] at hframes
    split at hframes
    next => exact ih hframes
    next hreached =>
      split at hframes
      next =>
        simp only [bind_eq_ok] at hframes
        obtain ⟨_, _, hrest⟩ := hframes
        exact ih hrest
      next =>
        simp only [bind_eq_ok] at hframes
        obtain ⟨_, _, _, _, _, hrest, hout⟩ := hframes
        cases hout
        exact forall_mem_cons.2 ⟨not_not.1 hreached, ih hrest⟩

/-- What `prepare` has found out about a transaction over a sound engine: the records it
brings, and what its closure is once they are stored. -/
structure Readied (env : WalEnv P) (e : LiveEngine P) (transaction : RootTransaction P)
    (prepared : Prepared P) (objects : List (Digest × ObjectRecord Digest)) : Prop where
  principal : prepared.principal = transaction.principal
  current : e.rootsByPrincipal[transaction.principal]? = transaction.expected
  commit : prepared.root.commit = transaction.commit
  generation : nextGeneration transaction.expected = some prepared.root.generation
  frames : List.Forall₂ (fun frame object => frame.1 = object.1 ∧ FrameOf env frame object.2)
    prepared.objects objects
  nodup : (objects.map Prod.fst).Nodup
  brought : ∀ object ∈ objects, object ∈ transaction.records ∧ object.1 ∈ prepared.validated
  fresh : ∀ object ∈ objects, e.arena[object.1]? = none
  complete : ∀ entry ∈ transaction.records, entry.1 ∈ prepared.validated →
    e.arena[entry.1]? = some entry.2 ∨ entry ∈ objects
  closure : ∀ arena : FMap Digest (ObjectRecord Digest),
    (∀ (id : Digest) record, arena[id]? = some record ↔
      e.arena[id]? = some record ∨ (id, record) ∈ objects) →
    ∀ id ∈ prepared.validated, Grounded (owned fun id => arena[id]?) id ∧
      ∀ b, Edge (owned fun id => arena[id]?) id b → b ∈ e.validated ∨ b ∈ prepared.validated

theorem prepare_readied (h : Sound env e) {transaction : RootTransaction P}
    (hprepare : e.prepare env transaction = .ok prepared) :
    ∃ objects, Readied env e transaction prepared objects := by
  simp only [prepare, ensurePayloadLimit, bind_eq_ok, okOr_eq_ok, require_eq_ok] at hprepare
  obtain ⟨_, hidentities, _, hexpected, _, hgeneration, unique, hunique, reachable,
    hreachable, _, hframes, _, _, _, _, hprepared⟩ := hprepare
  cases hprepared
  obtain ⟨_, hgrounded, hreaches⟩ := validateIncrementalClosure_ok hreachable
  have hmember := fun entry => (mem_unique_iff hunique entry).1
  obtain ⟨objects, hsub, hforall, hfresh, hall⟩ := prepareObjects_ok
    (fun entry hentry => verifyDeclaredIdentities_eq_ok.1 hidentities entry (hmember entry hentry))
    hframes
  have hreached : ∀ object ∈ objects, object.1 ∈ reachable := by
    intro object hobject
    obtain ⟨frame, hframe, hsame⟩ := exists_left_of_mem hforall object hobject
    rw [← hsame.1]
    exact prepareObjects_reachable h hframes frame hframe
  refine ⟨objects, rfl, hexpected, rfl, hexpected ▸ hgeneration, hforall, ?_, ?_, ?_, ?_, ?_⟩
  · refine (hsub.map Prod.fst).nodup ?_
    rw [map_fst_toList_eq_keys]
    exact nodup_keys
  · exact fun object hobject => ⟨hmember object (hsub.subset hobject), hreached object hobject⟩
  · exact fun object hobject => (h.visible _).symm.trans (hfresh object hobject)
  · intro entry hentry hvalidated
    have hmem := (mem_unique_iff hunique entry).2 hentry
    exact (hall entry hmem hvalidated).imp_left fun hvisible => (h.visible _).symm.trans hvisible
  · intro arena harena id hid
    rw [h.closureObjects] at hgrounded hreaches
    have hmono : ∀ (id : Digest) record, e.arena[id]? = some record → arena[id]? = some record :=
      fun id record hrecord => (harena id record).2 (.inl hrecord)
    -- a record the walk has loaded is stored now
    have hstored : ∀ id record, Reaches (cut (fun id => decide (id ∈ e.validated))
          (owned fun id => (unique[id]?).or e.arena[id]?)) transaction.commit id →
        (unique[id]?).or e.arena[id]? = some record → arena[id]? = some record := by
      intro id record hreach hrecord
      rcases or_eq_some_iff.1 hrecord with hbrought | ⟨_, hold⟩
      · rcases hall (id, record) (mem_toList_iff_getElem?_eq_some.2 hbrought)
            ((hreaches id).2 hreach) with hvisible | hmem
        · exact hmono id record ((h.visible id).symm.trans hvisible)
        · exact (harena id record).2 (.inr hmem)
      · exact hmono id record hold
    have hreach := (hreaches id).1 hid
    have hground : Grounded (owned fun id => arena[id]?) id :=
      grounded_of_validated (fun node hnode => h.grounded node (of_decide_eq_true hnode)) hmono
        hstored hgrounded hreach
    refine ⟨hground, ?_⟩
    rintro b ⟨children, hchildren, hb⟩
    by_cases hknown : id ∈ e.validated
    · -- the owned objects of a validated object were validated with it
      obtain ⟨record, hrecord⟩ := h.stored hknown
      have hsame : owned (fun id => arena[id]?) id = owned (fun id => e.arena[id]?) id := by
        simp only [owned, hrecord, hmono id record hrecord]
      exact .inl (h.closed id hknown b ⟨children, hsame ▸ hchildren, hb⟩)
    · have hcut : cut (fun id => decide (id ∈ e.validated))
          (owned fun id => (unique[id]?).or e.arena[id]?) id =
            owned (fun id => (unique[id]?).or e.arena[id]?) id :=
        cut_unknown (decide_eq_false hknown)
      obtain ⟨children', hchildren'⟩ := (hgrounded.reaches hreach).present
      rw [hcut] at hchildren'
      obtain ⟨record, hrecord, howned⟩ := map_eq_some_iff.1 hchildren'
      simp only [owned, hstored id record hreach hrecord, map_some, Option.some.injEq]
        at hchildren
      have hedge : Edge (cut (fun id => decide (id ∈ e.validated))
          (owned fun id => (unique[id]?).or e.arena[id]?)) id b := by
        refine ⟨children', hcut.trans hchildren', ?_⟩
        rw [← howned, hchildren]
        exact hb
      exact .inr ((hreaches b).2 (hreach.tail hedge))

section Single

/-! ## Committing one transaction -/

theorem publishGroup_nil (e : LiveEngine P) : e.publishGroup env [] = e := by
  simp [publishGroup, persistGroupLegacy, groupFrames]

theorem union_empty (m : FMap P (RootState Digest)) :
    m ∪ (∅ : FMap P (RootState Digest)) = m := by
  refine ext_getElem? fun k => ?_
  rw [getElem?_union, getElem?_empty, none_or]

variable {e : LiveEngine P} {transaction : RootTransaction P} {prepared : Prepared P}
  {objects : List (Digest × ObjectRecord Digest)}

theorem Readied.keys (h : Readied env e transaction prepared objects) :
    prepared.objects.map Prod.fst = objects.map Prod.fst := by
  have hframes := h.frames
  clear h
  generalize prepared.objects = frames at hframes
  induction hframes with
  | nil => rfl
  | cons hfirst _ ih => rw [map_cons, map_cons, hfirst.1, ih]

/-- A prepared member is admitted with the frames that no earlier member brings. -/
theorem enlist_of_prepared {group : CommitGroup P}
    (hprepare : e.prepareAmong env group.pendingRoots transaction = .ok prepared)
    (hnodup : (prepared.objects.map Prod.fst).Nodup) (hsame : ∀ frame ∈ prepared.objects, ∀ payload,
      group.pendingFrames[frame.1]? = some payload → payload = frame.2)
    {kept : List (Digest × Bytes)}
    (hkept : kept = prepared.objects.filter fun frame => frame.1 ∉ group.pendingFrames) :
    ∃ pendingFrames : FMap Digest Bytes,
      (∀ (id : Digest) payload, pendingFrames[id]? = some payload ↔
        group.pendingFrames[id]? = some payload ∨ (id, payload) ∈ kept) ∧
      e.enlist env group transaction = if kept.length < wordLimit then
          .ok (⟨prepared.root, kept.length⟩,
            ⟨group.pendingRoots.insert prepared.principal prepared.root, pendingFrames,
              group.accepted ++ [{ prepared with objects := kept }]⟩)
        else .error (.model .arithmeticOverflow) := by
  obtain ⟨pendingFrames, hpending, hreserve⟩ := reserveGroupFrames_eq hnodup hsame
  subst hkept
  refine ⟨pendingFrames, hpending, ?_⟩
  unfold enlist
  rw [hprepare, ok_bind, hreserve]
  split
  next hcount =>
    dsimp only
    rw [require_pos hcount]
    rfl
  next hcount =>
    dsimp only
    rw [require_neg hcount]
    rfl

/-- A transaction committed on its own: what is prepared is published. -/
theorem processCommitBatch_single (h : Sound env e) (transaction : RootTransaction P) :
    e.processCommitBatch env [transaction] = match e.prepare env transaction with
      | .error error => ([.error error], e)
      | .ok prepared =>
        if prepared.objects.length < wordLimit then
          ([.ok ⟨prepared.root, prepared.objects.length⟩], e.publishGroup env [prepared])
        else ([.error (.model .arithmeticOverflow)], e) := by
  have hprepare : e.prepareAmong env CommitGroup.new.pendingRoots transaction =
      e.prepare env transaction := by
    unfold prepareAmong CommitGroup.new
    rw [union_empty]
  cases hresult : e.prepare env transaction with
  | error error =>
    have henlist : e.enlist env .new transaction = .error error := by
      unfold enlist
      rw [hprepare, hresult]
      rfl
    simp only [processCommitBatch, enlistAll, henlist]
    exact congrArg (Prod.mk _) (publishGroup_nil e)
  | ok prepared =>
    obtain ⟨objects, hreadied⟩ := prepare_readied h hresult
    have hkeep : prepared.objects = prepared.objects.filter
          (fun frame => frame.1 ∉ (CommitGroup.new : CommitGroup P).pendingFrames) :=
      (filter_eq_self.2 fun frame _ => by simp [CommitGroup.new]).symm
    obtain ⟨_, _, henlist⟩ := enlist_of_prepared (hprepare.trans hresult)
      (hreadied.keys ▸ hreadied.nodup) (by simp [CommitGroup.new]) hkeep
    by_cases hcount : prepared.objects.length < wordLimit
    · simp only [processCommitBatch, enlistAll, henlist, if_pos hcount]
      rfl
    · simp only [processCommitBatch, enlistAll, henlist, if_neg hcount]
      exact congrArg (Prod.mk _) (publishGroup_nil e)

/-- The arena after one accepted transaction. -/
theorem Readied.arena (h : Readied env e transaction prepared objects) (id : Digest)
    (record : ObjectRecord Digest) :
    (e.publishGroup env [prepared]).arena[id]? = some record ↔
      e.arena[id]? = some record ∨ (id, record) ∈ objects := by
  have hframes : [prepared].flatMap Prepared.objects = prepared.objects := by simp
  show (e.persistGroupLegacy env [prepared]).arena[id]? = some record ↔ _
  rw [persistGroupLegacy_arena]
  · refine or_congr_right ?_
    rw [hframes]
    constructor
    · rintro ⟨frame, hframe, hload⟩
      obtain ⟨object, hobject, hsame, hframeOf⟩ := exists_left_of_mem h.frames.flip frame hframe
      rw [loadFrame_of_frameOf hframeOf, hsame] at hload
      cases hload
      exact hobject
    · intro hobject
      obtain ⟨frame, hframe, hsame, hframeOf⟩ := exists_left_of_mem h.frames _ hobject
      refine ⟨frame, hframe, ?_⟩
      rw [loadFrame_of_frameOf hframeOf, hsame]
  · rw [hframes, h.keys]
    exact h.nodup
  · intro frame hframe
    rw [hframes] at hframe
    obtain ⟨object, hobject, hsame, _⟩ := exists_left_of_mem h.frames.flip frame hframe
    rw [hsame]
    exact h.fresh object hobject

theorem Sound.publish (hsound : Sound env e) (h : Readied env e transaction prepared objects) :
    Sound env (e.publishGroup env [prepared]) := by
  have hmono : ∀ (id : Digest) record, e.arena[id]? = some record →
      (e.publishGroup env [prepared]).arena[id]? = some record :=
    fun id record hrecord => (h.arena id record).2 (.inl hrecord)
  have hvalidated : ∀ id, id ∈ (e.publishGroup env [prepared]).validated ↔
      id ∈ e.validated ∨ id ∈ prepared.validated :=
    fun id => ExtTreeSet.mem_union_iff
  have hclosure := h.closure _ h.arena
  constructor
  · exact hsound.legacy
  · intro id record hrecord
    rcases (h.arena id record).1 hrecord with hold | hnew
    · exact hsound.identified id record hold
    · obtain ⟨_, _, hsame, hframe⟩ := exists_left_of_mem h.frames _ hnew
      exact hframe.identity.trans hsame
  · intro id hid
    rcases (hvalidated id).1 hid with hold | hnew
    · exact (hsound.grounded id hold).mono (owned_mono hmono)
    · exact (hclosure id hnew).1
  · intro a ha b hedge
    rw [hvalidated]
    rcases (hvalidated a).1 ha with hold | hnew
    · obtain ⟨record, hrecord⟩ := hsound.stored hold
      obtain ⟨children, hchildren, hb⟩ := hedge
      simp only [owned, hmono a record hrecord] at hchildren
      refine .inl (hsound.closed a hold b ⟨children, ?_, hb⟩)
      simp only [owned, hrecord, hchildren]
    · exact (hclosure a hnew).2 b hedge

end Single

end LiveEngine

end Astrid
