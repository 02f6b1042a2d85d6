import Astrid.Durable.Written

/-!
# What a publication leaves behind

A publication appends one complete transaction to the WAL, installs the objects that
were stored nowhere yet in the overlay and moves the root of one principal. The facts
about it that recovery relies on are collected in `Published`; `Live` is what every
publication keeps, and `publish_ok` derives the first from the second.
-/

namespace Astrid

open Std List ExtTreeMap Option

variable {P : Type} {env : WalEnv P}

namespace LiveEngine

/-! ## What is stored -/

/-- The record of an identity, in the overlay or the arena. -/
def visible [Key P] (e : LiveEngine P) (id : Digest) : Option (ObjectRecord Digest) :=
  ((e.pendingObjects[id]?).map Prod.snd).or e.arena[id]?

theorem closureObjects_object [Key P] (e : LiveEngine P)
    (incoming : FMap Digest (ObjectRecord Digest)) (id : Digest) :
    (e.closureObjects incoming).object id = (incoming[id]?).or (e.visible id) := by
  simp [closureObjects, ObjectSource.orElse, ObjectSource.ofMap, visible]

/-- The unique records are those at the start and those of the list. -/
theorem uniqueTransactionRecords_iff {records : List (Digest × ObjectRecord Digest)}
    {start unique : FMap Digest (ObjectRecord Digest)}
    (h : uniqueTransactionRecords records start = .ok unique) (id : Digest)
    (record : ObjectRecord Digest) :
    unique[id]? = some record ↔ start[id]? = some record ∨ (id, record) ∈ records := by
  induction records generalizing start with
  | nil =>
    cases h
    simp
  | cons _ _ ih =>
    unfold uniqueTransactionRecords at h
    split at h
    next existing hexisting =>
      simp only [bind_eq_ok, require_eq_ok] at h
      obtain ⟨_, rfl, h⟩ := h
      rw [ih h, mem_cons]
      grind
    next hnone =>
      rw [ih h, mem_cons, getElem?_insert_of]
      grind

theorem verifyDeclaredIdentities_eq_ok {records : List (Digest × ObjectRecord Digest)} :
    verifyDeclaredIdentities env records = .ok () ↔
      ∀ entry ∈ records, env.identify entry.2 = entry.1 := by
  induction records with
  | nil => simp [verifyDeclaredIdentities]
  | cons _ _ ih =>
    simp only [verifyDeclaredIdentities, bind_eq_ok, require_eq_ok, ih, forall_mem_cons,
      exists_const]

/-- The objects to write among the entries: those that are reachable and stored nowhere yet. -/
structure Unstored [Key P] (env : WalEnv P) (e : LiveEngine P) (reachable : FSet Digest)
    (entries : List (Digest × ObjectRecord Digest)) (frames : List (Digest × Bytes))
    (objects : List (Digest × ObjectRecord Digest)) : Prop where
  sub : objects.Sublist entries
  frames : FramesOf env frames objects
  fresh : ∀ object ∈ objects, e.visible object.1 = none
  all : ∀ entry ∈ entries, entry.1 ∈ reachable →
    e.visible entry.1 = some entry.2 ∨ entry ∈ objects

theorem prepareObjects_ok [Key P] {e : LiveEngine P} {reachable : FSet Digest}
    {entries : List (Digest × ObjectRecord Digest)} {frames : List (Digest × Bytes)}
    (hidentity : ∀ entry ∈ entries, env.identify entry.2 = entry.1)
    (h : e.prepareObjects env reachable entries = .ok frames) :
    ∃ objects, Unstored env e reachable entries frames objects := by
  induction entries generalizing frames with
  | nil =>
    cases h
    exact ⟨[], .slnil, .nil, by simp, by simp⟩
  | cons entry rest ih =>
    have hrest := (forall_mem_cons.1 hidentity).2
    -- An entry that is skipped is unreachable or already stored.
    have hskip {frames} (h : e.prepareObjects env reachable rest = .ok frames)
        (hstored : entry.1 ∈ reachable → e.visible entry.1 = some entry.2) :
        ∃ objects, Unstored env e reachable (entry :: rest) frames objects := by
      obtain ⟨objects, hsub, hframes, hnew, hall⟩ := ih hrest h
      refine ⟨objects, hsub.cons _, hframes, hnew, ?_⟩
      exact forall_mem_cons.2 ⟨fun hreachable => .inl (hstored hreachable), hall⟩
    unfold prepareObjects at h
    split at h
    next hunreachable => exact hskip h fun hreachable => absurd hreachable hunreachable
    next =>
      split at h
      next existing hexisting =>
        simp only [bind_eq_ok, require_eq_ok] at h
        obtain ⟨_, hsame, h⟩ := h
        refine hskip h fun _ => ?_
        simp [visible, hexisting, hsame]
      next hpending =>
        split at h
        next existing hexisting =>
          simp only [bind_eq_ok, require_eq_ok] at h
          obtain ⟨_, hsame, h⟩ := h
          refine hskip h fun _ => ?_
          simp [visible, hpending, hexisting, hsame]
        next harena =>
          simp only [ensurePayloadLimit, bind_eq_ok, okOr_eq_ok, require_eq_ok] at h
          obtain ⟨_, hpayload, _, hlimit, _, hframes', hout⟩ := h
          cases hout
          obtain ⟨objects, hsub, hframes, hnew, hall⟩ := ih hrest hframes'
          refine ⟨entry :: objects, hsub.cons_cons _, .cons ⟨rfl, hpayload,
            hidentity entry mem_cons_self, hlimit⟩ hframes, ?_, ?_⟩
          · exact forall_mem_cons.2 ⟨by simp [visible, hpending, harena], hnew⟩
          · intro other hother hreachable
            rcases mem_cons.1 hother with rfl | hmem
            · exact .inr mem_cons_self
            · exact (hall other hmem hreachable).imp_right (mem_cons_of_mem _)

/-- The overlay takes exactly the prepared objects. -/
theorem installOverlay_ok {frames : List (Digest × Bytes)}
    {objects : List (Digest × ObjectRecord Digest)}
    {overlay overlay' : FMap Digest (Bytes × ObjectRecord Digest)}
    (hframes : FramesOf env frames objects) (hnodup : (objects.map Prod.fst).Nodup)
    (hfresh : ∀ object ∈ objects, overlay[object.1]? = none)
    (h : installOverlay env frames overlay = .ok overlay') :
    ∀ (id : Digest) record, (overlay'[id]?).map Prod.snd = some record ↔
      (overlay[id]?).map Prod.snd = some record ∨ (id, record) ∈ objects :=
    by
  induction frames generalizing objects overlay overlay' with
  | nil =>
    cases hframes
    cases h
    simp
  | cons _ _ ih =>
    intro id record
    cases hframes with
    | @cons _ object _ _ hframe hframes =>
      rw [map_cons, nodup_cons] at hnodup
      simp only [installOverlay, bind_eq_ok, mapError_eq_ok, require_eq_ok] at h
      obtain ⟨⟨_, _⟩, hdecode, _, _, h⟩ := h
      have hencoded := decodeObjectFrame_encode hframe.2.encoded
        (Nat.lt_of_le_of_lt hframe.2.fits env.maxFrameBytes_lt)
      rw [hencoded] at hdecode
      cases hdecode
      rw [hframe.1, hfresh object mem_cons_self] at h
      rw [ih hframes hnodup.2 (fresh_insert hnodup.1 hfresh _) h, getElem?_insert_of]
      split_ifs with hkey
      · subst hkey
        rw [hfresh object mem_cons_self]
        obtain ⟨_, _⟩ := object
        simp [eq_comm]
      · have hne : (id, record) ≠ object := fun heq => hkey (by rw [← heq])
        simp [hne]

/-- With new objects in the overlay, exactly these become visible. -/
theorem visible_install [Key P] {e : LiveEngine P} {objects : List (Digest × ObjectRecord Digest)}
    {overlay : FMap Digest (Bytes × ObjectRecord Digest)}
    (hoverlay : ∀ (id : Digest) record, (overlay[id]?).map Prod.snd = some record ↔
      (e.pendingObjects[id]?).map Prod.snd = some record ∨ (id, record) ∈ objects)
    (hfresh : ∀ object ∈ objects, e.visible object.1 = none) (id : Digest)
    (record : ObjectRecord Digest) :
    ((overlay[id]?).map Prod.snd).or e.arena[id]? = some record ↔
      e.visible id = some record ∨ (id, record) ∈ objects := by
  unfold visible
  rw [or_eq_some_iff, or_eq_some_iff, hoverlay]
  have hnone : e.arena[id]? = some record → ((overlay[id]?).map Prod.snd = none ↔
      (e.pendingObjects[id]?).map Prod.snd = none) := by
    intro harena
    rw [eq_none_iff_forall_ne_some, eq_none_iff_forall_ne_some]
    refine forall_congr' fun other => not_congr ?_
    rw [hoverlay, or_iff_left_iff_imp]
    intro hmem
    have hvisible := hfresh _ hmem
    unfold visible at hvisible
    rw [or_eq_none_iff, harena] at hvisible
    cases hvisible.2
  constructor
  · rintro ((hpending | hmem) | ⟨hempty, harena⟩)
    · exact .inl (.inl hpending)
    · exact .inr hmem
    · exact .inl (.inr ⟨(hnone harena).1 hempty, harena⟩)
  · rintro ((hpending | ⟨hempty, harena⟩) | hmem)
    · exact .inl (.inl hpending)
    · exact .inr ⟨(hnone harena).2 hempty, harena⟩
    · exact .inl (.inr hmem)

end LiveEngine

/-! ## Closures -/

variable {source : ObjectSource Digest} {root : Digest}

theorem validateIncrementalClosure_ok {validated reachable : FSet Digest}
    (h : validateIncrementalClosure source validated root = .ok reachable) :
    (∃ record, source.object root = some record ∧ record.kind = .commit) ∧
      Grounded (cut (fun id => decide (id ∈ validated)) (owned source.object)) root ∧
      ∀ id, id ∈ reachable ↔
        Reaches (cut (fun id => decide (id ∈ validated)) (owned source.object)) root id := by
  simp only [validateIncrementalClosure, bind_eq_ok, okOr_eq_ok, require_eq_ok] at h
  obtain ⟨record, hrecord, _, hkind, h⟩ := h
  split at h
  next walk hwalk =>
    cases h
    obtain ⟨hgrounded, hentered, _⟩ := FiniteGraph.walk_sound hwalk
    exact ⟨⟨record, hrecord, hkind⟩, hgrounded, hentered⟩
  next => cases h
  next => cases h

/-- Validation succeeds on every commit that is grounded up to the validated objects. -/
theorem validateIncrementalClosure_of_grounded {validated : FSet Digest}
    {record : ObjectRecord Digest} (hrecord : source.object root = some record)
    (hkind : record.kind = .commit)
    (h : Grounded (cut (fun id => decide (id ∈ validated)) (owned source.object)) root) :
    ∃ reachable, validateIncrementalClosure source validated root = .ok reachable := by
  obtain ⟨walk, hwalk⟩ := FiniteGraph.walk_complete (g := source.graph) h
  refine ⟨walk.entered, ?_⟩
  simp only [validateIncrementalClosure, bind_eq_ok, okOr_eq_ok, require_eq_ok]
  refine ⟨record, hrecord, (), hkind, ?_⟩
  rw [hwalk]
  rfl

/-- What a process has validated: closed under owning references, every closure complete. -/
structure ValidatedIn (source : ObjectSource Digest) (validated : FSet Digest) : Prop where
  closed : ∀ id ∈ validated, ∀ child, Edge (owned source.object) id child → child ∈ validated
  complete : ∀ id ∈ validated, ∃ ids, closureWith source id = .ok ids

section

variable {validated reachable : FSet Digest} (hvalidated : ValidatedIn source validated)
  (h : validateIncrementalClosure source validated root = .ok reachable)

include hvalidated h

theorem ValidatedIn.grounded {id : Digest} (hid : id ∈ validated ∨ id ∈ reachable) :
    Grounded (owned source.object) id := by
  obtain ⟨-, hgrounded, hreaches⟩ := validateIncrementalClosure_ok h
  have hknown : ∀ id, decide (id ∈ validated) = true → Grounded (owned source.object) id := by
    intro id hid
    obtain ⟨_, hids⟩ := hvalidated.complete id (of_decide_eq_true hid)
    exact (closureWith_ok hids).1
  obtain hin | hin := hid
  · exact hknown id (decide_eq_true hin)
  · exact (hgrounded.reaches ((hreaches id).1 hin)).of_cut hknown

theorem ValidatedIn.extend : ValidatedIn source (validated ∪ reachable) := by
  refine ⟨fun id hid child hedge => ExtTreeSet.mem_union_iff.2 ?_, fun id hid =>
    closureWith_of_grounded (hvalidated.grounded h (ExtTreeSet.mem_union_iff.1 hid))⟩
  by_cases hin : id ∈ validated
  · exact .inl (hvalidated.closed id hin child hedge)
  -- not yet validated, so the walk went on to the child
  obtain ⟨-, -, hreaches⟩ := validateIncrementalClosure_ok h
  have hreach := (hreaches id).1 ((ExtTreeSet.mem_union_iff.1 hid).resolve_left hin)
  obtain ⟨children, hchildren, hchild⟩ := hedge
  refine .inr ((hreaches child).2 (hreach.tail ⟨children, ?_, hchild⟩))
  exact (cut_unknown (by simpa using hin)).trans hchildren

end

/-- Traversals are exact: a closure is found just when it is complete and acyclic, errors are
real, and stopping at validated objects accepts the same commits. -/
theorem closure_exact (source : ObjectSource Digest) (root : Digest) :
    ((∃ ids, closureWith source root = .ok ids) ↔
      ∀ id, Reaches (owned source.object) root id → source.object id ≠ none ∧
        ¬ Relation.TransGen (Edge (owned source.object)) id id) ∧
    (∀ ids, closureWith source root = .ok ids →
      ∀ id, id ∈ ids ↔ Reaches (owned source.object) root id) ∧
    (∀ id, closureWith source root = .error (.objectCycle id) →
      Reaches (owned source.object) root id ∧
        Relation.TransGen (Edge (owned source.object)) id id) ∧
    (∀ id, closureWith source root = .error (.missingObject id) →
      Reaches (owned source.object) root id ∧ source.object id = none) ∧
    ∀ validated, ValidatedIn source validated →
      ((∃ reachable, validateIncrementalClosure source validated root = .ok reachable) ↔
        (∃ record, source.object root = some record ∧ record.kind = .commit) ∧
          ∃ ids, closureWith source root = .ok ids) ∧
      ∀ reachable, validateIncrementalClosure source validated root = .ok reachable →
        ValidatedIn source (validated ∪ reachable) := by
  refine ⟨⟨?_, fun hall => ?_⟩, fun ids h => (closureWith_ok h).2, fun id h => ?_, fun id h => ?_,
    fun validated hvalidated => ⟨⟨fun ⟨reachable, h⟩ => ?_, ?_⟩,
      fun reachable h => hvalidated.extend h⟩⟩
  · rintro ⟨ids, h⟩ id hreach
    have hgrounded := (closureWith_ok h).1
    obtain ⟨_, hchildren⟩ := hgrounded.complete hreach
    refine ⟨fun hnone => ?_, hgrounded.acyclic hreach⟩
    rw [owned, hnone] at hchildren
    cases hchildren
  · obtain h | ⟨id, -, hreach, hnone⟩ | ⟨id, -, hreach, hcycle⟩ := closureWith_cases source root
    · exact h
    · exact absurd hnone (hall id hreach).1
    · exact absurd hcycle (hall id hreach).2
  · obtain ⟨ids, h'⟩ | ⟨id', h', -⟩ | ⟨id', h', hreal⟩ := closureWith_cases source root <;>
      rw [h'] at h <;> cases h
    exact hreal
  · obtain ⟨ids, h'⟩ | ⟨id', h', hreal⟩ | ⟨id', h', -⟩ := closureWith_cases source root <;>
      rw [h'] at h <;> cases h
    exact hreal
  · obtain ⟨hcommit, -, hreaches⟩ := validateIncrementalClosure_ok h
    have hroot := hvalidated.grounded h (.inr ((hreaches root).2 .refl))
    exact ⟨hcommit, closureWith_of_grounded hroot⟩
  · rintro ⟨⟨record, hrecord, hkind⟩, ids, h⟩
    exact validateIncrementalClosure_of_grounded hrecord hkind (closureWith_ok h).1.to_cut

/-! ## Publishing -/

/-- A transaction as published: its WAL records, its new objects and its root. -/
structure Recorded (P : Type) where
  pending : PendingBuilding
  objects : List (Digest × ObjectRecord Digest)
  root : PendingWalRoot P

def Recorded.transition (env : WalEnv P) (r : Recorded P) : WalRootTransition :=
  ⟨env.encodePrincipal r.root.principal, r.root.expected, r.root.replacement⟩

/-- One publication, as the overlay and the WAL show it. -/
structure Published [Key P] (env : WalEnv P) (e e' : LiveEngine P) (r : Recorded P) : Prop where
  written : Written env e.wal e'.wal (r.transition env) r.objects r.pending
  nodup : (r.objects.map Prod.fst).Nodup
  visible : ∀ id record, e'.visible id = some record ↔
    e.visible id = some record ∨ (id, record) ∈ r.objects
  fresh : ∀ object ∈ r.objects, e.visible object.1 = none
  grounded : Grounded (owned e'.visible) r.root.replacement.commit
  commit : ∃ record, e'.visible r.root.replacement.commit = some record ∧ record.kind = .commit
  expected : e.rootsByPrincipal[r.root.principal]? = r.root.expected
  generation : rootGenerationValid r.root.expected r.root.replacement = true
  roots : e'.rootsByPrincipal = e.rootsByPrincipal.insert r.root.principal r.root.replacement
  pendingRoots : e'.pendingRoots = e.pendingRoots ++ [r.root]
  journal : encodeRootRecord env.scheme (env.encodePrincipal r.root.principal) r.root.expected
    r.root.replacement = some r.root.journal
  journal_fits : r.root.journal.length < wordLimit

/-- What holds of a live engine between publications. -/
structure Live [Key P] (env : WalEnv P) (e : LiveEngine P) : Prop where
  follows : Follows env e.wal
  inactive : e.wal.writer.active = none
  grounded : ∀ id ∈ e.validated, Grounded (owned e.visible) id

theorem rootGenerationValid_of_next {expected : Option (RootState Digest)}
    {generation : RootGeneration} (h : LiveEngine.nextGeneration expected = some generation)
    (commit : Digest) : rootGenerationValid expected ⟨generation, commit⟩ = true := by
  unfold rootGenerationValid
  cases expected with
  | none =>
    cases h
    exact decide_eq_true rfl
  | some => exact decide_eq_true h

theorem owned_mono {object object' : Digest → Option (ObjectRecord Digest)}
    (h : ∀ id record, object id = some record → object' id = some record) :
    ∀ id children, owned object id = some children → owned object' id = some children := by
  intro id children hchildren
  obtain ⟨record, hrecord, howned⟩ := map_eq_some_iff.1 hchildren
  unfold owned
  rw [h id record hrecord]
  exact congrArg some howned

/-- What a validated transaction reaches is grounded once its records are stored. -/
theorem grounded_of_validated {source stored stored' : Digest → Option (ObjectRecord Digest)}
    {known : Digest → Bool} {id : Digest}
    (hknown : ∀ id, known id = true → Grounded (owned stored) id)
    (hmono : ∀ id record, stored id = some record → stored' id = some record)
    (hreached : ∀ id record, Reaches (cut known (owned source)) root id →
      source id = some record → stored' id = some record)
    (h : Grounded (cut known (owned source)) root)
    (hid : Reaches (cut known (owned source)) root id) : Grounded (owned stored') id := by
  have hcut : Grounded (cut known (owned stored')) id := by
    refine (h.reaches hid).congr fun node hnode => ?_
    cases hnodeKnown : known node with
    | true => rw [cut_known hnodeKnown, cut_known hnodeKnown]
    | false =>
      obtain ⟨_, hchildren⟩ := (h.reaches hid).complete hnode
      rw [cut_unknown hnodeKnown] at hchildren
      rw [cut_unknown hnodeKnown, cut_unknown hnodeKnown, hchildren]
      obtain ⟨record, hrecord, howned⟩ := map_eq_some_iff.1 hchildren
      unfold owned
      rw [hreached node record (hid.trans hnode) hrecord]
      exact congrArg some howned
  exact hcut.of_cut fun node hnode => (hknown node hnode).mono (owned_mono hmono)

theorem publish_ok [Key P] (hlz4 : Lz4RoundTrip env) {e e' : LiveEngine P}
    {transaction : RootTransaction P} (h : Live env e)
    (hpublish : e.publish env transaction = .ok e') :
    ∃ r, Published env e e' r ∧ Live env e' ∧ r.root.principal = transaction.principal := by
  simp only [LiveEngine.publish, bind_eq_ok, mapError_eq_ok] at hpublish
  obtain ⟨_, hprepare, _, _, _, hwal, overlay, hoverlay, hout⟩ := hpublish
  simp only [LiveEngine.prepare, LiveEngine.ensurePayloadLimit, bind_eq_ok, okOr_eq_ok,
    require_eq_ok] at hprepare
  obtain ⟨_, hidentities, _, hexpected, generation, hgeneration, unique, hunique, _,
    hreachable, _, hframes, journal, hjournal, _, hlimit, hprepared⟩ := hprepare
  cases hprepared
  cases hout
  obtain ⟨⟨record, hrecord, hkind⟩, hgrounded, hreaches⟩ := validateIncrementalClosure_ok hreachable
  have hidentity : ∀ entry ∈ unique.toList, env.identify entry.2 = entry.1 := by
    intro entry hentry
    have hlookup : unique[entry.1]? = some entry.2 :=
      mem_toList_iff_getElem?_eq_some.1 hentry
    rcases (LiveEngine.uniqueTransactionRecords_iff hunique _ _).1 hlookup with hempty | hmem
    · cases hempty
    · exact LiveEngine.verifyDeclaredIdentities_eq_ok.1 hidentities entry hmem
  obtain ⟨objects, hsub, hforall, hfresh, hall⟩ := LiveEngine.prepareObjects_ok hidentity hframes
  have hnodup : (objects.map Prod.fst).Nodup := by
    refine (hsub.map Prod.fst).nodup ?_
    rw [map_fst_toList_eq_keys]
    exact nodup_keys
  have hpendingFresh : ∀ object ∈ objects, e.pendingObjects[object.1]? = none := by
    intro object hobject
    have hnone := hfresh object hobject
    unfold LiveEngine.visible at hnone
    rw [or_eq_none_iff, map_eq_none_iff] at hnone
    exact hnone.1
  obtain ⟨pending, hwritten⟩ := transaction_written hlz4 h.follows hforall hwal
  have hinstalled := LiveEngine.installOverlay_ok hforall hnodup hpendingFresh hoverlay
  -- Stored afterwards: what was stored, and the new objects.
  have hvisible : ∀ id record, ((overlay[id]?).map Prod.snd).or e.arena[id]? = some record ↔
        e.visible id = some record ∨ (id, record) ∈ objects :=
    LiveEngine.visible_install hinstalled hfresh
  have hstored : ∀ id record, Reaches (cut (fun id => decide (id ∈ e.validated))
        (owned (e.closureObjects unique).object)) transaction.commit id →
      (e.closureObjects unique).object id = some record →
      ((overlay[id]?).map Prod.snd).or e.arena[id]? = some record := by
    intro id record hid hobject
    rw [hvisible]
    rw [LiveEngine.closureObjects_object] at hobject
    rcases or_eq_some_iff.1 hobject with hunique' | ⟨_, hvis⟩
    · exact hall (id, record) (mem_toList_iff_getElem?_eq_some.2 hunique')
        ((hreaches id).2 hid)
    · exact .inl hvis
  have hmono : ∀ id record, e.visible id = some record →
      ((overlay[id]?).map Prod.snd).or e.arena[id]? = some record :=
    fun id record hvis => (hvisible id record).2 (.inl hvis)
  have hall' : ∀ id, Reaches (cut (fun id => decide (id ∈ e.validated))
      (owned (e.closureObjects unique).object)) transaction.commit id →
      Grounded (owned fun id => ((overlay[id]?).map Prod.snd).or e.arena[id]?) id :=
    fun id hid => grounded_of_validated (fun node hnode =>
      h.grounded node (of_decide_eq_true hnode))
      hmono hstored hgrounded hid
  refine ⟨⟨pending, objects, ⟨transaction.principal, transaction.expected,
    ⟨generation, transaction.commit⟩, journal⟩⟩, ⟨hwritten, hnodup, hvisible, hfresh, hall' _ .refl,
    ⟨record, hstored _ _ .refl hrecord, hkind⟩, hexpected, ?_, rfl, rfl, hjournal,
    Nat.lt_of_le_of_lt hlimit env.maxFrameBytes_lt⟩, ⟨hwritten.follows, hwritten.inactive, ?_⟩, rfl⟩
  · rw [hexpected] at hgeneration
    exact rootGenerationValid_of_next hgeneration _
  · intro id hid
    rcases ExtTreeSet.mem_union_iff.1 hid with hold | hnew
    · exact (h.grounded id hold).mono (owned_mono hmono)
    · exact hall' id ((hreaches id).1 hnew)

/-! ## Opening -/

variable {roots : List (P × RootState Digest × Nat)} {validated : FSet Digest}

/-- The recovered roots are commits with complete closures, which are what is validated. -/
theorem materializeRoots_spec :
    ∀ {validated}, LiveEngine.materializeRoots source roots = .ok validated →
      (∀ entry ∈ roots, Grounded (owned source.object) entry.2.1.commit ∧ ∃ record,
      source.object entry.2.1.commit = some record ∧ record.kind = .commit) ∧ ∀ id, id ∈ validated ↔
      ∃ entry ∈ roots, Reaches (owned source.object) entry.2.1.commit id := by
  induction roots with
  | nil =>
    intro validated h
    cases h
    simp
  | cons _ _ ih =>
    intro validated h
    simp only [LiveEngine.materializeRoots, bind_eq_ok, mapError_eq_ok, okOr_eq_ok,
      require_eq_ok] at h
    obtain ⟨_, hclosure, record, hrecord, _, hkind, _, hothers, hout⟩ := h
    cases hout
    obtain ⟨hgrounded, hreaches⟩ := closureWith_ok hclosure
    obtain ⟨hroots, hmem⟩ := ih hothers
    refine ⟨forall_mem_cons.2 ⟨⟨hgrounded, record, hrecord, hkind⟩, hroots⟩, fun id => ?_⟩
    rw [ExtTreeSet.mem_union_iff, hreaches, hmem, exists_mem_cons_iff]

theorem materializeRoots_validated (h : LiveEngine.materializeRoots source roots = .ok validated) :
    (∀ id ∈ validated, Grounded (owned source.object) id) ∧
      ∀ id ∈ validated, ∀ child, Edge (owned source.object) id child → child ∈ validated := by
  obtain ⟨hroots, hmem⟩ := materializeRoots_spec h
  refine ⟨fun id hid => ?_, fun id hid child hedge => ?_⟩
  · obtain ⟨entry, hentry, hreach⟩ := (hmem id).1 hid
    exact (hroots entry hentry).1.reaches hreach
  · obtain ⟨entry, hentry, hreach⟩ := (hmem id).1 hid
    exact (hmem child).2 ⟨entry, hentry, hreach.tail hedge⟩

end Astrid
