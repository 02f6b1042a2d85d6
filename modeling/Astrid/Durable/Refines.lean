import Astrid.Durable.Refold
import Astrid.Durable.Reference

/-!
# The durable engine against the in-memory one

Started empty, a durable engine has validated every object it stores, and its roots and
objects are those of a world (`referenceWorld`). Over such an engine a transaction is
accepted by both sides with the same outcome, or refused by both, except in two cases: the
durable engine accepts a transaction with a record outside the closure of its commit (or
one that collides there unseen), and it alone refuses frames above its limit. A run in
which neither happens is the in-memory run.
-/

namespace Astrid

open Std List ExtTreeMap Option

variable {P : Type} [Key P] {env : WalEnv P}

namespace LiveEngine

/-- The world with the roots and objects of a durable engine. -/
def referenceWorld (e : LiveEngine P) : World Digest P :=
  { (World.new : World Digest P) with objects := e.arena, roots := e.rootsByPrincipal }

/-- The records of a transaction all belong to the closure of its commit, and none differs
from the stored record of its identity. -/
structure Carries (e : LiveEngine P) (transaction : RootTransaction P) : Prop where
  owns : OwnsAll e.arena transaction
  agrees : ∀ entry ∈ transaction.records, ∀ record, e.arena[entry.1]? = some record →
    record = entry.2

/-- The frames of the new records and the root record are within the limit. -/
structure Fits (env : WalEnv P) (e : LiveEngine P) (transaction : RootTransaction P) : Prop where
  objects : ∀ entry ∈ transaction.records, e.arena[entry.1]? = none →
    ∃ payload, encodeObjectFrame env.scheme entry.1 entry.2 = some payload ∧
      payload.length ≤ env.maxFrameBytes
  journal : ∀ generation, nextGeneration transaction.expected = some generation →
    ∃ payload, encodeRootRecord env.scheme (env.encodePrincipal transaction.principal)
      transaction.expected ⟨generation, transaction.commit⟩ = some payload ∧
      payload.length ≤ env.maxFrameBytes

/-- A sound engine that has validated all it stores. -/
structure Mirrored (env : WalEnv P) (e : LiveEngine P) : Prop where
  sound : Sound env e
  validated : ∀ id ∈ e.arena, id ∈ e.validated

section Step

variable {e : LiveEngine P} {transaction : RootTransaction P} {prepared : Prepared P}
  {unique : FMap Digest (ObjectRecord Digest)}

/-- A prepared transaction without strange records is admissible, and it stores exactly its
new records. -/
theorem Carries.readied (h : Sound env e) (hcarries : e.Carries transaction)
    (hprepare : e.prepare env transaction = .ok prepared) :
    ∃ objects, Readied env e transaction prepared objects ∧
      Admissible env e.rootsByPrincipal e.arena transaction prepared.root.generation ∧
      (∀ id, id ∉ e.validated →
        Reaches (owned (carriedObject transaction.records e.arena)) transaction.commit id →
        id ∈ prepared.validated) := by
  obtain ⟨objects, hreadied⟩ := prepare_readied h hprepare
  simp only [prepare, ensurePayloadLimit, bind_eq_ok, okOr_eq_ok, require_eq_ok] at hprepare
  obtain ⟨_, hidentities, _, hexpected, generation, _, _, hunique, _, hreachable,
    _, _, _, _, _, _, hprepared⟩ := hprepare
  cases hprepared
  obtain ⟨hconsistent, hview⟩ := closureObjects_eq_carried h hunique
  obtain ⟨hcommit, hgrounded, hreaches⟩ := validateIncrementalClosure_ok hreachable
  rw [hview] at hcommit hgrounded hreaches
  have hcoherent : Coherent transaction.records e.arena := ⟨hconsistent, hcarries.agrees⟩
  obtain ⟨hknown, hclosed⟩ := h.carried hcoherent
  refine ⟨objects, hreadied, ⟨verifyDeclaredIdentities_eq_ok.1 hidentities, hexpected,
    hreadied.generation, hcoherent, hcommit,
    hgrounded.of_cut fun id hid => hknown id (of_decide_eq_true hid)⟩, ?_⟩
  intro id hid hreach
  exact (hreaches id).2 (hreach.to_cut hclosed (decide_eq_false hid))

variable {objects : List (Digest × ObjectRecord Digest)}

/-- The records the world stages are those of the prepared frames, as many of them. -/
theorem Readied.staged (hreadied : Readied env e transaction prepared objects)
    (hnew : ∀ entry ∈ transaction.records, e.arena[entry.1]? = none → entry ∈ objects)
    {staged : FMap Digest (ObjectRecord Digest)}
    (hstage : e.referenceWorld.stageImport transaction.records ∅ = .ok staged) :
    (∀ (id : Digest) record, staged[id]? = some record ↔ (id, record) ∈ objects) ∧
      staged.size = prepared.objects.length := by
  have hmem : ∀ (id : Digest) record, staged[id]? = some record ↔ (id, record) ∈ objects := by
    intro id record
    rw [(coherent_of_stageImport hstage).2.1]
    exact ⟨fun h => hnew (id, record) h.1 h.2,
      fun h => ⟨(hreadied.brought _ h).1, hreadied.fresh _ h⟩⟩
  have hnodup : (staged.toList.map Prod.fst).Nodup := by
    rw [map_fst_toList_eq_keys]
    exact nodup_keys
  have hperm : staged.toList.Perm objects := by
    refine (perm_ext_iff_of_nodup hnodup.of_map hreadied.nodup.of_map).2 ?_
    rintro ⟨id, record⟩
    rw [mem_toList_iff_getElem?_eq_some, hmem]
  refine ⟨hmem, ?_⟩
  rw [← ExtTreeMap.length_toList, hperm.length_eq, hreadied.frames.length_eq]

/-- A transaction whose new records are all stored by the durable engine is accepted by
the in-memory one, with the same outcome and the same state afterwards. -/
theorem commit_referenceWorld (hreadied : Readied env e transaction prepared objects)
    (hadmissible : Admissible env e.rootsByPrincipal e.arena transaction prepared.root.generation)
    (howns : OwnsAll e.arena transaction)
    (hnew : ∀ entry ∈ transaction.records, e.arena[entry.1]? = none → entry ∈ objects)
    (hcount : prepared.objects.length < wordLimit) :
    InMemoryEngine.commit env e.referenceWorld transaction =
      (.ok ⟨prepared.root, prepared.objects.length⟩,
        (e.publishGroup env [prepared]).referenceWorld) := by
  obtain ⟨staged, hstage⟩ : ∃ staged,
      e.referenceWorld.stageImport transaction.records ∅ = .ok staged :=
    stageImport_of hadmissible.coherent (by simp)
  have hstaged : ∀ (id : Digest) record, staged[id]? = some record ↔
      (id, record) ∈ transaction.records ∧ e.arena[id]? = none :=
    (coherent_of_stageImport hstage).2.1
  obtain ⟨hmem, hsize⟩ := hreadied.staged hnew hstage
  have hroot : prepared.root = ⟨prepared.root.generation, transaction.commit⟩ := by
    rw [← hreadied.commit]
  refine reference_commit_iff.2 ⟨prepared.root.generation, staged, hadmissible, howns, hstage,
    hsize ▸ hcount, by rw [hsize, ← hroot], ?_⟩
  have harena : (e.publishGroup env [prepared]).arena =
      e.arena.insertMany (World.takeStaged transaction.records staged) := by
    refine ext_getElem? fun id => ext fun record => ?_
    rw [World.getElem?_insertMany_takeStaged]
    · rw [hreadied.arena, or_eq_some_iff, hmem]
      constructor
      · rintro (hold | hnew)
        · refine .inr ⟨?_, hold⟩
          cases hentry : staged[id]? with
          | none => rfl
          | some record' =>
            rw [((hstaged id record').1 hentry).2] at hold
            cases hold
        · exact .inl hnew
      · exact fun h => h.elim .inr fun h => .inl h.2
    · intro id hid
      obtain ⟨record, hrecord⟩ := mem_iff_getElem?.1 hid
      exact mem_map.2 ⟨(id, record), ((hstaged id record).1 hrecord).1, rfl⟩
    · intro entry hentry hid
      obtain ⟨_, hrecord⟩ := mem_iff_getElem?.1 hid
      obtain ⟨hmember, _⟩ := (hstaged _ _).1 hrecord
      rw [hrecord]
      exact congrArg some (hadmissible.coherent.consistent _ hmember entry hentry rfl)
  have hroots : (e.publishGroup env [prepared]).rootsByPrincipal =
      e.rootsByPrincipal.insert transaction.principal
        ⟨prepared.root.generation, transaction.commit⟩ := by
    rw [← hroot, ← hreadied.principal]
    rfl
  unfold referenceWorld
  rw [harena, hroots]

/-- The durable engine takes what is admissible and fits. -/
theorem prepares_of_admissible {generation : RootGeneration}
    (h : Admissible env e.rootsByPrincipal e.arena transaction generation)
    (hfits : e.Fits env transaction) : e.Prepares env transaction generation := by
  refine ⟨h.identities, h.current, h.next, h.coherent.consistent, h.commit, h.grounded.to_cut,
    fun entry hentry _ => ?_, hfits.journal generation h.next⟩
  unfold Storable
  split
  next record hrecord => exact h.coherent.stored entry hentry record hrecord
  next hnone => exact hfits.objects entry hentry hnone

/-- The two ways in which the engines may part do not occur with this transaction: what the
durable engine would take has no strange record, and what the in-memory engine would take is
within the limits. -/
structure Conforms (env : WalEnv P) (e : LiveEngine P) (transaction : RootTransaction P) :
    Prop where
  carries : ∀ generation, e.Prepares env transaction generation → e.Carries transaction
  fits : ∀ generation, Admissible env e.rootsByPrincipal e.arena transaction generation →
    OwnsAll e.arena transaction → e.Fits env transaction

section

variable (h : Mirrored env e) (hreadied : Readied env e transaction prepared objects)

include h hreadied

/-- A new record that the commit owns is prepared. -/
theorem Mirrored.stores_new (howns : OwnsAll e.arena transaction)
    (hreached : ∀ id, id ∉ e.validated →
      Reaches (owned (carriedObject transaction.records e.arena)) transaction.commit id →
        id ∈ prepared.validated) :
    ∀ entry ∈ transaction.records, e.arena[entry.1]? = none → entry ∈ objects := by
  intro entry hentry hnone
  have hunknown : entry.1 ∉ e.validated := by
    intro hid
    obtain ⟨_, hrecord⟩ := h.sound.stored hid
    rw [hnone] at hrecord
    cases hrecord
  refine (hreadied.complete entry hentry (hreached _ hunknown (howns entry hentry))).resolve_left ?_
  rw [hnone]
  rintro ⟨⟩

theorem Mirrored.publish : Mirrored env (e.publishGroup env [prepared]) := by
  refine ⟨h.sound.publish hreadied, fun id hid => ExtTreeSet.mem_union_iff.2 ?_⟩
  obtain ⟨record, hrecord⟩ := mem_iff_getElem?.1 hid
  rcases (hreadied.arena id record).1 hrecord with hold | hnew
  · exact .inl (h.validated id (mem_iff_getElem?.2 ⟨record, hold⟩))
  · exact .inr (hreadied.brought _ hnew).2

end

/-- What the durable engine has prepared fits, if it has prepared all new records. -/
theorem fits_of_prepared (hreadied : Readied env e transaction prepared objects)
    (hnew : ∀ entry ∈ transaction.records, e.arena[entry.1]? = none → entry ∈ objects)
    (hprepare : e.prepare env transaction = .ok prepared) : e.Fits env transaction := by
  constructor
  · intro entry hentry hnone
    obtain ⟨frame, _, hkey, hframe⟩ :=
      exists_left_of_mem hreadied.frames entry (hnew entry hentry hnone)
    exact ⟨frame.2, hkey ▸ hframe.encoded, hframe.fits⟩
  · intro generation hgeneration
    simp only [prepare, ensurePayloadLimit, bind_eq_ok, okOr_eq_ok, require_eq_ok] at hprepare
    obtain ⟨_, _, _, hexpected, _, hgeneration', _, _, _, _, _, _, journal, hjournal, _,
      hlimit, _⟩ := hprepare
    rw [hexpected, hgeneration] at hgeneration'
    cases hgeneration'
    exact ⟨journal, hjournal, hlimit⟩

/-- A refused transaction leaves the world as it was. -/
theorem commit_error {w w' : World Digest P} {error : ModelError Digest}
    (h : InMemoryEngine.commit env w transaction = (.error error, w')) : w' = w := by
  have hworld : ∀ {error : ModelError Digest} {w'' : World Digest P},
      w.commitClosureOwned transaction.principal transaction.expected transaction.commit
        transaction.records = (.error error, w'') → w'' = w := by
    intro error w'' hcommit
    unfold World.commitClosureOwned at hcommit
    repeat' split at hcommit
    all_goals cases hcommit
    all_goals rfl
  unfold InMemoryEngine.commit at h
  split at h
  next =>
    cases h
    rfl
  next =>
    split at h
    next hcommit =>
      cases h
      exact hworld hcommit
    next => cases h

/-- Both counts of inserted objects are within those of the records. -/
theorem length_lt_of_brought {records entries : List (Digest × ObjectRecord Digest)}
    (hrecords : records.length < wordLimit) (hnodup : (entries.map Prod.fst).Nodup)
    (hbrought : ∀ entry ∈ entries, entry ∈ records) : entries.length < wordLimit :=
  (hnodup.of_map.subperm hbrought).length_le.trans_lt hrecords

/-- The in-memory engine accepts what is admissible and has no strange record. -/
theorem accepts_referenceWorld_iff (hrecords : transaction.records.length < wordLimit) :
    (∃ outcome w, InMemoryEngine.commit env e.referenceWorld transaction = (.ok outcome, w)) ↔
      OwnsAll e.arena transaction ∧
        ∃ generation, Admissible env e.rootsByPrincipal e.arena transaction generation := by
  constructor
  · rintro ⟨_, _, hcommit⟩
    obtain ⟨generation, _, hadmissible, howns, _⟩ := reference_commit_iff.1 hcommit
    exact ⟨howns, generation, hadmissible⟩
  · rintro ⟨howns, generation, hadmissible⟩
    obtain ⟨staged, hstage⟩ : ∃ staged,
        e.referenceWorld.stageImport transaction.records ∅ = .ok staged :=
      stageImport_of hadmissible.coherent (by simp)
    have hsize : staged.size < wordLimit := by
      rw [← ExtTreeMap.length_toList]
      refine length_lt_of_brought hrecords ?_ ?_
      · rw [map_fst_toList_eq_keys]
        exact nodup_keys
      · rintro ⟨id, record⟩ hentry
        have hrecord := mem_toList_iff_getElem?_eq_some.1 hentry
        exact (((coherent_of_stageImport hstage).2.1 id record).1 hrecord).1
    exact ⟨_, _, reference_commit_iff.2
      ⟨generation, staged, hadmissible, howns, hstage, hsize, rfl, rfl⟩⟩

section

variable (h : Mirrored env e) (hrecords : transaction.records.length < wordLimit)

include h hrecords

/-- A transaction that the durable engine takes, and what the reference makes of it. -/
theorem Mirrored.accepted (hprepare : e.prepare env transaction = .ok prepared) :
    e.processCommitBatch env [transaction] =
      ([.ok ⟨prepared.root, prepared.objects.length⟩], e.publishGroup env [prepared]) ∧
    Mirrored env (e.publishGroup env [prepared]) ∧
    (e.Carries transaction → e.Fits env transaction ∧
      InMemoryEngine.commit env e.referenceWorld transaction =
        (.ok ⟨prepared.root, prepared.objects.length⟩,
          (e.publishGroup env [prepared]).referenceWorld)) := by
  obtain ⟨_, hreadied⟩ := prepare_readied h.sound hprepare
  have hcount : prepared.objects.length < wordLimit := by
    rw [hreadied.frames.length_eq]
    exact length_lt_of_brought hrecords hreadied.nodup fun entry hentry =>
      (hreadied.brought entry hentry).1
  have hsingle := processCommitBatch_single h.sound transaction
  rw [hprepare] at hsingle
  refine ⟨hsingle.trans (if_pos hcount), h.publish hreadied, fun hcarries => ?_⟩
  obtain ⟨objects, hreadied, hadmissible, hreached⟩ := hcarries.readied h.sound hprepare
  have hnew := h.stores_new hreadied hcarries.owns hreached
  exact ⟨fits_of_prepared hreadied hnew hprepare,
    commit_referenceWorld hreadied hadmissible hcarries.owns hnew hcount⟩

/-- Over a mirrored engine a transaction conforms exactly when the outcomes match, and then
the engine mirrors the world again. -/
theorem Mirrored.step :
    ∃ outcome, (e.processCommitBatch env [transaction]).1 = [outcome] ∧
      (Matches outcome (InMemoryEngine.commit env e.referenceWorld transaction).1 ↔
        Conforms env e transaction) ∧
      (Matches outcome (InMemoryEngine.commit env e.referenceWorld transaction).1 →
        (InMemoryEngine.commit env e.referenceWorld transaction).2 =
          (e.processCommitBatch env [transaction]).2.referenceWorld ∧
        Mirrored env (e.processCommitBatch env [transaction]).2) := by
  have haccepts : _ ↔ OwnsAll e.arena transaction ∧
      ∃ generation, Admissible env e.rootsByPrincipal e.arena transaction generation :=
    accepts_referenceWorld_iff hrecords
  have hprepares : _ ↔ ∃ generation, e.Prepares env transaction generation :=
    prepare_isOk_iff h.sound
  cases hprepare : e.prepare env transaction with
  | error error =>
    have hsingle := processCommitBatch_single h.sound transaction
    rw [hprepare] at hsingle
    have hnever : ¬ ∃ generation, e.Prepares env transaction generation := by
      rw [← hprepares, hprepare]
      rintro ⟨_, ⟨⟩⟩
    rw [hsingle]
    refine ⟨.error error, rfl, ?_⟩
    cases hreference : InMemoryEngine.commit env e.referenceWorld transaction with
    | mk result w =>
    cases result with
    | error =>
      refine ⟨⟨fun _ => ⟨fun generation hp => absurd ⟨generation, hp⟩ hnever, ?_⟩,
        fun _ => trivial⟩, fun _ => ⟨commit_error hreference, h⟩⟩
      intro generation hadmissible howns
      obtain ⟨_, _, haccepted⟩ := haccepts.2 ⟨howns, generation, hadmissible⟩
      rw [hreference] at haccepted
      cases haccepted
    | ok outcome =>
      refine ⟨⟨False.elim, fun hconforms => hnever ?_⟩, False.elim⟩
      obtain ⟨howns, generation, hadmissible⟩ := haccepts.1 ⟨outcome, w, hreference⟩
      exact ⟨generation, prepares_of_admissible hadmissible
        (hconforms.fits generation hadmissible howns)⟩
  | ok prepared =>
    obtain ⟨hdurable, hmirrored, hsame⟩ := h.accepted hrecords hprepare
    obtain ⟨generation, hp⟩ := hprepares.1 ⟨prepared, hprepare⟩
    rw [hdurable]
    refine ⟨_, rfl, ?_⟩
    by_cases hcarries : e.Carries transaction
    · obtain ⟨hfits, hcommit⟩ := hsame hcarries
      rw [hcommit]
      exact ⟨⟨fun _ => ⟨fun _ _ => hcarries, fun _ _ _ => hfits⟩, fun _ => rfl⟩,
        fun _ => ⟨rfl, hmirrored⟩⟩
    · -- a strange record: the reference refuses
      have hrefused : ∀ outcome w,
          InMemoryEngine.commit env e.referenceWorld transaction ≠ (.ok outcome, w) := by
        intro outcome w hcommit
        obtain ⟨howns, _, hadmissible⟩ := haccepts.1 ⟨outcome, w, hcommit⟩
        exact hcarries ⟨howns, hadmissible.coherent.stored⟩
      cases hreference : InMemoryEngine.commit env e.referenceWorld transaction with
      | mk result w =>
      cases result with
      | error =>
        exact ⟨⟨False.elim, fun hconforms => hcarries (hconforms.carries generation hp)⟩,
          False.elim⟩
      | ok outcome => exact absurd hreference (hrefused outcome w)

end

end Step

/-! ## The run -/

/-- Every transaction of a run conforms where it is met. -/
def ConformsEach (env : WalEnv P) : LiveEngine P → List (RootTransaction P) → Prop
  | _, [] => True
  | e, transaction :: rest =>
    Conforms env e transaction ∧ ConformsEach env (e.processCommitBatch env [transaction]).2 rest

theorem Mirrored.run (transactions : List (RootTransaction P)) {e : LiveEngine P}
    (h : Mirrored env e)
    (hrecords : ∀ transaction ∈ transactions, transaction.records.length < wordLimit) :
    List.Forall₂ Matches (e.commitEach env transactions).1
      (InMemoryEngine.commitEach env e.referenceWorld transactions).1 ↔
        ConformsEach env e transactions := by
  induction transactions generalizing e with
  | nil => exact ⟨fun _ => trivial, fun _ => .nil⟩
  | cons transaction _ ih =>
    obtain ⟨hfirst, hrecords⟩ := forall_mem_cons.1 hrecords
    obtain ⟨_, houtcome, hiff, hnext⟩ := h.step hfirst
    simp only [LiveEngine.commitEach, InMemoryEngine.commitEach, houtcome, singleton_append,
      forall₂_cons, ConformsEach]
    -- the runs stay together as long as the outcomes match
    constructor
    · rintro ⟨hmatches, hrest⟩
      obtain ⟨hworld, hmirrored⟩ := hnext hmatches
      rw [hworld] at hrest
      exact ⟨hiff.1 hmatches, (ih hmirrored hrecords).1 hrest⟩
    · rintro ⟨hconforms, hrest⟩
      have hmatches := hiff.2 hconforms
      obtain ⟨hworld, hmirrored⟩ := hnext hmatches
      rw [hworld]
      exact ⟨hmatches, (ih hmirrored hrecords).2 hrest⟩

end LiveEngine

/-! ## Opened engines are sound -/

variable {arena : FMap Digest (ObjectRecord Digest)}

theorem openStore_sound {env : WalEnv P} {journal : List Bytes} {e : LiveEngine P}
    (hidentified : ∀ (id : Digest) record, arena[id]? = some record → env.identify record = id)
    (h : LiveEngine.openStore env arena journal = .ok e) : LiveEngine.Sound env e := by
  simp only [LiveEngine.openStore, bind_eq_ok] at h
  obtain ⟨_, _, _, hvalidated, hout⟩ := h
  cases hout
  obtain ⟨hgrounded, hclosed⟩ := materializeRoots_validated hvalidated
  exact ⟨rfl, hidentified, hgrounded, hclosed⟩

/-! ## A shared object -/

def sharedChunk : ObjectRecord Digest where
  kind := .chunk
  formatVersion := .v1
  canonicalBytes := [9]
  references := []
  logicalBytes := 1
  cls := .data
  labels := labelsIncrease_nil

/-- A commit that owns the shared chunk. -/
def sharingCommit (content : UInt8) : ObjectRecord Digest where
  kind := .commit
  formatVersion := .v1
  canonicalBytes := [content]
  references := [⟨[], WalEnv.byContent.identify sharedChunk, .owns⟩]
  logicalBytes := 1
  cls := .metadata
  labels := by decide

/-- The commit and its chunk. -/
def sharingSource : ObjectSource Digest :=
  .ofMap (((∅ : FMap _ _).insert (WalEnv.byContent.identify sharedChunk) sharedChunk).insert
    (WalEnv.byContent.identify (sharingCommit 1)) (sharingCommit 1))

theorem closure_exact_sharing : ∃ reachable, validateIncrementalClosure sharingSource
    ((∅ : FSet _).insert (WalEnv.byContent.identify sharedChunk))
      (WalEnv.byContent.identify (sharingCommit 1)) = .ok reachable := by
  have honly : ∀ id ∈ (∅ : FSet _).insert (WalEnv.byContent.identify sharedChunk),
      id = WalEnv.byContent.identify sharedChunk := by
    intro id hid
    exact ((mem_insert_set.1 hid).resolve_right ExtTreeSet.not_mem_empty).symm
  refine ((closure_exact sharingSource _).2.2.2.2 _ ⟨?_, ?_⟩).1.2 ⟨⟨_, rfl, rfl⟩, _, rfl⟩
  · intro id hid child hedge
    rw [honly id hid] at hedge
    obtain ⟨_, hchildren, hchild⟩ := hedge
    cases hchildren
    cases hchild
  · intro id hid
    rw [honly id hid]
    exact ⟨_, rfl⟩

/-- A first commit that owns the chunk, with or without the chunk's own record. -/
def sharingTransaction (principal content : UInt8) (brings : Bool) : RootTransaction UInt8 :=
  ⟨principal, none, WalEnv.byContent.identify (sharingCommit content),
    (WalEnv.byContent.identify (sharingCommit content), sharingCommit content) ::
      if brings then [(WalEnv.byContent.identify sharedChunk, sharedChunk)] else []⟩

/-- The engine over an empty store. -/
def freshEngine (P : Type) [Key P] : LiveEngine P := ⟨∅, [], ∅, ∅, ∅, [], .new⟩

theorem openStore_empty (env : WalEnv P) :
    LiveEngine.openStore env ∅ [] = .ok (freshEngine P) := by
  rfl

theorem freshEngine_sound (env : WalEnv P) : LiveEngine.Sound env (freshEngine P) :=
  openStore_sound (by simp) (openStore_empty env)

theorem freshEngine_mirrored (env : WalEnv P) : LiveEngine.Mirrored env (freshEngine P) :=
  ⟨freshEngine_sound env, fun _ h => absurd h not_mem_empty⟩

/-- Started empty, the durable engine does what the in-memory one does exactly when, where each
transaction is met, those the durable engine takes bring only records of their own closure that
collide with nothing stored, and those that are admissible with such records are within the
frame limits. -/
theorem reference_agrees_iff (env : WalEnv P) (transactions : List (RootTransaction P))
    (hrecords : ∀ transaction ∈ transactions, transaction.records.length < wordLimit) :
    List.Forall₂ Matches ((freshEngine P).commitEach env transactions).1
      (InMemoryEngine.commitEach env World.new transactions).1 ↔
        LiveEngine.ConformsEach env (freshEngine P) transactions :=
  LiveEngine.Mirrored.run transactions (freshEngine_mirrored env) hrecords

/-- Two first commits that share a chunk, the second one without the chunk's own record: both
engines do the same, so both transactions conform. -/
theorem reference_agrees_shared :
    LiveEngine.ConformsEach .byContent (freshEngine UInt8)
      [sharingTransaction 1 7 true, sharingTransaction 2 8 false] := by
  refine (reference_agrees_iff .byContent _ ?_).1 ?_
  · decide
  · have hdurable : ((freshEngine UInt8).commitEach .byContent
        [sharingTransaction 1 7 true, sharingTransaction 2 8 false]).1 =
          [.ok ⟨contentRoot .initial 7, 2⟩, .ok ⟨contentRoot .initial 8, 1⟩] := by
      decide +kernel
    have hreference : (InMemoryEngine.commitEach .byContent World.new
        [sharingTransaction 1 7 true, sharingTransaction 2 8 false]).1 =
          [.ok ⟨contentRoot .initial 7, 2⟩, .ok ⟨contentRoot .initial 8, 1⟩] := by
      decide +kernel
    rw [hdurable, hreference]
    exact .cons rfl (.cons rfl .nil)

/-- A first commit with a record that it does not own: the durable engine accepts it, the
in-memory engine refuses it. -/
theorem unowned_record_accepted :
    ((freshEngine UInt8).commitEach .byContent [⟨1, none,
      WalEnv.byContent.identify (contentCommit 7),
      [(WalEnv.byContent.identify (contentCommit 7), contentCommit 7),
        (WalEnv.byContent.identify sharedChunk, sharedChunk)]⟩]).1 =
          [.ok ⟨contentRoot .initial 7, 1⟩] ∧
    (InMemoryEngine.commitEach .byContent World.new [⟨1, none,
      WalEnv.byContent.identify (contentCommit 7),
      [(WalEnv.byContent.identify (contentCommit 7), contentCommit 7),
        (WalEnv.byContent.identify sharedChunk, sharedChunk)]⟩]).1 =
          [.error (.extraneousImportObject (WalEnv.byContent.identify sharedChunk))] := by
  decide +kernel

end Astrid
