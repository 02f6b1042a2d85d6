import Astrid.Model.World

/-!
# What every run of the world keeps

`World.Inv` bundles the invariants of the reference world: roots name commits,
roots and pins have a complete acyclic owning closure, representations name
objects and placements name blobs and epochs. Each operation gets one lemma
that says everything a successful call does, and each change that these lemmas
name gets one that says that it keeps the invariant.

The two lookups that matter for closures are shown to be one: what an import
validates (staged records in front of the resident ones) is what the world
holds afterwards.
-/

namespace Astrid

open Std List

namespace World

variable {Id P : Type} [Key Id] [Key P]

/-- The owning edges of the resident objects. -/
def edges (w : World Id P) : Id → Option (List Id) := owned w.source.object

/-- The invariant of the reference world. -/
structure Inv (w : World Id P) : Prop where
  rootCommit : ∀ (p : P) root, w.roots[p]? = some root →
    ∃ record, w.objects[root.commit]? = some record ∧ record.kind = .commit
  rootGrounded : ∀ (p : P) root, w.roots[p]? = some root → Grounded w.edges root.commit
  pinGrounded : ∀ (pin : Nat) id, w.pins[pin]? = some id → Grounded w.edges id
  represented : ∀ (blob : Id) id, w.representations[blob]? = some id → id ∈ w.objects
  placed : ∀ (entry : Nat × Id) nodes, w.placements[entry]? = some nodes →
    entry.2 ∈ w.representations ∧ entry.1 ∈ w.placementEpochs
  active : ∀ epoch, w.activePlacementEpoch = some epoch → epoch ∈ w.placementEpochs

theorem inv_new : (new : World Id P).Inv where
  rootCommit p root h := by simp [new] at h
  rootGrounded p root h := by simp [new] at h
  pinGrounded pin id h := by simp [new] at h
  represented blob id h := by simp [new] at h
  placed entry nodes h := by simp [new] at h
  active epoch h := by simp [new] at h

/-! ## Adding objects -/

/-- `objects'` keeps every record of `objects`. -/
def Extends (objects objects' : FMap Id (ObjectRecord Id)) : Prop :=
  ∀ (id : Id) record, objects[id]? = some record → objects'[id]? = some record

variable {objects : FMap Id (ObjectRecord Id)}

theorem owned_extends {objects' : FMap Id (ObjectRecord Id)} (h : Extends objects objects') :
    ∀ id s, owned (ObjectSource.ofMap objects).object id = some s →
      owned (ObjectSource.ofMap objects').object id = some s := by
  intro id s hs
  obtain ⟨record, hrecord, rfl⟩ := Option.map_eq_some_iff.1 hs
  exact Option.map_eq_some_iff.2 ⟨record, h id record hrecord, rfl⟩

variable {w : World Id P}

theorem Inv.extend (hw : w.Inv) (h : Extends w.objects objects) :
    ({ w with objects } : World Id P).Inv where
  __ := hw
  rootCommit p root hroot := by
    obtain ⟨record, hrecord, hkind⟩ := hw.rootCommit p root hroot
    exact ⟨record, h _ _ hrecord, hkind⟩
  rootGrounded p root hroot := (hw.rootGrounded p root hroot).mono (owned_extends h)
  pinGrounded pin id hpin := (hw.pinGrounded pin id hpin).mono (owned_extends h)
  represented blob id hblob := by
    obtain ⟨record, hrecord⟩ := mem_iff_getElem?.1 (hw.represented blob id hblob)
    exact mem_iff_getElem?.2 ⟨record, h _ _ hrecord⟩

variable {w' : World Id P} {id : Id} {record : ObjectRecord Id}

theorem insertObject_ok {outcome : InsertOutcome}
    (h : w.insertObject id record = (.ok outcome, w')) :
    w' = w ∨ (w.objects[id]? = none ∧ w' = { w with objects := w.objects.insert id record }) := by
  unfold insertObject at h
  split at h
  next existing hexisting =>
    split at h
    next => exact .inl (Prod.mk.inj h).2.symm
    next => cases h
  next hnone => exact .inr ⟨hnone, (Prod.mk.inj h).2.symm⟩

theorem extends_insert (h : objects[id]? = none) : Extends objects (objects.insert id record) := by
  intro a r hr
  rw [getElem?_insert_of, if_neg, hr]
  intro heq
  rw [heq, hr] at h
  cases h

/-! ## Imports -/

variable {records : List (Id × ObjectRecord Id)} {staged : FMap Id (ObjectRecord Id)}

/-- What staging leaves: fresh records from the list only, and for each record
of the list the lookup that answers it. -/
theorem stageImport_ok {staged' : FMap Id (ObjectRecord Id)}
    (h : w.stageImport records staged = .ok staged') :
    (∀ (id : Id) record, staged[id]? = some record → staged'[id]? = some record) ∧
    (∀ (id : Id) record, staged'[id]? = some record → staged[id]? = some record ∨
      (w.objects[id]? = none ∧ id ∈ records.map Prod.fst)) ∧
    (∀ entry ∈ records, (staged'[entry.1]?).or w.objects[entry.1]? = some entry.2) := by
  induction records generalizing staged with
  | nil =>
    cases h
    exact ⟨fun _ _ h => h, fun _ _ h => .inl h, by simp⟩
  | cons entry _ ih =>
    obtain ⟨id, _⟩ := entry
    unfold stageImport at h
    split at h
    next existing hexisting =>
      split at h
      next heq =>
        subst heq
        obtain ⟨hkeep, hfrom, hall⟩ := ih h
        refine ⟨hkeep, fun a r hr => ?_, fun e he => ?_⟩
        · rcases hfrom a r hr with h | ⟨h, hmem⟩
          · exact .inl h
          · exact .inr ⟨h, mem_cons_of_mem _ hmem⟩
        · rcases mem_cons.1 he with rfl | he
          · rcases Option.or_eq_some_iff.1 hexisting with h | ⟨hnone, h⟩
            · exact Option.or_eq_some_iff.2 (.inl (hkeep _ _ h))
            · -- resident, so it was not staged later either
              refine Option.or_eq_some_iff.2 (.inr ⟨?_, h⟩)
              cases hs : staged'[id]? with
              | none => rfl
              | some r =>
                rcases hfrom id r hs with h' | ⟨h', _⟩
                · rw [hnone] at h'; cases h'
                · rw [h] at h'; cases h'
          · exact hall e he
      next => cases h
    next hnone =>
      obtain ⟨hstaged, hobjects⟩ := Option.or_eq_none_iff.1 hnone
      obtain ⟨hkeep, hfrom, hall⟩ := ih h
      refine ⟨fun a r hr => hkeep a r ?_, fun a r hr => ?_, fun e he => ?_⟩
      · rw [getElem?_insert_of, if_neg, hr]
        intro heq
        rw [heq, hr] at hstaged
        cases hstaged
      · rcases hfrom a r hr with h | ⟨h, hmem⟩
        · rw [getElem?_insert_of] at h
          split at h
          next heq =>
            rw [← heq]
            exact .inr ⟨hobjects, mem_cons_self⟩
          next => exact .inl h
        · exact .inr ⟨h, mem_cons_of_mem _ hmem⟩
      · rcases mem_cons.1 he with rfl | he
        · refine Option.or_eq_some_iff.2 (.inl (hkeep _ _ ?_))
          rw [getElem?_insert_of, if_pos rfl]
        · exact hall e he

variable {root : Id}

/-- A classified import: the staged records are fresh, come from the list and
answer it together with the resident ones, and the root is closed in both. -/
theorem classifyImport_ok (h : w.classifyImport records root = .ok staged) :
    (∀ (id : Id) record, staged[id]? = some record →
      w.objects[id]? = none ∧ id ∈ records.map Prod.fst) ∧
    (∀ entry ∈ records, (staged[entry.1]?).or w.objects[entry.1]? = some entry.2) ∧
    Grounded (owned ((ObjectSource.ofMap staged).orElse w.source).object) root := by
  unfold classifyImport at h
  split at h
  · cases h
  rename_i staged' hstage
  split at h
  · cases h
  rename_i closure hclosure
  split at h
  · cases h
  cases h
  obtain ⟨_, hfrom, hall⟩ := stageImport_ok hstage
  refine ⟨fun id record hr => ?_, hall, (closureWith_ok hclosure).1⟩
  exact (hfrom id record hr).resolve_left (by simp)

/-- Resident records are not staged, so adding the staged ones keeps them. -/
theorem extends_of_staged
    (hfresh : ∀ (id : Id) record, staged[id]? = some record → w.objects[id]? = none)
    (hobjects : ∀ id : Id, objects[id]? = (staged[id]?).or w.objects[id]?) :
    Extends w.objects objects := by
  intro id record hr
  rw [hobjects]
  refine Option.or_eq_some_iff.2 (.inr ⟨?_, hr⟩)
  cases hs : staged[id]? with
  | none => rfl
  | some r =>
    rw [hfresh id r hs] at hr
    cases hr

/-- The closure an import validated is the closure in the extended objects. -/
theorem grounded_of_staged (hobjects : ∀ id : Id, objects[id]? = (staged[id]?).or w.objects[id]?)
    (h : Grounded (owned ((ObjectSource.ofMap staged).orElse w.source).object) root) :
    Grounded (owned (ObjectSource.ofMap objects).object) root := by
  refine h.congr fun id _ => ?_
  show (objects[id]?).map _ = ((staged[id]?).or w.objects[id]?).map _
  rw [hobjects]

variable {inserted : Nat}

theorem importClosure_ok (h : w.importClosure records root = (.ok inserted, w')) :
    ∃ objects, Extends w.objects objects ∧ w' = { w with objects } := by
  unfold importClosure at h
  split at h
  · cases h
  rename_i staged hstaged
  split at h
  next =>
    obtain ⟨hfresh, _, _⟩ := classifyImport_ok hstaged
    refine ⟨_, ?_, (Prod.mk.inj h).2.symm⟩
    exact extends_of_staged (fun id r hr => (hfresh id r hr).1)
      fun id => ExtTreeMap.getElem?_union
  next => cases h

/-! ## Owned commits -/

theorem incomingRoot_ok {start incoming : Option (ObjectRecord Id)}
    (h : incomingRoot root records start = .ok incoming) :
    (∀ record, incoming = some record → start = some record ∨ (root, record) ∈ records) ∧
    (incoming = none → start = none ∧ root ∉ records.map Prod.fst) := by
  induction records generalizing start with
  | nil =>
    cases h
    exact ⟨fun _ h => .inl h, fun h => ⟨h, by simp⟩⟩
  | cons entry _ ih =>
    obtain ⟨id, _⟩ := entry
    unfold incomingRoot at h
    split at h
    next hne =>
      obtain ⟨hsome, hnone⟩ := ih h
      refine ⟨fun r hr => (hsome r hr).imp_right (mem_cons_of_mem _), fun hn => ?_⟩
      obtain ⟨hstart, hrest⟩ := hnone hn
      refine ⟨hstart, ?_⟩
      rw [map_cons, mem_cons, not_or]
      exact ⟨fun heq => hne heq.symm, hrest⟩
    next heq =>
      have heq : id = root := not_not.1 heq
      split at h
      · cases h
      obtain ⟨hsome, hnone⟩ := ih h
      refine ⟨fun r hr => .inr ?_, fun hn => ?_⟩
      · rcases hsome r hr with hr | hr
        · cases hr
          rw [heq]
          exact mem_cons_self
        · exact mem_cons_of_mem _ hr
      · cases (hnone hn).1

theorem validateTransactionRoot_ok (h : w.validateTransactionRoot records root = .ok ()) :
    ∃ record, ((root, record) ∈ records ∨
      (root ∉ records.map Prod.fst ∧ w.objects[root]? = some record)) ∧
      record.kind = .commit := by
  unfold validateTransactionRoot at h
  split at h
  · cases h
  rename_i incoming hincoming
  obtain ⟨hsome, hnone⟩ := incomingRoot_ok hincoming
  split at h
  · cases h
  rename_i record hrecord
  split at h
  · cases h
  rename_i hkind
  refine ⟨record, ?_, not_not.1 hkind⟩
  rcases Option.or_eq_some_iff.1 hrecord with hr | ⟨hn, hr⟩
  · exact .inl ((hsome record hr).resolve_left (by simp))
  · exact .inr ⟨(hnone hn).2, hr⟩

/-- Moving the staged records out of the list is adding the staged map. -/
theorem getElem?_insertMany_takeStaged :
    ∀ {staged objects : FMap Id (ObjectRecord Id)},
      (∀ id : Id, id ∈ staged → id ∈ records.map Prod.fst) →
      (∀ entry ∈ records, entry.1 ∈ staged → staged[entry.1]? = some entry.2) →
      ∀ id : Id, (objects.insertMany (takeStaged records staged))[id]? =
        (staged[id]?).or objects[id]? := by
  induction records with
  | nil =>
    intro staged objects hfrom _ id
    have hnone : staged[id]? = none := getElem?_eq_none_of_not_mem fun h => by
      simpa using hfrom id h
    rw [hnone]
    simp [takeStaged]
  | cons entry _ ih =>
    obtain ⟨k, record⟩ := entry
    intro staged objects hfrom hsame id
    unfold takeStaged
    split
    next hk =>
      have hrecord : staged[k]? = some record := hsame (k, record) mem_cons_self hk
      rw [ExtTreeMap.insertMany_cons, ih, getElem?_erase_of, getElem?_insert_of]
      · split
        next heq =>
          rw [← heq, hrecord]
          rfl
        next => rfl
      · intro a ha
        rw [ExtTreeMap.mem_erase] at ha
        have hmem := hfrom a ha.2
        rw [map_cons, mem_cons] at hmem
        refine hmem.resolve_left fun heq => ha.1 ?_
        rw [heq]
        exact ReflCmp.compare_self
      · intro e he hmem
        rw [ExtTreeMap.mem_erase] at hmem
        rw [getElem?_erase_of, if_neg (fun heq => hmem.1 (by rw [heq]; exact ReflCmp.compare_self))]
        exact hsame e (mem_cons_of_mem _ he) hmem.2
    next hk =>
      refine ih (fun a ha => ?_) (fun e he hmem => hsame e (mem_cons_of_mem _ he) hmem) id
      have hmem := hfrom a ha
      rw [map_cons, mem_cons] at hmem
      refine hmem.resolve_left fun heq => hk ?_
      rwa [heq] at ha

omit [Key Id] in
theorem nextGeneration_ok {actual : Option (RootState Id)} {generation : RootGeneration}
    (h : nextGeneration actual = .ok generation) :
    generation.toNat = actual.elim 0 fun root => root.generation.toNat + 1 := by
  cases actual with
  | none =>
    cases h
    rfl
  | some =>
    simp only [nextGeneration] at h
    split at h
    next next hnext =>
      cases h
      exact RootGeneration.checkedNext_toNat hnext
    next => cases h

variable {principal : P} {expected : Option (RootState Id)} {commit : Id}

theorem compareAndSwapRoot_ok {next : RootState Id}
    (h : w.compareAndSwapRoot principal expected commit = (.ok next, w')) :
    (∃ record, w.objects[commit]? = some record ∧ record.kind = .commit) ∧
    Grounded w.edges commit ∧ next.commit = commit ∧
    next.generation.toNat = (w.roots[principal]?).elim 0 (fun root => root.generation.toNat + 1) ∧
    w' = { w with roots := w.roots.insert principal next } := by
  unfold compareAndSwapRoot at h
  split at h
  · cases h
  split at h
  · cases h
  rename_i record hrecord
  split at h
  · cases h
  rename_i hkind
  split at h
  · cases h
  rename_i ids hclosure
  split at h
  · cases h
  rename_i generation hgeneration
  cases h
  exact ⟨⟨record, hrecord, not_not.1 hkind⟩, (closureWith_ok hclosure).1, rfl,
    nextGeneration_ok hgeneration, rfl⟩

/-- An owned commit publishes a closed commit over the extended objects. -/
theorem commitClosureOwned_ok {root : RootState Id}
    (h : w.commitClosureOwned principal expected commit records = (.ok (root, inserted), w')) :
    ∃ objects, Extends w.objects objects ∧
    (∃ record, objects[commit]? = some record ∧ record.kind = .commit) ∧
    Grounded (owned (ObjectSource.ofMap objects).object) commit ∧ root.commit = commit ∧
    root.generation.toNat = (w.roots[principal]?).elim 0 (fun root => root.generation.toNat + 1) ∧
    w' = { w with objects, roots := w.roots.insert principal root } := by
  unfold commitClosureOwned at h
  split at h
  · cases h
  split at h
  · cases h
  rename_i generation hgeneration
  split at h
  · cases h
  rename_i hroot
  split at h
  · cases h
  rename_i staged hstaged
  split at h
  next =>
    cases h
    obtain ⟨hfresh, hall, hgrounded⟩ := classifyImport_ok hstaged
    have hobjects : ∀ id : Id, (w.objects.insertMany (takeStaged records staged))[id]? =
        (staged[id]?).or w.objects[id]? := by
      refine getElem?_insertMany_takeStaged (fun id hid => ?_) (fun e he hmem => ?_)
      · obtain ⟨r, hr⟩ := mem_iff_getElem?.1 hid
        exact (hfresh id r hr).2
      · obtain ⟨r, hr⟩ := mem_iff_getElem?.1 hmem
        have hlook := hall e he
        rw [hr] at hlook ⊢
        exact hlook
    refine ⟨_, extends_of_staged (fun id r hr => (hfresh id r hr).1) hobjects, ?_,
      grounded_of_staged hobjects hgrounded, rfl, nextGeneration_ok hgeneration, rfl⟩
    obtain ⟨record, hrecord, hkind⟩ := validateTransactionRoot_ok hroot
    refine ⟨record, ?_, hkind⟩
    rw [hobjects]
    rcases hrecord with hmem | ⟨hnone, hrecord⟩
    · exact hall _ hmem
    -- no incoming record: the root is resident and nothing is staged for it
    refine Option.or_eq_some_iff.2 (.inr ⟨?_, hrecord⟩)
    cases hs : staged[commit]? with
    | none => rfl
    | some r => exact absurd (hfresh commit r hs).2 hnone
  next => cases h

theorem Inv.setRoot {root : RootState Id} (hw : w.Inv)
    (hcommit : ∃ record, w.objects[root.commit]? = some record ∧ record.kind = .commit)
    (hgrounded : Grounded w.edges root.commit) :
    ({ w with roots := w.roots.insert principal root } : World Id P).Inv where
  __ := hw
  rootCommit := forall_insert hcommit hw.rootCommit
  rootGrounded := forall_insert hgrounded hw.rootGrounded

theorem Inv.removeRoot (hw : w.Inv) :
    ({ w with roots := w.roots.erase principal } : World Id P).Inv where
  __ := hw
  rootCommit p r hr := hw.rootCommit p r (getElem?_of_erase hr)
  rootGrounded p r hr := hw.rootGrounded p r (getElem?_of_erase hr)

/-! ## Representations and pins -/

variable {object blob : Id}

theorem registerRepresentation_ok {outcome : RepresentationOutcome}
    (h : w.registerRepresentation object blob = (.ok outcome, w')) :
    object ∈ w.objects ∧ (w' = w ∨
      w' = { w with representations := w.representations.insert blob object }) := by
  unfold registerRepresentation at h
  split at h
  · cases h
  rename_i hobject
  refine ⟨not_not.1 hobject, ?_⟩
  split at h
  next =>
    split at h
    next => exact .inl (Prod.mk.inj h).2.symm
    next => cases h
  next => exact .inr (Prod.mk.inj h).2.symm

theorem Inv.register (hw : w.Inv) (hobject : object ∈ w.objects) :
    ({ w with representations := w.representations.insert blob object } : World Id P).Inv where
  __ := hw
  represented := forall_insert hobject hw.represented
  placed entry nodes he := by
    obtain ⟨hblob, hepoch⟩ := hw.placed entry nodes he
    exact ⟨ExtTreeMap.mem_insert.2 (.inr hblob), hepoch⟩

variable {k : Nat} {u : Unit}

theorem pin_ok (h : w.pin k root = (.ok u, w')) :
    Grounded w.edges root ∧ w' = { w with pins := w.pins.insert k root } := by
  unfold pin at h
  split at h
  · cases h
  rename_i ids hclosure
  split at h
  next => cases h
  next => exact ⟨(closureWith_ok hclosure).1, (Prod.mk.inj h).2.symm⟩

theorem Inv.insertPin (hw : w.Inv) (hgrounded : Grounded w.edges root) :
    ({ w with pins := w.pins.insert k root } : World Id P).Inv where
  __ := hw
  pinGrounded := forall_insert hgrounded hw.pinGrounded

theorem Inv.erasePin (hw : w.Inv) :
    ({ w with pins := w.pins.erase k } : World Id P).Inv where
  __ := hw
  pinGrounded pin id hpin := hw.pinGrounded pin id (getElem?_of_erase hpin)

/-! ## Collection -/

theorem extendLive_ok {anchors : List Id} {live live' : FSet Id}
    (h : w.extendLive anchors live = .ok live') :
    ∀ id, id ∈ live' ↔ id ∈ live ∨ ∃ root ∈ anchors, Reaches w.edges root id := by
  induction anchors generalizing live live' with
  | nil =>
    cases h
    simp
  | cons root rest ih =>
    intro id
    unfold extendLive at h
    split at h
    · cases h
    rename_i ids hclosure
    have hreach : id ∈ ids ↔ Reaches w.edges root id := (closureWith_ok hclosure).2 id
    rw [ih h id, ExtTreeSet.mem_union_iff, hreach, or_assoc]
    simp

theorem mem_anchors :
    id ∈ w.anchors ↔ (∃ (p : P) (root : RootState Id),
      w.roots[p]? = some root ∧ root.commit = id) ∨ ∃ pin : Nat, w.pins[pin]? = some id := by
  unfold anchors
  rw [mem_append, mem_map, mem_map]
  refine or_congr ⟨?_, ?_⟩ ⟨?_, ?_⟩
  · intro ⟨⟨p, root⟩, hmem, hid⟩
    exact ⟨p, root, ExtTreeMap.mem_toList_iff_getElem?_eq_some.1 hmem, hid⟩
  · intro ⟨p, root, hroot, hid⟩
    exact ⟨(p, root), ExtTreeMap.mem_toList_iff_getElem?_eq_some.2 hroot, hid⟩
  · intro ⟨⟨pin, root⟩, hmem, hid⟩
    exact ⟨pin, hid ▸ ExtTreeMap.mem_toList_iff_getElem?_eq_some.1 hmem⟩
  · intro ⟨pin, hpin⟩
    exact ⟨(pin, id), ExtTreeMap.mem_toList_iff_getElem?_eq_some.2 hpin, rfl⟩

variable {live : FSet Id}

/-- The live objects are those reachable from a root or a pin. -/
theorem liveObjects_ok (h : w.liveObjects = .ok live) :
    ∀ id, id ∈ live ↔ ∃ root ∈ w.anchors, Reaches w.edges root id := by
  intro id
  rw [extendLive_ok h id]
  simp

theorem collectGarbage_ok {report : GcReport} (h : w.collectGarbage = (.ok report, w')) :
    ∃ live, w.liveObjects = .ok live ∧ w' = w.sweep live := by
  unfold collectGarbage at h
  split at h
  · cases h
  rename_i live hlive
  split at h
  next => cases h
  next => exact ⟨live, hlive, (Prod.mk.inj h).2.symm⟩

theorem sweep_objects (w : World Id P) (live : FSet Id) (id : Id) :
    (w.sweep live).objects[id]? = (w.objects[id]?).filter fun _ => id ∈ live :=
  ExtTreeMap.getElem?_filter'

/-- Sweeping keeps the closure of everything that keeps `live` alive: the swept
objects are not below it. -/
theorem grounded_sweep (hlive : w.liveObjects = .ok live) {anchor : Id}
    (hanchor : anchor ∈ w.anchors) (h : Grounded w.edges anchor) :
    Grounded (w.sweep live).edges anchor := by
  refine h.congr fun id hreach => ?_
  have hid : id ∈ live := (liveObjects_ok hlive id).2 ⟨anchor, hanchor, hreach⟩
  show ((w.sweep live).objects[id]?).map _ = (w.objects[id]?).map _
  rw [sweep_objects, decide_eq_true hid]
  cases w.objects[id]? <;> rfl

theorem Inv.sweep (hw : w.Inv) (hlive : w.liveObjects = .ok live) : (w.sweep live).Inv where
  rootCommit p root hroot := by
    obtain ⟨record, hrecord, hkind⟩ := hw.rootCommit p root hroot
    refine ⟨record, ?_, hkind⟩
    have hid : root.commit ∈ live := (liveObjects_ok hlive _).2
      ⟨root.commit, mem_anchors.2 (.inl ⟨p, root, hroot, rfl⟩), .refl⟩
    rw [sweep_objects, hrecord]
    simp [hid]
  rootGrounded p root hroot :=
    grounded_sweep hlive (mem_anchors.2 (.inl ⟨p, root, hroot, rfl⟩))
      (hw.rootGrounded p root hroot)
  pinGrounded pin id hpin :=
    grounded_sweep hlive (mem_anchors.2 (.inr ⟨pin, hpin⟩)) (hw.pinGrounded pin id hpin)
  represented blob id hblob := by
    have hfilter : (w.representations[blob]?).filter
        (fun object => object ∈ (w.sweep live).objects) = some id :=
      ExtTreeMap.getElem?_filter'.symm.trans hblob
    exact of_decide_eq_true (Option.filter_eq_some_iff.1 hfilter).2
  placed entry nodes he := by
    have hfilter : (w.placements[entry]?).filter
        (fun _ => entry.2 ∈ (w.sweep live).representations) = some nodes :=
      ExtTreeMap.getElem?_filter'.symm.trans he
    obtain ⟨hplaced, hblob⟩ := Option.filter_eq_some_iff.1 hfilter
    exact ⟨of_decide_eq_true hblob, (hw.placed entry nodes hplaced).2⟩
  active := hw.active

/-! ## Placement epochs -/

variable {plan : List (Id × List Nat)}

theorem stagePlan_ok :
    ∀ {staged staged' : FMap Id (FSet Nat)}, w.stagePlan plan staged = .ok staged' →
      (∀ blob : Id, blob ∈ staged → blob ∈ w.representations) →
      ∀ blob : Id, blob ∈ staged' → blob ∈ w.representations := by
  induction plan with
  | nil =>
    intro staged staged' h hstaged
    cases h
    exact hstaged
  | cons entry rest ih =>
    intro staged staged' h hstaged
    unfold stagePlan at h
    split at h
    · cases h
    rename_i hblob
    refine ih h fun b hb => ?_
    rcases ExtTreeMap.mem_insert.1 hb with heq | hb
    · rw [← LawfulEqOrd.eq_of_compare heq]
      exact not_not.1 hblob
    · exact hstaged b hb

variable {epoch : Nat}

theorem publishPlacementEpoch_ok {minimumReplicas : ReplicaCount}
    (h : w.publishPlacementEpoch epoch plan minimumReplicas = (.ok u, w')) :
    (∀ active, w.activePlacementEpoch = some active → active < epoch) ∧
    ∃ staged : FMap Id (FSet Nat), (∀ blob : Id, blob ∈ staged → blob ∈ w.representations) ∧
      w' = { w with
        placements := w.placements.insertMany
          (staged.toList.map fun entry => ((epoch, entry.1), entry.2))
        placementEpochs := w.placementEpochs.insert epoch
        activePlacementEpoch := some epoch } := by
  unfold publishPlacementEpoch at h
  split at h
  · cases h
  split at h
  · cases h
  rename_i hstale
  split at h
  · cases h
  split at h
  · cases h
  rename_i staged hstaged
  split at h
  · cases h
  refine ⟨fun active hactive => ?_, staged, stagePlan_ok hstaged (by simp), (Prod.mk.inj h).2.symm⟩
  rw [hactive] at hstale
  by_contra hle
  simp [Option.filter, Nat.le_of_not_lt hle] at hstale

/-- A placement after a publication is an old one or one of the new epoch. -/
theorem getElem?_publish {staged : FMap Id (FSet Nat)} {entry : Nat × Id} {nodes : FSet Nat}
    (h : (w.placements.insertMany
      (staged.toList.map fun entry => ((epoch, entry.1), entry.2)))[entry]? = some nodes) :
    w.placements[entry]? = some nodes ∨ (entry.1 = epoch ∧ entry.2 ∈ staged) := by
  rw [ExtTreeMap.getElem?_insertMany_list] at h
  rcases Option.or_eq_some_iff.1 h with h | ⟨_, h⟩
  · rw [findSomeRev?_eq_findSome?_reverse] at h
    obtain ⟨⟨_, _⟩, hmem, hkey⟩ := exists_of_findSome?_eq_some h
    rw [mem_reverse, mem_map] at hmem
    obtain ⟨⟨_, ns⟩, hblob, heq⟩ := hmem
    cases heq
    dsimp only at hkey
    split at hkey
    next hcompare =>
      rw [← LawfulEqOrd.eq_of_compare hcompare]
      refine .inr ⟨rfl, mem_iff_getElem?.2 ⟨ns, ?_⟩⟩
      exact ExtTreeMap.mem_toList_iff_getElem?_eq_some.1 hblob
    next => cases hkey
  · exact .inl h

theorem Inv.publish {staged : FMap Id (FSet Nat)} (hw : w.Inv)
    (hstaged : ∀ blob : Id, blob ∈ staged → blob ∈ w.representations) :
    ({ w with
      placements := w.placements.insertMany
        (staged.toList.map fun entry => ((epoch, entry.1), entry.2))
      placementEpochs := w.placementEpochs.insert epoch
      activePlacementEpoch := some epoch } : World Id P).Inv where
  __ := hw
  placed entry nodes he := by
    rcases getElem?_publish he with he | ⟨hepoch, hblob⟩
    · obtain ⟨hblob, hepoch⟩ := hw.placed entry nodes he
      exact ⟨hblob, mem_insert_set.2 (.inr hepoch)⟩
    · exact ⟨hstaged _ hblob, mem_insert_set.2 (.inl hepoch.symm)⟩
  active e he := by
    cases he
    exact mem_insert_set.2 (.inl rfl)

theorem retirePlacementEpoch_ok (h : w.retirePlacementEpoch epoch = (.ok u, w')) :
    w.activePlacementEpoch ≠ some epoch ∧ w' = { w with
      placements := w.placements.filter fun entry _ => entry.1 ≠ epoch
      placementEpochs := w.placementEpochs.erase epoch } := by
  unfold retirePlacementEpoch at h
  split at h
  · cases h
  rename_i hactive
  split at h
  next => cases h
  next => exact ⟨hactive, (Prod.mk.inj h).2.symm⟩

theorem Inv.retire (hw : w.Inv) (hactive : w.activePlacementEpoch ≠ some epoch) :
    ({ w with
      placements := w.placements.filter fun entry _ => entry.1 ≠ epoch
      placementEpochs := w.placementEpochs.erase epoch } : World Id P).Inv where
  __ := hw
  placed entry nodes he := by
    rw [ExtTreeMap.getElem?_filter'] at he
    obtain ⟨hplaced, hne⟩ := Option.filter_eq_some_iff.1 he
    obtain ⟨hblob, hepoch⟩ := hw.placed entry nodes hplaced
    refine ⟨hblob, ExtTreeSet.mem_erase.2 ⟨fun heq => ?_, hepoch⟩⟩
    exact of_decide_eq_true hne (LawfulEqOrd.eq_of_compare heq).symm
  active e he := by
    refine ExtTreeSet.mem_erase.2 ⟨fun heq => hactive ?_, hw.active e he⟩
    rw [he, LawfulEqOrd.eq_of_compare heq]

end World

end Astrid
