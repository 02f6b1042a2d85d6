import Astrid.Model.WorldInv

/-!
# Runs of the reference world

Any sequence of calls, successful or failing. `call_ok` says in one place what
a successful call can do to the world (`Effect`), and `call_error` that a failing
one does nothing; the invariant, the history and the stability of records are
each a short case analysis over `Effect`, carried along a run by induction.
-/

namespace Astrid

open Std List Option Function

/-- A call of one of the operations that change the world. -/
inductive Call (Id P : Type)
  | insertObject (id : Id) (record : ObjectRecord Id)
  | registerRepresentation (object blob : Id)
  | importClosure (records : List (Id × ObjectRecord Id)) (root : Id)
  | commitClosureOwned (principal : P) (expected : Option (RootState Id)) (commit : Id)
      (records : List (Id × ObjectRecord Id))
  | compareAndSwapRoot (principal : P) (expected : Option (RootState Id)) (commit : Id)
  | compareAndRemoveRoot (principal : P) (expected : RootState Id)
  | pin (pin : Nat) (root : Id)
  | unpin (pin : Nat)
  | collectGarbage
  | publishPlacementEpoch (epoch : Nat) (plan : List (Id × List Nat))
      (minimumReplicas : ReplicaCount)
  | retirePlacementEpoch (epoch : Nat)

/-- What a successful call adds to the history of a run. -/
inductive Event (P : Type)
  | quiet
  | rootSet (principal : P)
  | rootRemoved (principal : P)
  | published (epoch : Nat)

def Call.event {Id P : Type} : Call Id P → Event P
  | .commitClosureOwned principal _ _ _ => .rootSet principal
  | .compareAndSwapRoot principal _ _ => .rootSet principal
  | .compareAndRemoveRoot principal _ => .rootRemoved principal
  | .publishPlacementEpoch epoch _ _ => .published epoch
  | _ => .quiet

/-- The epochs a run has published, in order, and for each principal that has a
root the number of updates since the root was created. -/
structure History (P : Type) where
  published : List Nat
  updates : P → Option Nat

def History.empty {P : Type} : History P := ⟨[], fun _ => none⟩

/-- One more event of a run. A root starts at zero updates; each later one counts. -/
def History.note {P : Type} [Key P] (history : History P) : Event P → History P
  | .quiet => history
  | .rootSet principal => { history with
      updates := Function.update history.updates principal
        (some ((history.updates principal).elim 0 (· + 1))) }
  | .rootRemoved principal => { history with
      updates := Function.update history.updates principal none }
  | .published epoch => { history with published := history.published ++ [epoch] }

namespace World

variable {Id P : Type} [Key Id] [Key P]

/-- Forget what a successful call returned. -/
def answer {α : Type} (result : Except (ModelError Id) α × World Id P) :
    Except (ModelError Id) Unit × World Id P :=
  (result.1.map fun _ => (), result.2)

def call (w : World Id P) : Call Id P → Except (ModelError Id) Unit × World Id P
  | .insertObject id record => answer (w.insertObject id record)
  | .registerRepresentation object blob => answer (w.registerRepresentation object blob)
  | .importClosure records root => answer (w.importClosure records root)
  | .commitClosureOwned principal expected commit records =>
    answer (w.commitClosureOwned principal expected commit records)
  | .compareAndSwapRoot principal expected commit =>
    answer (w.compareAndSwapRoot principal expected commit)
  | .compareAndRemoveRoot principal expected => answer (w.compareAndRemoveRoot principal expected)
  | .pin pin root => answer (w.pin pin root)
  | .unpin pin => answer (w.unpin pin)
  | .collectGarbage => answer w.collectGarbage
  | .publishPlacementEpoch epoch plan minimumReplicas =>
    answer (w.publishPlacementEpoch epoch plan minimumReplicas)
  | .retirePlacementEpoch epoch => answer (w.retirePlacementEpoch epoch)

variable {w' : World Id P} {α : Type} {u : Unit}

theorem answer_ok {result : Except (ModelError Id) α × World Id P}
    (h : answer result = (.ok u, w')) : ∃ a, result = (.ok a, w') := by
  obtain ⟨outcome, w₁⟩ := result
  cases outcome with
  | error => cases h
  | ok a =>
    obtain rfl : w₁ = w' := (Prod.mk.inj h).2
    exact ⟨a, rfl⟩

variable {e : ModelError Id}

theorem answer_error {result : Except (ModelError Id) α × World Id P}
    (h : answer result = (.error e, w')) : result = (.error e, w') := by
  obtain ⟨outcome, _⟩ := result
  cases outcome with
  | error => cases h; rfl
  | ok => cases h

/-! ## Failing calls -/

variable {w : World Id P}

theorem unpin_error {k : Nat} (h : w.unpin k = (.error e, w')) : w' = w := by
  unfold unpin at h
  dsimp only at h
  split at h
  next => cases h
  next hnone =>
    -- the removal ran, and removed nothing
    cases h
    rw [erase_of_not_mem hnone]

variable {c : Call Id P}

/-- A failing call leaves the whole world unchanged. -/
theorem call_error (h : w.call c = (.error e, w')) : w' = w := by
  cases c with
  | unpin => exact unpin_error (answer_error h)
  | _ =>
    -- Every other call has failed before its one write.
    have h := answer_error h
    simp only [insertObject, registerRepresentation, importClosure, commitClosureOwned,
      compareAndSwapRoot, compareAndRemoveRoot, pin, collectGarbage, publishPlacementEpoch,
      retirePlacementEpoch] at h
    repeat' split at h
    all_goals cases h <;> rfl

/-! ## Successful calls -/

/-- Everything a successful call can do to the world. -/
inductive Effect (w : World Id P) : Event P → World Id P → Prop
  | grow {objects : FMap Id (ObjectRecord Id)} (hext : Extends w.objects objects) :
      Effect w .quiet { w with objects }
  | register {object blob : Id} (hobject : object ∈ w.objects) :
      Effect w .quiet { w with representations := w.representations.insert blob object }
  | setRoot {principal : P} {objects : FMap Id (ObjectRecord Id)} {root : RootState Id}
      (hext : Extends w.objects objects)
      (hcommit : ∃ record, objects[root.commit]? = some record ∧ record.kind = .commit)
      (hgrounded : Grounded (owned (ObjectSource.ofMap objects).object) root.commit)
      (hgeneration : root.generation.toNat =
        (w.roots[principal]?).elim 0 fun root => root.generation.toNat + 1) :
      Effect w (.rootSet principal) { w with objects, roots := w.roots.insert principal root }
  | removeRoot {principal : P} :
      Effect w (.rootRemoved principal) { w with roots := w.roots.erase principal }
  | insertPin {k : Nat} {root : Id} (hgrounded : Grounded w.edges root) :
      Effect w .quiet { w with pins := w.pins.insert k root }
  | erasePin {k : Nat} : Effect w .quiet { w with pins := w.pins.erase k }
  | sweep {live : FSet Id} (hlive : w.liveObjects = .ok live) : Effect w .quiet (w.sweep live)
  | publish {epoch : Nat} {staged : FMap Id (FSet Nat)}
      (hnewer : ∀ active, w.activePlacementEpoch = some active → active < epoch)
      (hstaged : ∀ blob : Id, blob ∈ staged → blob ∈ w.representations) :
      Effect w (.published epoch) { w with
        placements := w.placements.insertMany
          (staged.toList.map fun entry => ((epoch, entry.1), entry.2))
        placementEpochs := w.placementEpochs.insert epoch
        activePlacementEpoch := some epoch }
  | retire {epoch : Nat} (hactive : w.activePlacementEpoch ≠ some epoch) :
      Effect w .quiet { w with
        placements := w.placements.filter fun entry _ => entry.1 ≠ epoch
        placementEpochs := w.placementEpochs.erase epoch }

theorem extends_refl (objects : FMap Id (ObjectRecord Id)) : Extends objects objects :=
  fun _ _ h => h

theorem call_ok (h : w.call c = (.ok u, w')) : Effect w c.event w' := by
  cases c with
  | insertObject =>
    obtain ⟨outcome, h⟩ := answer_ok h
    rcases insertObject_ok h with rfl | ⟨hnone, rfl⟩
    · exact .grow (extends_refl _)
    · exact .grow (extends_insert hnone)
  | registerRepresentation =>
    obtain ⟨_, h⟩ := answer_ok h
    obtain ⟨hobject, rfl | rfl⟩ := registerRepresentation_ok h
    · exact .grow (extends_refl _)
    · exact .register hobject
  | importClosure =>
    obtain ⟨inserted, h⟩ := answer_ok h
    obtain ⟨objects, hext, rfl⟩ := importClosure_ok h
    exact .grow hext
  | commitClosureOwned =>
    obtain ⟨⟨root, _⟩, h⟩ := answer_ok h
    obtain ⟨_, hext, hcommit, hgrounded, rfl, hgeneration, rfl⟩ := commitClosureOwned_ok h
    exact .setRoot hext hcommit hgrounded hgeneration
  | compareAndSwapRoot =>
    obtain ⟨root, h⟩ := answer_ok h
    obtain ⟨hcommit, hgrounded, rfl, hgeneration, rfl⟩ := compareAndSwapRoot_ok h
    exact .setRoot (extends_refl _) hcommit hgrounded hgeneration
  | compareAndRemoveRoot =>
    obtain ⟨root, h⟩ := answer_ok h
    unfold compareAndRemoveRoot at h
    split at h
    next => cases h
    next => cases h; exact .removeRoot
  | pin =>
    obtain ⟨_, h⟩ := answer_ok h
    obtain ⟨hgrounded, rfl⟩ := pin_ok h
    exact .insertPin hgrounded
  | unpin =>
    obtain ⟨_, h⟩ := answer_ok h
    unfold unpin at h
    dsimp only at h
    split at h
    next => cases h; exact .erasePin
    next => cases h
  | collectGarbage =>
    obtain ⟨_, h⟩ := answer_ok h
    obtain ⟨_, hlive, rfl⟩ := collectGarbage_ok h
    exact .sweep hlive
  | publishPlacementEpoch =>
    obtain ⟨_, h⟩ := answer_ok h
    obtain ⟨hnewer, _, hstaged, rfl⟩ := publishPlacementEpoch_ok h
    exact .publish hnewer hstaged
  | retirePlacementEpoch =>
    obtain ⟨_, h⟩ := answer_ok h
    obtain ⟨hactive, rfl⟩ := retirePlacementEpoch_ok h
    exact .retire hactive

theorem Effect.inv {event : Event P} (h : Effect w event w') (hw : w.Inv) :
    w'.Inv := by
  cases h with
  | grow hext => exact hw.extend hext
  | register hobject => exact hw.register hobject
  | setRoot hext hcommit hgrounded => exact (hw.extend hext).setRoot hcommit hgrounded
  | removeRoot => exact hw.removeRoot
  | insertPin hgrounded => exact hw.insertPin hgrounded
  | erasePin => exact hw.erasePin
  | sweep hlive => exact hw.sweep hlive
  | publish _ hstaged => exact hw.publish hstaged
  | retire hactive => exact hw.retire hactive

/-- A present object keeps its record or goes away. -/
theorem Effect.objects {event : Event P} (h : Effect w event w') {id : Id}
    {record : ObjectRecord Id} (hr : w.objects[id]? = some record) :
    w'.objects[id]? = some record ∨ w'.objects[id]? = none := by
  cases h with
  | grow hext | setRoot hext => exact .inl (hext id record hr)
  | @sweep live =>
    rw [sweep_objects, hr]
    by_cases hlive : id ∈ live
    · exact .inl (by simp [hlive])
    · exact .inr (by simp [hlive])
  | register | removeRoot | insertPin | erasePin | publish | retire => exact .inl hr

/-! ## Histories -/

/-- What a run's history says about the world it ends in. -/
structure Tracks (w : World Id P) (history : History P) : Prop where
  active : w.activePlacementEpoch = history.published.max?
  updates : ∀ p : P, (w.roots[p]?).map (fun root => root.generation.toNat) = history.updates p

theorem tracks_new : Tracks (new : World Id P) History.empty where
  active := rfl
  updates p := by simp [new, History.empty]

theorem Effect.tracks {event : Event P} {history : History P} (h : Effect w event w')
    (ht : Tracks w history) : Tracks w' (history.note event) := by
  cases h with
  | grow | register => exact ⟨ht.active, ht.updates⟩
  | @setRoot principal _ root _ _ _ hgeneration =>
    refine ⟨ht.active, fun p => ?_⟩
    show ((w.roots.insert principal root)[p]?).map _ = update history.updates principal _ p
    rw [getElem?_insert_of]
    by_cases hp : principal = p
    · subst hp
      rw [if_pos rfl, update_self, ← ht.updates, map_some, hgeneration]
      cases w.roots[principal]? <;> rfl
    · rw [if_neg hp, update_of_ne (Ne.symm hp), ht.updates]
  | @removeRoot principal =>
    refine ⟨ht.active, fun p => ?_⟩
    show ((w.roots.erase principal)[p]?).map _ = update history.updates principal _ p
    rw [getElem?_erase_of]
    by_cases hp : principal = p
    · subst hp
      rw [if_pos rfl, update_self]
      rfl
    · rw [if_neg hp, update_of_ne (Ne.symm hp), ht.updates]
  | insertPin | erasePin | sweep => exact ⟨ht.active, ht.updates⟩
  | @publish epoch _ hnewer =>
    refine ⟨?_, ht.updates⟩
    show some epoch = (history.published ++ [epoch]).max?
    refine (max?_eq_some_iff.2 ⟨by simp, fun e he => ?_⟩).symm
    rcases mem_append.1 he with he | he
    · -- the active epoch is the largest published so far, and the new one passed it
      cases hmax : history.published.max? with
      | none => simp [max?_eq_none_iff.1 hmax] at he
      | some active =>
        have hle : e ≤ active := (max?_eq_some_iff.1 hmax).2 e he
        have hlt : active < epoch := hnewer active (ht.active.trans hmax)
        omega
    · exact Nat.le_of_eq (mem_singleton.1 he)
  | retire => exact ⟨ht.active, ht.updates⟩

/-! ## Runs -/

/-- A run: every call in order, the history noting those that succeed. -/
def run : World Id P × History P → List (Call Id P) → World Id P × History P
  | state, [] => state
  | (w, history), c :: rest =>
    match w.call c with
    | (.ok _, w') => run (w', history.note c.event) rest
    | (.error _, w') => run (w', history) rest

theorem run_inv {calls : List (Call Id P)} :
    ∀ {w : World Id P} {history : History P}, w.Inv → Tracks w history →
      (run (w, history) calls).1.Inv ∧ Tracks (run (w, history) calls).1
        (run (w, history) calls).2 := by
  induction calls with
  | nil => intro w history hw ht; exact ⟨hw, ht⟩
  | cons _ _ ih =>
    intro w history hw ht
    unfold run
    split
    next u w' hcall =>
      have heffect := call_ok hcall
      exact ih (heffect.inv hw) (heffect.tracks ht)
    next e w' hcall =>
      rw [call_error hcall]
      exact ih hw ht

/-- The owning closure of `root` lies inside the objects and has no cycle. -/
def ClosedAt (w : World Id P) (root : Id) : Prop :=
  (∀ id, Reaches w.edges root id → id ∈ w.objects) ∧
    ∀ id, Reaches w.edges root id → ¬ Relation.TransGen (Edge w.edges) id id

theorem closedAt_of_grounded {root : Id} (h : Grounded w.edges root) :
    w.ClosedAt root := by
  refine ⟨fun id hreach => ?_, fun id hreach => h.acyclic hreach⟩
  obtain ⟨_, hs⟩ := h.complete hreach
  obtain ⟨record, hrecord, _⟩ := map_eq_some_iff.1 hs
  exact mem_iff_getElem?.2 ⟨record, hrecord⟩

/-- **The world invariant over whole runs.** After any calls from the empty
world: roots name present commits, roots and pins are closed, representations
and placements name what exists, the active epoch is installed and the largest
ever published, and generations count the updates since creation. From any such
state a call changes no present record, and a failing call changes nothing. -/
theorem run_from_empty (calls : List (Call Id P)) :
    let w := (run (new, History.empty) calls).1
    let history := (run ((new : World Id P), History.empty) calls).2
    (∀ (p : P) root, w.roots[p]? = some root →
      (∃ record, w.objects[root.commit]? = some record ∧ record.kind = .commit) ∧
      w.ClosedAt root.commit) ∧
    (∀ (pin : Nat) id, w.pins[pin]? = some id → w.ClosedAt id) ∧
    (∀ (blob : Id) id, w.representations[blob]? = some id → id ∈ w.objects) ∧
    (∀ epoch blob nodes, w.placements[(epoch, blob)]? = some nodes →
      blob ∈ w.representations ∧ epoch ∈ w.placementEpochs) ∧
    (∀ epoch, w.activePlacementEpoch = some epoch → epoch ∈ w.placementEpochs) ∧
    w.activePlacementEpoch = history.published.max? ∧
    (∀ p : P, (w.roots[p]?).map (fun root => root.generation.toNat) = history.updates p) ∧
    (∀ c (id : Id) record, w.objects[id]? = some record →
      (w.call c).2.objects[id]? = some record ∨ (w.call c).2.objects[id]? = none) ∧
    ∀ c e, (w.call c).1 = .error e → (w.call c).2 = w := by
  intro w history
  obtain ⟨hw, ht⟩ : w.Inv ∧ Tracks w history := run_inv inv_new tracks_new
  refine ⟨fun p root hroot => ⟨hw.rootCommit p root hroot, ?_⟩, fun pin id hpin => ?_,
    hw.represented, fun epoch blob nodes h => hw.placed (epoch, blob) nodes h, hw.active,
    ht.active, ht.updates, fun c id record hrecord => ?_, fun c e he => ?_⟩
  · exact closedAt_of_grounded (hw.rootGrounded p root hroot)
  · exact closedAt_of_grounded (hw.pinGrounded pin id hpin)
  · cases hcall : w.call c with
    | mk outcome =>
      cases outcome with
      | ok => exact (call_ok hcall).objects hrecord
      | error =>
        rw [call_error hcall]
        exact .inl hrecord
  · exact call_error (Prod.ext he rfl)

/-! ## Collections -/

theorem exists_extendLive {anchors : List Id} (h : ∀ anchor ∈ anchors, Grounded w.edges anchor)
    (live : FSet Id) : ∃ live', w.extendLive anchors live = .ok live' := by
  induction anchors generalizing live with
  | nil => exact ⟨live, rfl⟩
  | cons _ _ ih =>
    obtain ⟨hanchor, hrest⟩ := forall_mem_cons.1 h
    obtain ⟨_, hids⟩ := closureWith_of_grounded hanchor
    rw [extendLive, closure, hids]
    exact ih hrest _

theorem Inv.exists_live (hw : w.Inv) : ∃ live, w.liveObjects = .ok live := by
  refine exists_extendLive (fun anchor hanchor => ?_) ∅
  rcases mem_anchors.1 hanchor with ⟨p, root, hroot, rfl⟩ | ⟨pin, hpin⟩
  · exact hw.rootGrounded p root hroot
  · exact hw.pinGrounded pin anchor hpin

omit [Key Id] in
theorem gcReport_error {removed : List (Id × ObjectRecord Id)} {report : GcReport}
    {e : ModelError Id} (h : gcReport removed report = .error e) : e = .arithmeticOverflow := by
  induction removed generalizing report with
  | nil => cases h
  | cons _ _ ih =>
    unfold gcReport at h
    split at h
    · split at h
      · exact ih h
      · cases h; rfl
    · cases h; rfl

/-- After any calls from the empty world, a collection keeps roots and pins and exactly the objects
below them, and only counters that overflow make it fail. -/
theorem collectGarbage_exact (calls : List (Call Id P)) :
    let w := (run ((new : World Id P), History.empty) calls).1
    (∀ e w', w.collectGarbage = (.error e, w') → e = .arithmeticOverflow) ∧
    ∀ report w', w.collectGarbage = (.ok report, w') →
      w'.roots = w.roots ∧ w'.pins = w.pins ∧
      ∀ (id : Id) record, w'.objects[id]? = some record ↔
        w.objects[id]? = some record ∧ ∃ anchor ∈ w.anchors, Reaches w.edges anchor id := by
  intro w
  have hinv : w.Inv := (run_inv inv_new tracks_new).1
  obtain ⟨live, hlive⟩ := hinv.exists_live
  constructor
  · intro e w' h
    rw [collectGarbage, hlive] at h
    dsimp only at h
    split at h
    next hreport =>
      cases h
      exact gcReport_error hreport
    next => cases h
  · intro report w' h
    obtain ⟨live, hlive, rfl⟩ := collectGarbage_ok h
    refine ⟨rfl, rfl, fun id record => ?_⟩
    rw [sweep_objects, Option.filter_eq_some_iff, ← liveObjects_ok hlive id, decide_eq_true_iff]

end World

end Astrid
