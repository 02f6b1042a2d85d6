import Astrid.Lib.Redo
import Astrid.Durable.Published

/-!
# Recovering a complete WAL

Over a WAL whose last transaction is complete, recovery replays the writer's events in
order (`recoverWal_follows`). One transaction's events are one `replayTransaction`, and
this is a redo of the transaction's root swap (`replayTransaction_redo`): the objects
are found, the closure is complete, and only the comparison with the recovered root can
fail.
-/

namespace Astrid

open Std List

variable {P : Type} {env : WalEnv P}

/-! ## Events -/

variable {s s' : ScanState} {event : WalEvent}

theorem Consumed.not_tail {offset : Nat} {record : RecordHeader} {body : Bytes}
    (h : Consumed env s offset record body event s') (at_ : Nat) (kind : WalTailKind) :
    event ≠ .tail at_ kind := by
  rintro rfl
  cases h with
  | begin _ h =>
    simp only [consumeBegin, bind_eq_ok] at h
    obtain ⟨_, _, _, _, _, _, _, _, _, _, hout⟩ := h
    cases hout
  | object _ _ _ _ h =>
    simp only [consumeObject, bind_eq_ok] at h
    obtain ⟨_, _, _, _, _, _, _, _, _, _, _, _, _, _, _, _, _, _, hout⟩ := h
    cases hout
  | root _ _ _ _ h =>
    simp only [consumeRoot, bind_eq_ok] at h
    obtain ⟨_, _, _, _, _, _, _, _, _, _, _, _, _, _, hout⟩ := h
    cases hout

section Events

variable [Key P]

/-- Replay scanner events in order. -/
def replayEvents (env : WalEnv P) (wal : Bytes) (events : List WalEvent)
    (state : Option PendingBuilding × CanonicalStore P) :
    Except DurableError (Option PendingBuilding × CanonicalStore P) :=
  events.foldlM (replayEvent env wal) state

theorem replayEvents_append (wal : Bytes) (events more : List WalEvent)
    (state : Option PendingBuilding × CanonicalStore P) :
    replayEvents env wal (events ++ more) state =
      replayEvents env wal events state >>= replayEvents env wal more := foldlM_append

variable {wal : Bytes} {pending : Option PendingBuilding} {store : CanonicalStore P}

section

variable (hnext : nextEvent env wal s = .ok (some event, s'))
  (htail : ∀ at_ kind, event ≠ .tail at_ kind)

include hnext htail

/-- One turn of the loop at an event that cannot be replayed. -/
theorem recoverTurn_failed {e : DurableError}
    (h : replayEvent env wal (pending, store) event = .error e) :
    recoverTurn env wal ⟨s, pending, store⟩ = .stop (.error e) := by
  simp only [recoverTurn, hnext]
  cases event with
  | tail at_ kind => exact absurd rfl (htail at_ kind)
  | _ => simp only [h]

/-- One turn of the loop at an event that is replayed. -/
theorem recoverTurn_replayed {next : Option PendingBuilding × CanonicalStore P}
    (h : replayEvent env wal (pending, store) event = .ok next) :
    recoverTurn env wal ⟨s, pending, store⟩ = .again ⟨s', next.1, next.2⟩ := by
  simp only [recoverTurn, hnext]
  cases event with
  | tail at_ kind => exact absurd rfl (htail at_ kind)
  | _ => simp only [h]

end

/-- Recovery goes through every reached state, with the events so far replayed. -/
theorem Reached.recoverWal_eq {events : List WalEvent} (h : Reached env wal events s)
    (store : CanonicalStore P) :
    recoverWal env wal store = replayEvents env wal events (none, store) >>= fun state =>
      (recoverLoop env wal).run ⟨s, state.1, state.2⟩ := by
  induction h with
  | start => rfl
  | @record _ _ _ _ _ _ event hreached hrecord hconsume ih =>
    have hnext := nextEvent_record hrecord hreached.running.1 hconsume
    rw [ih, replayEvents_append, bind_assoc]
    congr 1
    funext state
    have htail := (consumeRecord_ok hconsume).not_tail
    show _ = (replayEvent env wal state event >>= pure) >>= _
    cases hevent : replayEvent env wal state event with
    | error => exact Loop.run_stop _ (recoverTurn_failed hnext htail hevent)
    | ok => exact Loop.run_again _ (recoverTurn_replayed hnext htail hevent)

variable {log : WalLog}

/-- Over a complete WAL recovery is the replay of the writer's events. -/
theorem recoverWal_follows (h : Follows env log) (hinactive : log.writer.active = none)
    (store : CanonicalStore P) :
    recoverWal env log.writer.sink store =
      replayEvents env log.writer.sink log.events (none, store) >>= fun state =>
        if state.1.isSome then
          .error (corruptWal "WAL scanner ended with an active transaction")
        else .ok (state.2, ⟨log.writer.sink.length, log.writer.lastSequence, none, true,
          some log.writer.sink.length⟩) := by
  have hreached := h.reached []
  rw [append_nil, hinactive, Option.map_none] at hreached
  rw [hreached.recoverWal_eq]
  congr 1
  funext state
  apply Loop.run_stop
  show recoverTurn env _ _ = _
  have hnext : nextEvent env log.writer.sink
      ⟨log.writer.sink.length, log.writer.lastSequence, none, false, none⟩ =
      .ok (none, ⟨log.writer.sink.length, log.writer.lastSequence, none, true,
        some log.writer.sink.length⟩) := by
    unfold nextEvent
    rw [if_neg (by simp), if_pos (by simp)]
    rfl
  unfold recoverTurn
  rw [hnext]
  dsimp only
  split <;> rfl

/-- The object events of a transaction collect its object descriptors. -/
theorem replayEvents_objects (wal : Bytes) (store : CanonicalStore P) (ds : List
    WalObjectDescriptor) (pending : PendingBuilding) : replayEvents env wal (ds.map objectEvent)
    (some pending, store) = .ok (some { pending with objects := pending.objects ++ ds }, store) :=
    by
  induction ds generalizing pending with
  | nil =>
    rw [append_nil]
    rfl
  | cons d _ ih =>
    have hds := ih { pending with objects := pending.objects ++ [d] }
    rw [append_assoc] at hds
    exact hds

theorem replayEvents_roots (wal : Bytes) (store : CanonicalStore P) (ds : List WalRootDescriptor)
    (pending : PendingBuilding) : replayEvents env wal (ds.map rootEvent) (some pending, store) =
    .ok (some { pending with roots := pending.roots ++ ds }, store) := by
  induction ds generalizing pending with
  | nil =>
    rw [append_nil]
    rfl
  | cons d _ ih =>
    have hds := ih { pending with roots := pending.roots ++ [d] }
    rw [append_assoc] at hds
    exact hds

/-- The events of a written transaction replay it once. -/
theorem Written.replayEvents_eq {next : WalLog} {transition : WalRootTransition}
    {objects : List (Digest × ObjectRecord Digest)} {pending : PendingBuilding}
    (h : Written env log next transition objects pending) (wal : Bytes)
    (state : Option PendingBuilding × CanonicalStore P) :
    replayEvents env wal next.events state = replayEvents env wal log.events state >>= fun before =>
      if before.1.isNone = true then
        replayTransaction env wal pending before.2 >>= fun store => .ok (none, store)
      else .error (corruptWal "nested WAL transaction") := by
  obtain ⟨_, _, _, _, _, _, _, _, hevents⟩ := h.events
  rw [hevents, replayEvents_append]
  congr 1
  funext ⟨building, store⟩
  cases building with
  | some => rfl
  | none =>
    show replayEvents env wal _ (some ⟨[], []⟩, store) = _
    rw [replayEvents_append, replayEvents_objects, ok_bind, replayEvents_append, replayEvents_roots]
    show (replayTransaction env wal pending store >>= _) >>= pure = _
    rw [bind_pure]
    rfl

end Events

/-! ## Transactions -/

section Transactions

variable [Key P]

/-- The roots a history records. -/
def rootsOf (history : RootHistory P) (principal : P) : Option (RootState Digest) :=
  (history[principal]?).map Prod.fst

theorem rootsOf_insert (history : RootHistory P) (swap : Swap P (RootState Digest)) (offset : Nat) :
    rootsOf (history.insert swap.key (swap.replacement, offset)) =
      swap.install (rootsOf history) := by
  funext principal
  unfold rootsOf
  rw [getElem?_insert_of]
  split_ifs with hkey
  · rw [← hkey, Swap.install_self]
    rfl
  · rw [Swap.install_of_ne (Ne.symm hkey)]

/-- A published transaction as a swap of its principal's root. -/
def Recorded.swap (r : Recorded P) : Swap P (RootState Digest) :=
  ⟨r.root.principal, r.root.expected, r.root.replacement⟩

/-- The arena holds what `e` had stored, and nothing but what `final` has. -/
structure Covering (e final : LiveEngine P) (arena : FMap Digest (ObjectRecord Digest)) :
    Prop where
  covers : ∀ id record, e.visible id = some record → arena[id]? = some record
  within : ∀ id record, arena[id]? = some record → final.visible id = some record

variable {e e' final : LiveEngine P} {r : Recorded P} {incoming : FMap Digest (ObjectRecord Digest)}
  {arena : FMap Digest (ObjectRecord Digest)}

section

variable (hs : Covering e final arena) (h : Published env e e' r)
  (hfinal : ∀ id record, e'.visible id = some record → final.visible id = some record)
  (hincoming : ∀ (id : Digest) record, incoming[id]? = some record ↔ (id, record) ∈ r.objects)

include hs h hfinal hincoming

/-- The objects of a transaction do not collide with the arena. -/
theorem Covering.collision_eq : collision arena incoming = none := by
  unfold collision
  rw [Option.map_eq_none_iff, find?_eq_none]
  intro entry hentry hany
  have hmem : (entry.1, entry.2) ∈ r.objects :=
    (hincoming _ _).1 (ExtTreeMap.mem_toList_iff_getElem?_eq_some.1 hentry)
  rw [Option.any_eq_true] at hany
  obtain ⟨_, hexisting, hne⟩ := hany
  have hold := hs.within _ _ hexisting
  rw [hfinal _ _ ((h.visible _ _).2 (.inr hmem))] at hold
  cases hold
  exact absurd rfl (of_decide_eq_true hne)

/-- With the objects of a transaction, the arena holds what the transaction left stored. -/
theorem Covering.fold : Covering e' final (incoming ∪ arena) := by
  have hwithin : ∀ id record, (incoming ∪ arena)[id]? = some record →
      final.visible id = some record := by
    intro id record hrecord
    rw [ExtTreeMap.getElem?_union, Option.or_eq_some_iff] at hrecord
    rcases hrecord with harena | ⟨_, hnew⟩
    · exact hs.within _ _ harena
    · exact hfinal _ _ ((h.visible _ _).2 (.inr ((hincoming _ _).1 hnew)))
  refine ⟨fun id record hrecord => ?_, hwithin⟩
  rcases (h.visible _ _).1 hrecord with hold | hnew
  · rw [ExtTreeMap.getElem?_union, hs.covers _ _ hold]
    rfl
  -- Some record is stored under the identity, and `final` allows no other one.
  have hnew := (hincoming _ _).2 hnew
  cases harena : (incoming ∪ arena)[id]? with
  | none =>
    rw [ExtTreeMap.getElem?_union, Option.or_eq_none_iff, hnew] at harena
    cases harena.2
  | some =>
    have hother := hwithin _ _ harena
    rw [hfinal _ _ hrecord] at hother
    exact hother.symm

end

/-- The commit of a transaction is validated against the objects folded so far. -/
theorem Covering.validates (hs : Covering e' final arena) (h : Published env e e' r)
    (hincoming : ∀ (id : Digest) record, incoming[id]? = some record ↔ (id, record) ∈ r.objects)
    (validated : FSet Digest) :
    ∃ reachable, validateIncrementalClosure ((ObjectSource.ofMap incoming).orElse (.ofMap arena))
      validated r.root.replacement.commit = .ok reachable := by
  have hsource : ∀ id record, e'.visible id = some record →
      ((ObjectSource.ofMap incoming).orElse (.ofMap arena)).object id = some record := by
    intro id record hrecord
    show (incoming[id]?).or arena[id]? = some record
    cases hnew : incoming[id]? with
    | none => exact hs.covers _ _ hrecord
    | some =>
      have hother := (h.visible _ _).2 (.inr ((hincoming _ _).1 hnew))
      rw [hrecord] at hother
      exact hother.symm
  obtain ⟨_, hrecord, hkind⟩ := h.commit
  exact validateIncrementalClosure_of_grounded (hsource _ _ hrecord) hkind
    (h.grounded.mono (owned_mono hsource)).to_cut

/-- Replaying a published transaction redoes its root swap. -/
theorem replayTransaction_redo (hcodec : CodecRoundTrip env) (h : Published env e e' r)
    (hfinal : ∀ id record, e'.visible id = some record → final.visible id = some record)
    (after : Bytes) {store : CanonicalStore P} (hs : Covering e final store.arena) :
    match r.swap.redo (rootsOf store.history) with
    | some roots => ∃ store', replayTransaction env (e'.wal.writer.sink ++ after) r.pending store =
        .ok store' ∧ rootsOf store'.history = roots ∧ Covering e' final store'.arena
    | none => ∃ expected actual,
        replayTransaction env (e'.wal.writer.sink ++ after) r.pending store =
          .error (.model (.rootConflict expected actual)) := by
  obtain ⟨offset, _, hroots⟩ := h.written.roots
  have hread : readTransactionObjects env (e'.wal.writer.sink ++ after) r.pending.objects ∅ =
      .ok ((∅ : FMap Digest (ObjectRecord Digest)).insertMany r.objects) :=
    readTransactionObjects_ok ∅ (h.written.objects.imp fun _ _ hback => ⟨hback.1, hback.2 after⟩)
      h.nodup (fun _ _ => ExtTreeMap.getElem?_empty)
  have hincoming : ∀ (id : Digest) record,
      ((∅ : FMap Digest (ObjectRecord Digest)).insertMany r.objects)[id]? = some record ↔
        (id, record) ∈ r.objects := by
    intro id record
    rw [getElem?_insertMany_iff ∅ h.nodup (fun _ _ => ExtTreeMap.getElem?_empty)]
    simp
  generalize (∅ : FMap Digest (ObjectRecord Digest)).insertMany r.objects = incoming
    at hread hincoming
  have hcollision := hs.collision_eq h hfinal hincoming
  have hfolded := hs.fold h hfinal hincoming
  obtain ⟨reachable, hreachable⟩ := hfolded.validates h hincoming store.validated
  have hprincipal : decodePrincipal env (env.encodePrincipal r.root.principal) offset =
      .ok r.root.principal := by
    simp [decodePrincipal, hcodec r.root.principal, okOr, require]
  have htransaction : replayTransaction env (e'.wal.writer.sink ++ after) r.pending store =
      if rootsOf store.history r.root.principal = r.root.expected ∨
          rootsOf store.history r.root.principal = some r.root.replacement then
        publishRoots env [(r.root.principal, r.transition env, offset)] [] store.history >>=
          fun out => .ok ⟨incoming ∪ store.arena, store.journal ++ out.1,
            store.validated ∪ reachable, out.2⟩
      else .error (.model (.rootConflict r.root.expected
        (rootsOf store.history r.root.principal))) := by
    unfold replayTransaction
    rw [hread, ok_bind]
    rw [hcollision, hroots]
    dsimp only [checkRoots, Recorded.transition]
    rw [hprincipal, ok_bind]
    split_ifs with hactual
    · unfold rootsOf at hactual
      rw [require_pos hactual, hreachable]
      rfl
    unfold rootsOf at hactual
    rw [require_neg hactual]
    rfl
  rw [htransaction]
  have hswap : r.swap.redo (rootsOf store.history) =
      if rootsOf store.history r.root.principal = some r.root.replacement then
        some (rootsOf store.history)
      else if rootsOf store.history r.root.principal = r.root.expected then
        some (r.swap.install (rootsOf store.history))
      else none := rfl
  rw [hswap]
  by_cases hdone : rootsOf store.history r.root.principal = some r.root.replacement
  · -- The journal holds the transition already.
    rw [if_pos hdone, if_pos (.inr hdone)]
    refine ⟨⟨incoming ∪ store.arena, store.journal ++ [], store.validated ∪ reachable,
      store.history⟩, ?_, rfl, hfolded⟩
    have hskip : publishRoots env [(r.root.principal, r.transition env, offset)] []
        store.history = .ok ([], store.history) := if_pos hdone
    rw [hskip]
    rfl
  · rw [if_neg hdone]
    by_cases hexpected : rootsOf store.history r.root.principal = r.root.expected
    · rw [if_pos hexpected, if_pos (.inl hexpected)]
      refine ⟨⟨incoming ∪ store.arena, store.journal ++ [r.root.journal],
        store.validated ∪ reachable,
        store.history.insert r.root.principal (r.root.replacement, offset)⟩, ?_,
        rootsOf_insert store.history r.swap offset, hfolded⟩
      have hpublish : publishRoots env [(r.root.principal, r.transition env, offset)] []
          store.history = .ok ([r.root.journal],
            store.history.insert r.root.principal (r.root.replacement, offset)) := by
        refine (if_neg hdone).trans ?_
        simp only [bind_eq_ok, require_eq_ok, okOr_eq_ok]
        exact ⟨(), hexpected, _, h.journal, rfl⟩
      rw [hpublish]
      rfl
    · rw [if_neg hexpected, if_neg (not_or.2 ⟨hexpected, hdone⟩)]
      exact ⟨_, _, rfl⟩

end Transactions

end Astrid
