import Astrid.Durable.Publish

/-!
# Transactions in the WAL

What a published transaction leaves in the WAL, as recovery reads it: the events of
its records, and its objects behind their descriptors. Nothing appended later
changes what is read.
-/

namespace Astrid

open Std List

variable {P : Type} {env : WalEnv P}

/-! ## Objects -/

variable {wal : Bytes} {sequence : WalSequence} {object : ObjectRecord Digest}

/-- An object record is read back through its descriptor. -/
theorem readObjectRecord_of_recordAt {stored body : Bytes} {offset stop ordinal : Nat}
    {flags : UInt8} {id : Digest}
    (h : RecordAt env wal offset stop ⟨.object, flags, sequence, ordinal⟩ stored)
    (hstored : ∀ offset, decodeObjectStorageBody env stored flags offset = .ok body)
    (hframe : encodeObjectFrame env.scheme id object = some body) (hid : env.identify object = id)
    (hfits : body.length < wordLimit) (logicalBytes : Nat) :
    readObjectRecord env wal ⟨offset, stop - offset, id, logicalBytes⟩ =
      .ok (id, object, body) := by
  obtain ⟨physical, _, hphys, _, hsize, hpayload, hsum, hrecord, hversion, hbody⟩ :=
    h.read
  have hfile := h.fits
  have hbounded := h.bounded
  have hadd : checkedAdd physicalHeaderLen physical.payloadLen = some (stop - offset) := by
    rw [checkedAdd_eq_some]
    omega
  have hdecode : decodeObjectBody env body env.scheme offset = .ok (id, body.length) :=
    decodeObjectBody_canonical ⟨object, hframe, hid⟩ hfits offset
  simp only [readObjectRecord, bind_eq_ok, require_eq_ok, okOr_eq_ok, mapError_eq_ok]
  refine ⟨(), by omega, physical, hphys, _, hadd, (), ⟨rfl, hsize⟩, (), by omega, (), ?_⟩
  rw [hpayload]
  refine ⟨hsum, _, hrecord, (), hversion, (), rfl, ?_⟩
  rw [hbody]
  exact ⟨_, validateLogicalBody_ok h.body_le _, body, hstored _, (id, body.length), hdecode,
    (id, object), decodeObjectFrame_encode hframe hfits, body, hframe, (), rfl, rfl⟩

/-- The event of an object descriptor. -/
def objectEvent (d : WalObjectDescriptor) : WalEvent :=
  .object d.offset d.length d.id d.logicalBytes

def rootEvent (d : WalRootDescriptor) : WalEvent := .root d.offset d.length d.transition

/-- A frame and the record it encodes. -/
structure FrameOf (env : WalEnv P) (frame : Digest × Bytes) (object : ObjectRecord Digest) :
    Prop where
  encoded : encodeObjectFrame env.scheme frame.1 object = some frame.2
  identity : env.identify object = frame.1
  fits : frame.2.length ≤ env.maxFrameBytes

/-- The frames of the objects, in their order. -/
abbrev FramesOf (env : WalEnv P) : List (Digest × Bytes) → List (Digest × ObjectRecord Digest) →
    Prop :=
  List.Forall₂ fun frame object => frame.1 = object.1 ∧ FrameOf env frame object.2

/-- The descriptor reads back as the object, whatever is appended to the WAL. -/
def ReadsBack (env : WalEnv P) (sink : Bytes) (d : WalObjectDescriptor)
    (object : Digest × ObjectRecord Digest) : Prop :=
  d.id = object.1 ∧ ∀ after, ∃ payload,
    readObjectRecord env (sink ++ after) d = .ok (object.1, object.2, payload)

theorem ReadsBack.append {sink more : Bytes} {d : WalObjectDescriptor}
    {object : Digest × ObjectRecord Digest} (h : ReadsBack env sink d object) :
    ReadsBack env (sink ++ more) d object := by
  refine ⟨h.1, fun after => ?_⟩
  rw [append_assoc]
  exact h.2 (more ++ after)

variable {log next : WalLog}

/-- One prepared object in the WAL. -/
theorem preparedObject_written (hlz4 : Lz4RoundTrip env) {frame : Digest × Bytes}
    (h : Follows env log) (hframe : FrameOf env frame object)
    (hcall : log.perform env (.preparedObject frame.1 frame.2) = .ok next) :
    ∃ d, Follows env next ∧ next.writer.active.isSome = true ∧
      (∃ more, next.writer.sink = log.writer.sink ++ more) ∧
      next.events = log.events ++ [objectEvent d] ∧
      ReadsBack env next.writer.sink d (frame.1, object) := by
  have hcanonical : CanonicalObject env frame.1 frame.2 := ⟨object, hframe.encoded, hframe.identity⟩
  obtain ⟨_, _, _, hnext⟩ := h.perform hlz4 hcall hcanonical
  simp only [WalLog.perform, WalWriter.appendPreparedObject, bind_eq_ok, okOr_eq_ok] at hcall
  obtain ⟨⟨_, _⟩, ⟨tx, hactive, _, _, happend⟩, hout⟩ := hcall
  cases hout
  obtain ⟨encoded, _, _, _, rfl, rfl, hencoded, hflags, hfits, _, hstored, _⟩ :=
    appendObjectBody_ok hlz4 hcanonical (h.bounded tx hactive) happend
  refine ⟨⟨log.writer.sink.length, encoded.length, frame.1, frame.2.length⟩, hnext, rfl,
    ⟨encoded, rfl⟩, rfl, rfl, fun after => ⟨frame.2, ?_⟩⟩
  have hrecord := hencoded.recordAt hflags (h.bounded tx hactive).nextOrdinal log.writer.sink after
    hfits
  have hread := readObjectRecord_of_recordAt hrecord hstored hframe.encoded hframe.identity
    (Nat.lt_of_le_of_lt hframe.fits env.maxFrameBytes_lt) frame.2.length
  rw [Nat.add_sub_cancel_left] at hread
  exact hread

/-- The prepared objects of a transaction in the WAL, in order. -/
theorem preparedObjects_written (hlz4 : Lz4RoundTrip env) {frames : List (Digest × Bytes)}
    {objects : List (Digest × ObjectRecord Digest)} {log next : WalLog} (h : Follows env log)
    (hactive : log.writer.active.isSome = true) (hframes : FramesOf env frames objects)
    (hcalls : log.performAll env (frames.map fun frame => .preparedObject frame.1 frame.2) =
      .ok next) :
    ∃ ds, Follows env next ∧ next.writer.active.isSome = true ∧
      (∃ more, next.writer.sink = log.writer.sink ++ more) ∧
      next.events = log.events ++ ds.map objectEvent ∧
      List.Forall₂ (ReadsBack env next.writer.sink) ds objects := by
  induction frames generalizing objects log next with
  | nil =>
    cases hframes
    cases hcalls
    exact ⟨[], h, hactive, ⟨[], by simp⟩, by simp, .nil⟩
  | cons frame _ ih =>
    cases hframes with
    | @cons _ object _ _ hframe hframes =>
      simp only [map_cons, WalLog.performAll, bind_eq_ok] at hcalls
      obtain ⟨_, hcall, hcalls⟩ := hcalls
      obtain ⟨d, hmiddle, hactive', ⟨more, hmore⟩, hevents, hread⟩ :=
        preparedObject_written hlz4 h hframe.2 hcall
      have hobject : object = (frame.1, object.2) := Prod.ext hframe.1.symm rfl
      obtain ⟨ds, hnext, hactive'', ⟨more', hmore'⟩, hevents', hreads⟩ :=
        ih hmiddle hactive' hframes hcalls
      refine ⟨d :: ds, hnext, hactive'', ⟨more ++ more', ?_⟩, ?_, .cons ?_ hreads⟩
      · rw [hmore', hmore, append_assoc]
      · rw [hevents', hevents, append_assoc]
        rfl
      · rw [hmore', hobject]
        exact hread.append

/-- The objects of a transaction are read back as a map. -/
theorem readTransactionObjects_ok {ds : List WalObjectDescriptor}
    {objects : List (Digest × ObjectRecord Digest)} (incoming : FMap Digest (ObjectRecord Digest))
    (hreads : List.Forall₂ (fun d object => d.id = object.1 ∧ ∃ payload,
      readObjectRecord env wal d = .ok (object.1, object.2, payload)) ds objects)
    (hnodup : (objects.map Prod.fst).Nodup)
    (hfresh : ∀ object ∈ objects, incoming[object.1]? = none) :
    readTransactionObjects env wal ds incoming = .ok (incoming.insertMany objects) := by
  induction ds generalizing objects incoming with
  | nil =>
    cases hreads
    rfl
  | cons _ _ ih =>
    cases hreads with
    | @cons _ object _ _ hread hreads =>
      obtain ⟨hid, _, hread⟩ := hread
      rw [map_cons, nodup_cons] at hnodup
      simp only [readTransactionObjects, bind_eq_ok, require_eq_ok]
      refine ⟨_, hread, (), hid.symm, (), hfresh object (by simp), ?_⟩
      rw [ExtTreeMap.insertMany_cons]
      exact ih _ hreads hnodup.2 (fresh_insert hnodup.1 hfresh _)

/-! ## Transactions -/

theorem performAll_append (log : WalLog) (calls more : List (WalCall P)) :
    log.performAll env (calls ++ more) =
      log.performAll env calls >>= fun next => next.performAll env more := by
  induction calls generalizing log with
  | nil => rfl
  | cons _ _ ih =>
    simp only [cons_append, WalLog.performAll, bind_assoc]
    congr 1
    funext next
    exact ih next

/-- The root record of a transaction. -/
theorem root_written (hlz4 : Lz4RoundTrip env) {principal : P}
    {expected : Option (RootState Digest)} {replacement : RootState Digest} (h : Follows env log)
    (hcall : log.perform env (.root principal expected replacement) = .ok next) :
    Follows env next ∧ (∃ more, next.writer.sink = log.writer.sink ++ more) ∧
      ∃ offset length, next.events = log.events ++
        [.root offset length ⟨env.encodePrincipal principal, expected, replacement⟩] := by
  obtain ⟨encoded, _, happends, hnext⟩ := h.perform hlz4 hcall trivial
  refine ⟨hnext, ⟨encoded, happends.sink⟩, ?_⟩
  simp only [WalLog.perform, bind_eq_ok] at hcall
  obtain ⟨_, _, hout⟩ := hcall
  cases hout
  exact ⟨_, _, rfl⟩

/-- The Commit of a transaction. -/
theorem commit_written (hlz4 : Lz4RoundTrip env) (h : Follows env log)
    (hcall : log.perform env .commit = .ok next) :
    Follows env next ∧ next.writer.active = none ∧
      (∃ more, next.writer.sink = log.writer.sink ++ more) ∧
      ∃ beginOffset offset length commit, next.events = log.events ++
        [.commit beginOffset offset length commit] := by
  obtain ⟨encoded, _, happends, hnext⟩ := h.perform hlz4 hcall trivial
  refine ⟨hnext, ?_, ⟨encoded, happends.sink⟩, ?_⟩
  · simp only [WalLog.perform, WalWriter.finishCommit, bind_eq_ok] at hcall
    obtain ⟨⟨_, _⟩, ⟨_, _, _, _, _, _, _, _, _, _, hw⟩, hout⟩ := hcall
    cases hw
    cases hout
    rfl
  · simp only [WalLog.perform, bind_eq_ok] at hcall
    obtain ⟨_, _, hout⟩ := hcall
    cases hout
    exact ⟨_, _, _, _, rfl⟩

/-- What a published transaction leaves in the WAL. -/
structure Written (env : WalEnv P) (log next : WalLog) (transition : WalRootTransition)
    (objects : List (Digest × ObjectRecord Digest)) (pending : PendingBuilding) : Prop where
  follows : Follows env next
  inactive : next.writer.active = none
  sink : ∃ more, next.writer.sink = log.writer.sink ++ more
  events : ∃ offset sequence scheme hints beginOffset offset' length commit,
    next.events = log.events ++ (.begin offset sequence scheme hints ::
      (pending.objects.map objectEvent ++ (pending.roots.map rootEvent ++
        [.commit beginOffset offset' length commit])))
  roots : ∃ offset length, pending.roots = [⟨offset, length, transition⟩]
  objects : List.Forall₂ (ReadsBack env next.writer.sink) pending.objects objects

theorem transaction_written (hlz4 : Lz4RoundTrip env) {prepared : Prepared P}
    {objects : List (Digest × ObjectRecord Digest)} (h : Follows env log)
    (hframes : FramesOf env prepared.objects objects)
    (hcalls : log.performAll env (LiveEngine.transactionCalls sequence prepared) = .ok next) :
    ∃ pending,
      Written env log next ⟨env.encodePrincipal prepared.principal, prepared.expected,
      prepared.root⟩ objects pending := by
  unfold LiveEngine.transactionCalls at hcalls
  simp only [WalLog.performAll, performAll_append, bind_eq_ok] at hcalls
  obtain ⟨_, hbegin, _, hstored, _, hroot, _, hcommit, hnext⟩ := hcalls
  cases hnext
  -- Begin, the objects, the root and the Commit, one after the other.
  obtain ⟨encoded, happends, _, _, _, _, hactive, _⟩ := begin_appends hbegin
  obtain ⟨_, _, _, hbegun⟩ := h.perform hlz4 hbegin trivial
  obtain ⟨ds, hstoredFollows, _, ⟨more₁, hmore₁⟩, hevents₁, hreads⟩ :=
    preparedObjects_written hlz4 hbegun (by rw [hactive]; rfl) hframes hstored
  obtain ⟨hrooted, ⟨more₂, hmore₂⟩, offset, length, hevents₂⟩ :=
    root_written hlz4 hstoredFollows hroot
  obtain ⟨hcommitted, hinactive, ⟨more₃, hmore₃⟩, beginOffset, offset', length', commit,
    hevents₃⟩ :=
    commit_written hlz4 hrooted hcommit
  refine ⟨⟨ds, [⟨offset, length, ⟨env.encodePrincipal prepared.principal, prepared.expected,
    prepared.root⟩⟩]⟩, hcommitted, hinactive, ⟨encoded ++ (more₁ ++ (more₂ ++ more₃)), ?_⟩,
    ⟨log.writer.sink.length, sequence, env.scheme, none, beginOffset, offset', length', commit,
      ?_⟩, ⟨offset, length, rfl⟩, ?_⟩
  · rw [hmore₃, hmore₂, hmore₁, happends.sink]
    simp only [append_assoc]
  · rw [hevents₃, hevents₂, hevents₁, happends.events]
    simp [rootEvent]
  · rw [hmore₃, hmore₂, append_assoc]
    exact hreads.imp fun _ _ hread => hread.append

end Astrid
