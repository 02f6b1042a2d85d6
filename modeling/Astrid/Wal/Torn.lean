import Astrid.Wal.ScanRun
import Astrid.Wal.Writer

/-!
# Torn tails

A writer's stream, cut anywhere, is read back up to the last complete record. The
writer and the scanner keep the same counters, so after every accepted call the
scanner of any stream that starts with the sink is exactly where the writer is
(`Follows`). Behind the last complete record lies a fragment of the next one, and
there the scanner looks for a later record image inside the fragment itself: object
bytes that happen to hold one turn a torn write into interior corruption.
-/

namespace Astrid

open List Option

variable {P : Type} {env : WalEnv P}

/-! ## One written record -/

/-- What the encoder writes, and the bounds it has checked. -/
structure Encoded (env : WalEnv P) (kind : WalRecordKind) (flags : UInt8) (sequence : WalSequence)
    (ordinal : Nat) (body encoded : Bytes) : Prop where
  eq : encoded = physicalRecord env flags (recordHeader kind flags sequence.value ordinal ++ body)
  body_le : body.length ≤ env.maxFrameBytes
  payload_le : recordHeaderLen + body.length ≤ walPhysicalLimit env
  length : encoded.length = physicalHeaderLen + (recordHeaderLen + body.length)
  lt : encoded.length < wordLimit

variable {flags : UInt8} {ordinal : Nat} {encoded : Bytes} {kind : WalRecordKind}
  {sequence : WalSequence} {body : Bytes}

theorem encodePhysicalRecordWithFlags_ok
    (h : encodePhysicalRecordWithFlags env kind flags sequence ordinal body = .ok encoded) :
    Encoded env kind flags sequence ordinal body encoded := by
  unfold encodePhysicalRecordWithFlags at h
  split at h
  · cases h
  rename_i _ hbody
  split at h
  · cases h
  rename_i payloadLen hadd
  obtain ⟨rfl, _⟩ := checkedAdd_eq_some.1 hadd
  split at h
  · cases h
  split at h
  · cases h
  rename_i total htotal
  obtain ⟨_, hlt⟩ := checkedAdd_eq_some.1 htotal
  cases h
  have hlength : (physicalRecord env flags
      (recordHeader kind flags sequence.value ordinal ++ body)).length =
      physicalHeaderLen + (recordHeaderLen + body.length) := by
    unfold physicalRecord
    rw [length_append, length_physicalHeader, length_append, length_recordHeader]
  unfold validateLogicalBody at hbody
  split at hbody
  next => cases hbody
  next hle => exact ⟨rfl, by omega, by omega, hlength, by omega⟩

section

variable (h : Encoded env kind flags sequence ordinal body encoded)

include h

/-- The physical header of a written record. -/
theorem Encoded.header (before after : Bytes) (size : Nat) (hsize : physicalHeaderLen ≤ size) :
    decodePhysicalHeader (slice (before ++ encoded.take size ++ after) before.length
      physicalHeaderLen) = some ⟨if flags = 0 then legacyVersion else compressedObjectVersion,
        recordHeaderLen + body.length,
        env.frameChecksum walMagic (recordHeaderLen + body.length)
          (recordHeader kind flags sequence.value ordinal ++ body)⟩ := by
  have hlt := h.lt
  have hlength := h.length
  have hpayload : (recordHeader kind flags sequence.value ordinal ++ body).length =
      recordHeaderLen + body.length := by
    rw [length_append, length_recordHeader]
  have hslice : slice (before ++ encoded.take size ++ after) before.length physicalHeaderLen =
      physicalHeader (if flags = 0 then legacyVersion else compressedObjectVersion)
        (recordHeaderLen + body.length)
        (env.frameChecksum walMagic (recordHeaderLen + body.length)
          (recordHeader kind flags sequence.value ordinal ++ body)) := by
    rw [h.eq, physicalRecord, hpayload, take_append, take_of_length_le
      (by rw [length_physicalHeader]; exact hsize), append_assoc, append_assoc,
      slice_skip le_rfl, Nat.sub_self, slice_here (length_physicalHeader _ _ _)]
  rw [hslice]
  apply decodePhysicalHeader_physicalHeader
  · split
    · exact .inl rfl
    · exact .inr rfl
  · omega

/-- A written record is a record of every stream that holds it. -/
theorem Encoded.recordAt (hflags : FlagsOk kind flags) (hordinal : ordinal < wordLimit)
    (before after : Bytes) (hfits : before.length + encoded.length < wordLimit) :
    RecordAt env (before ++ encoded ++ after) before.length (before.length + encoded.length)
      ⟨kind, flags, sequence, ordinal⟩ body := by
  have hlength := h.length
  have hheader := h.header before after encoded.length (by omega)
  rw [take_length] at hheader
  refine ⟨⟨_, recordHeader kind flags sequence.value ordinal ++ body, hheader, ?_, h.payload_le,
    ?_, ?_, decodeRecordHeader_recordHeader hflags sequence hordinal body _, ?_,
    recordBody_recordHeader _ _ _ _ _⟩, h.body_le, ?_, hfits⟩
  · show _ = before.length + physicalHeaderLen + (recordHeaderLen + body.length)
    omega
  · have hpayload : (recordHeader kind flags sequence.value ordinal ++ body).length =
        recordHeaderLen + body.length := by
      rw [length_append, length_recordHeader]
    have hhead := length_physicalHeader
    rw [append_assoc, slice_skip (by omega), h.eq, physicalRecord, append_assoc,
      slice_skip (by rw [hhead]; omega), hhead, Nat.add_sub_cancel_left, Nat.sub_self,
      slice_here hpayload]
  · simp [checksumValid]
  · rcases hflags with rfl | ⟨rfl, rfl⟩ <;> rfl
  · rw [length_append, length_append]
    omega

/-- A written record that is cut off: the scanner looks for an image behind its
first byte, and takes the fragment for a tail if there is none. -/
theorem Encoded.nextEvent_torn {before : Bytes} {size : Nat} (hsize : size < encoded.length)
    (hfits : before.length + encoded.length < wordLimit) {s : ScanState}
    (hoffset : s.offset = before.length) (hfin : s.finished = false) :
    nextEvent env (before ++ encoded.take size) s =
      if physicalHeaderLen ≤ size ∧ hasValidPhysical env ((encoded.take size).drop 1) = true then
        .error (.interiorCorruption before.length "incomplete WAL record before a later record")
      else .ok (tailOrEnd s before.length .incomplete (0 < size)) := by
  have hlength := h.length
  have htake : (encoded.take size).length = size := by
    rw [length_take]
    omega
  have hbytes : (before ++ encoded.take size).length = before.length + size := by
    rw [length_append, htake]
  have hpos : 0 < physicalHeaderLen := by decide
  unfold nextEvent
  rw [if_neg (by simp [hfin]), hoffset]
  by_cases hzero : size = 0
  · rw [if_pos (by omega), if_neg (by omega)]
    simp [hzero]
  rw [if_neg (by omega)]
  by_cases hshort : size < physicalHeaderLen
  · rw [if_pos (by omega), if_neg (by omega)]
    simp [Nat.pos_of_ne_zero hzero]
  rw [if_neg (by omega)]
  have hheader := h.header before [] size (by omega)
  rw [append_nil] at hheader
  have hadd : checkedAdd (before.length + physicalHeaderLen) (recordHeaderLen + body.length) =
      some (before.length + encoded.length) := by
    rw [checkedAdd_eq_some]
    omega
  rw [hheader]
  dsimp only
  rw [hadd]
  dsimp only
  have hafter : hasValidPhysicalAfter env (before ++ encoded.take size) (before.length + 1) =
      hasValidPhysical env ((encoded.take size).drop 1) := by
    unfold hasValidPhysicalAfter
    rw [drop_append, drop_eq_nil_of_le (by omega), Nat.add_sub_cancel_left, nil_append]
  rw [if_pos (by omega), hafter]
  simp [Nat.pos_of_ne_zero hzero, not_lt.1 hshort]

end

/-! ## What the writer counts, the scanner counts -/

/-- The counters of a writer fit the words they are written in. -/
structure ActiveTx.Bounded (env : WalEnv P) (tx : ActiveTx) : Prop where
  scheme : tx.scheme = env.scheme
  nextOrdinal : tx.nextOrdinal < wordLimit
  objectCount : tx.objectCount < wordLimit
  rootCount : tx.rootCount < wordLimit
  logicalCount : tx.logicalCount < wordLimit
  logicalBytes : tx.logicalBytes < wordLimit

variable {w w' : WalWriter}

theorem appendEncoded_ok {offset : Nat} (h : w.appendEncoded encoded = .ok (offset, w')) :
    offset = w.sink.length ∧ w' = { w with sink := w.sink ++ encoded } ∧
      w.sink.length + encoded.length < wordLimit := by
  unfold WalWriter.appendEncoded at h
  simp only [bind_eq_ok, okOr_eq_ok, checkedAdd_eq_some] at h
  obtain ⟨_, ⟨rfl, hlt⟩, hout⟩ := h
  cases hout
  exact ⟨rfl, rfl, hlt⟩

theorem logicalRecordLength_lt {length : Nat} (h : logicalRecordLength body = .ok length) :
    length < wordLimit := by
  unfold logicalRecordLength at h
  split at h
  · cases h
  rename_i hadd
  cases h
  obtain ⟨rfl, hlt⟩ := checkedAdd_eq_some.1 hadd
  exact hlt

theorem checkedInc_lt {count next : Nat} {field : String}
    (h : checkedInc count field = .ok next) : next < wordLimit := by
  obtain ⟨rfl, hlt⟩ := checkedAdd_eq_some.1 (okOr_eq_ok.1 h)
  exact hlt

/-- One accepted call: the record it appends, and what the scanner makes of it. -/
structure Appends (env : WalEnv P) (log next : WalLog) (encoded : Bytes) (event : WalEvent) :
    Prop where
  record : ∃ kind flags sequence ordinal body,
    Encoded env kind flags sequence ordinal body encoded ∧ FlagsOk kind flags ∧
    ordinal < wordLimit ∧
    consumeRecord env ⟨log.writer.sink.length + encoded.length, log.writer.lastSequence,
      log.writer.active.map (ActiveScan.mk log.beginOffset), false, none⟩ log.writer.sink.length
      ⟨kind, flags, sequence, ordinal⟩ body =
      .ok (event, ⟨log.writer.sink.length + encoded.length, next.writer.lastSequence,
        next.writer.active.map (ActiveScan.mk next.beginOffset), false, none⟩)
  sink : next.writer.sink = log.writer.sink ++ encoded
  fits : log.writer.sink.length + encoded.length < wordLimit
  events : next.events = log.events ++ [event]

variable {log next : WalLog}

theorem begin_appends {hints : Option WalBeginHints}
    (h : log.perform env (.begin sequence hints) = .ok next) :
    ∃ encoded, Appends env log next encoded
      (.begin log.writer.sink.length sequence env.scheme hints) ∧
      log.writer.active = none ∧ next.beginOffset = log.writer.sink.length ∧
      next.writer.lastSequence = log.writer.lastSequence ∧
      ∃ tx, next.writer.active = some tx ∧ tx.Bounded env := by
  simp only [WalLog.perform, WalWriter.begin, bind_eq_ok, require_eq_ok] at h
  obtain ⟨_, ⟨_, hactive, _, hadvances, length, hlength, encoded, hencode, ⟨_, _⟩, happend,
    hw⟩, hnext⟩ := h
  obtain ⟨rfl, rfl, hfits⟩ := appendEncoded_ok happend
  cases hw
  cases hnext
  have hzero : 0 < wordLimit := by decide
  have hone : 1 < wordLimit := by decide
  refine ⟨encoded, ⟨⟨.begin, 0, sequence, 0, _, encodePhysicalRecordWithFlags_ok hencode,
    .inl rfl, hzero, ?_⟩, rfl, hfits, rfl⟩, hactive, rfl, rfl, _, rfl, rfl, hone, hzero, hzero,
    hone, logicalRecordLength_lt hlength⟩
  have hbegin : consumeBegin env log.writer.lastSequence log.writer.sink.length
      ⟨.begin, 0, sequence, 0⟩ (encodeBeginBody env.scheme hints) = .ok
        (.begin log.writer.sink.length sequence env.scheme hints, ⟨log.writer.sink.length,
          sequence, env.scheme, 1, 0, 0, 1, length,
          digestRecordWithFlags .begin 0 sequence 0 (encodeBeginBody env.scheme hints),
          none, none, false⟩) := by
    simp only [consumeBegin, bind_eq_ok, require_eq_ok]
    exact ⟨(), by simp, (), hadvances, (env.scheme, hints),
      decodeBeginBody_encode env.scheme hints _, (), rfl, length, hlength, rfl⟩
  unfold consumeRecord
  rw [hactive]
  rw [hbegin]
  rfl

variable {tx : ActiveTx} {id : Digest} {d : WalObjectDescriptor}

/-- The scanner takes an object as the writer appended it. -/
theorem appendObjectBody_ok (hlz4 : Lz4RoundTrip env) (hcanonical : CanonicalObject env id body)
    (htx : tx.Bounded env) (h : w.appendObjectBody env tx id body = .ok (d, w')) :
    ∃ encoded flags stored tx', d = ⟨w.sink.length, encoded.length, id, body.length⟩ ∧
      w' = { w with sink := w.sink ++ encoded, active := some tx' } ∧
      Encoded env .object flags tx.sequence tx.nextOrdinal stored encoded ∧
      FlagsOk .object flags ∧ w.sink.length + encoded.length < wordLimit ∧ tx'.Bounded env ∧
      (∀ offset, decodeObjectStorageBody env stored flags offset = .ok body) ∧
      consumeObject env tx w.sink.length encoded.length flags stored =
        .ok (.object w.sink.length encoded.length id body.length, tx') := by
  simp only [WalWriter.appendObjectBody, bind_eq_ok, require_eq_ok, okOr_eq_ok] at h
  obtain ⟨_, hbody, _, ⟨hnoroot, hincreasing⟩, count, hcount, length, hlength, total, htotal,
    logical, hlogical, next, hnext, encoded, hencode, ⟨_, _⟩, happend, hout⟩ := h
  obtain ⟨rfl, rfl, hfits⟩ := appendEncoded_ok happend
  cases hout
  have hle : body.length ≤ env.maxFrameBytes := by
    unfold validateLogicalBody at hbody
    split at hbody
    next => cases hbody
    next hle => omega
  refine ⟨encoded, _, _, _, rfl, rfl, encodePhysicalRecordWithFlags_ok hencode,
    flagsOk_storage env body, hfits, ⟨htx.scheme, checkedInc_lt hnext, checkedInc_lt hcount,
    htx.rootCount, checkedInc_lt hlogical, (checkedAdd_eq_some.1 htotal).1 ▸
      (checkedAdd_eq_some.1 htotal).2⟩, decodeObjectStorageBody_encode hlz4 hle, ?_⟩
  have hdecode := decodeObjectBody_canonical hcanonical
    (hle.trans_lt env.maxFrameBytes_lt) w.sink.length
  rw [← htx.scheme] at hdecode
  simp only [consumeObject, bind_eq_ok, require_eq_ok, okOr_eq_ok]
  exact ⟨(), hnoroot, body, decodeObjectStorageBody_encode hlz4 hle _, (id, body.length), hdecode,
    (), hincreasing, count, hcount, length, hlength, total, htotal, next, hnext, logical, hlogical,
    rfl⟩

/-- The scanner takes a root as the writer appended it. -/
theorem appendRoot_ok {principal : P} {expected : Option (RootState Digest)}
    {replacement : RootState Digest} (hactive : w.active = some tx) (htx : tx.Bounded env)
    (h : w.appendRoot env principal expected replacement = .ok w') :
    ∃ encoded body tx', w' = { w with sink := w.sink ++ encoded, active := some tx' } ∧
      Encoded env .root 0 tx.sequence tx.nextOrdinal body encoded ∧
      w.sink.length + encoded.length < wordLimit ∧ tx'.Bounded env ∧
      consumeRoot env tx w.sink.length encoded.length body = .ok (.root w.sink.length encoded.length
          ⟨env.encodePrincipal principal, expected, replacement⟩, tx') := by
  simp only [WalWriter.appendRoot, bind_eq_ok, require_eq_ok, okOr_eq_ok] at h
  obtain ⟨tx₀, htx₀, ⟨principalBytes, body⟩, hbody, _, hincreasing, count, hcount, length, hlength,
    total, htotal, logical, hlogical, next, hnext, encoded, hencode, ⟨offset, w''⟩, happend,
    hout⟩ := h
  obtain rfl : tx = tx₀ := Option.some.inj (hactive.symm.trans htx₀)
  obtain ⟨rfl, rfl, hfits⟩ := appendEncoded_ok happend
  cases hout
  have hencoded := encodePhysicalRecordWithFlags_ok hencode
  refine ⟨encoded, body, _, rfl, hencoded, hfits, ⟨htx.scheme, checkedInc_lt hnext,
    htx.objectCount, checkedInc_lt hcount, checkedInc_lt hlogical,
    (checkedAdd_eq_some.1 htotal).1 ▸ (checkedAdd_eq_some.1 htotal).2⟩, ?_⟩
  have hdecode : principalBytes = env.encodePrincipal principal ∧
      decodeRootBody env body tx.scheme w.sink.length =
        .ok ⟨env.encodePrincipal principal, expected, replacement⟩ := by
    unfold encodeRootBody at hbody
    split at hbody
    · cases hbody
    rename_i hgeneration
    dsimp only at hbody
    split at hbody
    · cases hbody
    rename_i hprincipal
    split at hbody
    · cases hbody
    rename_i payload hpayload
    cases hbody
    rw [htx.scheme] at hpayload ⊢
    exact ⟨rfl, decodeRootBody_encode hpayload hprincipal (by simpa using hgeneration)
      (hencoded.body_le.trans_lt env.maxFrameBytes_lt) _⟩
  obtain ⟨rfl, hdecode⟩ := hdecode
  simp only [consumeRoot, bind_eq_ok, require_eq_ok, okOr_eq_ok]
  exact ⟨_, hdecode, (), hincreasing, count, hcount, length, hlength, total, htotal, next, hnext,
    logical, hlogical, rfl⟩

/-- The scanner accepts the Commit the writer appended. -/
theorem finishCommit_ok {d : WalCommitDescriptor} (hactive : w.active = some tx)
    (htx : tx.Bounded env) (h : w.finishCommit env = .ok (d, w')) :
    ∃ encoded body, d = ⟨w.sink.length, encoded.length, WalWriter.commitBody env tx⟩ ∧
      w'.sink = w.sink ++ encoded ∧ w'.active = none ∧ w'.lastSequence = some tx.sequence ∧
      Encoded env .commit 0 tx.sequence tx.nextOrdinal body encoded ∧
      w.sink.length + encoded.length < wordLimit ∧
      consumeCommit env tx w.sink.length body = .ok (WalWriter.commitBody env tx) := by
  simp only [WalWriter.finishCommit, bind_eq_ok, require_eq_ok, okOr_eq_ok] at h
  obtain ⟨tx₀, htx₀, _, hroot, _, _, encoded, hencode, ⟨_, _⟩, happend,
    hout⟩ := h
  obtain rfl : tx = tx₀ := Option.some.inj (hactive.symm.trans htx₀)
  obtain ⟨rfl, rfl, hfits⟩ := appendEncoded_ok happend
  cases hout
  refine ⟨encoded, _, rfl, rfl, rfl, rfl, encodePhysicalRecordWithFlags_ok hencode, hfits, ?_⟩
  have hdecode : decodeCommitBody (encodeCommitBody (WalWriter.commitBody env tx)) w.sink.length =
      .ok (WalWriter.commitBody env tx) :=
    decodeCommitBody_encode htx.logicalCount htx.objectCount htx.rootCount htx.logicalBytes _
  simp only [consumeCommit, bind_eq_ok, require_eq_ok]
  exact ⟨(), hroot, _, hdecode, (), rfl, (), rfl, (), rfl, (), rfl, (), rfl, (), rfl, rfl⟩

/-! ## Runs of the writer -/

/-- Where a Commit ends, and the sequence it commits. -/
def committedOf : WalEvent → Option (Nat × WalSequence)
  | .commit _ offset length commit => some (offset + length, commit.sequence)
  | _ => none

/-- The last complete transaction of a stream. -/
def lastCommitted (events : List WalEvent) : Option (Nat × WalSequence) :=
  (events.filterMap committedOf).getLast?

/-- Where the last complete transaction ends. -/
def committedEnd (events : List WalEvent) : Nat := ((lastCommitted events).map Prod.fst).getD 0

variable {event : WalEvent} {events : List WalEvent}

theorem lastCommitted_snoc_none (h : committedOf event = none) :
    lastCommitted (events ++ [event]) = lastCommitted events := by
  unfold lastCommitted
  rw [filterMap_append, filterMap_cons_none h, filterMap_nil, append_nil]

theorem lastCommitted_snoc_some {committed : Nat × WalSequence}
    (h : committedOf event = some committed) :
    lastCommitted (events ++ [event]) = some committed := by
  unfold lastCommitted
  rw [filterMap_append, filterMap_cons_some h]
  simp

/-- The scanner is where the writer is, in every stream that starts with the sink. -/
structure Follows (env : WalEnv P) (log : WalLog) : Prop where
  reached : ∀ after, Reached env (log.writer.sink ++ after) log.events
    ⟨log.writer.sink.length, log.writer.lastSequence,
      log.writer.active.map (ActiveScan.mk log.beginOffset), false, none⟩
  bounded : ∀ tx ∈ log.writer.active, tx.Bounded env
  last : (lastCommitted log.events).map Prod.snd = log.writer.lastSequence
  closed : committedEnd log.events =
    if log.writer.active.isSome then log.beginOffset else log.writer.sink.length

theorem follows_new : Follows env .new where
  reached _ := .start
  bounded := by
    intro tx htx
    cases htx
  last := rfl
  closed := rfl

/-- How a call moves the marks of the last complete transaction. -/
def Marks (log next : WalLog) (event : WalEvent) : Prop :=
  (committedOf event = none ∧ next.writer.lastSequence = log.writer.lastSequence ∧
    next.writer.active.isSome ∧ next.beginOffset =
      if log.writer.active.isSome then log.beginOffset else log.writer.sink.length) ∨
  (∃ sequence, committedOf event = some (next.writer.sink.length, sequence) ∧
    next.writer.lastSequence = some sequence ∧ next.writer.active = none)

theorem Follows.step (h : Follows env log) (happends : Appends env log next encoded event)
    (hbounded : ∀ tx ∈ next.writer.active, tx.Bounded env) (hmarks : Marks log next event) :
    Follows env next := by
  refine ⟨?_, hbounded, ?_, ?_⟩
  · intro after
    obtain ⟨_, _, sequence, _, _, hencoded, hflags, hordinal, hconsume⟩ :=
      happends.record
    have hrecord := hencoded.recordAt hflags hordinal log.writer.sink after happends.fits
    have hreached := h.reached (encoded ++ after)
    rw [← append_assoc] at hreached
    rw [happends.sink, happends.events, length_append]
    exact hreached.record hrecord hconsume
  · rw [happends.events]
    rcases hmarks with ⟨hevent, hlast, _, _⟩ | ⟨sequence, hevent, hlast, _⟩
    · rw [lastCommitted_snoc_none hevent, hlast]
      exact h.last
    · rw [lastCommitted_snoc_some hevent, hlast]
      rfl
  · unfold committedEnd
    rw [happends.events]
    rcases hmarks with ⟨hevent, _, hactive, hbegin⟩ | ⟨_, hevent, _, hactive⟩
    · rw [lastCommitted_snoc_none hevent, if_pos hactive, hbegin]
      exact h.closed
    · rw [lastCommitted_snoc_some hevent, hactive]
      rfl

/-- An object call, once its body is known to be canonical. -/
theorem object_appends (hlz4 : Lz4RoundTrip env) (h : Follows env log)
    (hactive : log.writer.active = some tx) (hcanonical : CanonicalObject env id body)
    (hcall : log.writer.appendObjectBody env tx id body = .ok (d, w)) :
    ∃ encoded event, Appends env log (log.note w (.object d.offset d.length d.id d.logicalBytes))
        encoded event ∧
      Follows env (log.note w (.object d.offset d.length d.id d.logicalBytes)) := by
  obtain ⟨encoded, flags, stored, tx', rfl, rfl, hencoded, hflags, hfits, hbounded, _, hconsume⟩ :=
    appendObjectBody_ok hlz4 hcanonical (h.bounded tx hactive) hcall
  have happends : Appends env log
      (log.note { log.writer with sink := log.writer.sink ++ encoded, active := some tx' }
        (.object log.writer.sink.length encoded.length id body.length)) encoded
      (.object log.writer.sink.length encoded.length id body.length) := by
    refine ⟨⟨.object, flags, tx.sequence, tx.nextOrdinal, stored, hencoded, hflags,
      (h.bounded tx hactive).nextOrdinal, ?_⟩, rfl, hfits, rfl⟩
    unfold consumeRecord
    rw [hactive]
    dsimp only [map_some]
    rw [require_pos rfl, require_pos rfl, ok_bind, Nat.add_sub_cancel_left, hconsume]
    rfl
  refine ⟨encoded, _, happends, h.step happends ?_ (.inl ⟨rfl, rfl, rfl, ?_⟩)⟩
  · intro tx'' htx''
    cases htx''
    exact hbounded
  · rw [hactive]
    rfl

/-- What the private producer of prepared frames promises. -/
def PreparedCanonical (env : WalEnv P) : WalCall P → Prop
  | .preparedObject id body => CanonicalObject env id body
  | _ => True

theorem encodeObjectBody_canonical {record : ObjectRecord Digest} {scheme : IdentityScheme}
    (hscheme : scheme = env.scheme) (h : encodeObjectBody env scheme id record = .ok body) :
    CanonicalObject env id body := by
  unfold encodeObjectBody at h
  split at h
  · cases h
  rename_i hid
  split at h
  · cases h
  rename_i bytes hframe
  cases h
  refine ⟨record, hscheme ▸ hframe, ?_⟩
  by_contra hne
  exact hid (.inr hne)

/-- One accepted call appends one record, and the scanner follows. -/
theorem Follows.perform (hlz4 : Lz4RoundTrip env) {call : WalCall P} (h : Follows env log)
    (hcall : log.perform env call = .ok next) (hprepared : PreparedCanonical env call) :
    ∃ encoded event, Appends env log next encoded event ∧ Follows env next := by
  cases call with
  | begin =>
    obtain ⟨encoded, happends, hactive, hbegin, hlast, tx, htx, hbounded⟩ := begin_appends hcall
    refine ⟨encoded, _, happends, h.step happends ?_ (.inl ⟨rfl, hlast, by rw [htx]; rfl, ?_⟩)⟩
    · intro tx' htx'
      rw [htx] at htx'
      cases htx'
      exact hbounded
    · rw [hactive]
      exact hbegin
  | object =>
    simp only [WalLog.perform, WalWriter.appendObject, bind_eq_ok, okOr_eq_ok] at hcall
    obtain ⟨⟨d, w⟩, ⟨tx, hactive, body, hbody, happend⟩, hnext⟩ := hcall
    cases hnext
    have hcanonical := encodeObjectBody_canonical (h.bounded tx hactive).scheme hbody
    exact object_appends hlz4 h hactive hcanonical happend
  | preparedObject =>
    simp only [WalLog.perform, WalWriter.appendPreparedObject, bind_eq_ok, okOr_eq_ok] at hcall
    obtain ⟨⟨d, w⟩, ⟨tx, hactive, _, _, happend⟩, hnext⟩ := hcall
    cases hnext
    exact object_appends hlz4 h hactive hprepared happend
  | root principal expected replacement =>
    simp only [WalLog.perform, bind_eq_ok] at hcall
    obtain ⟨w, happend, hnext⟩ := hcall
    cases hnext
    obtain ⟨tx, hactive⟩ : ∃ tx, log.writer.active = some tx := by
      simp only [WalWriter.appendRoot, bind_eq_ok, okOr_eq_ok] at happend
      obtain ⟨tx, hactive, _⟩ := happend
      exact ⟨tx, hactive⟩
    obtain ⟨encoded, body, tx', rfl, hencoded, hfits, hbounded, hconsume⟩ :=
      appendRoot_ok hactive (h.bounded tx hactive) happend
    rw [length_append, Nat.add_sub_cancel_left]
    have happends : Appends env log
        (log.note { log.writer with sink := log.writer.sink ++ encoded, active := some tx' }
          (.root log.writer.sink.length encoded.length
            ⟨env.encodePrincipal principal, expected, replacement⟩)) encoded
        (.root log.writer.sink.length encoded.length
          ⟨env.encodePrincipal principal, expected, replacement⟩) := by
      refine ⟨⟨.root, 0, tx.sequence, tx.nextOrdinal, body, hencoded, .inl rfl,
        (h.bounded tx hactive).nextOrdinal, ?_⟩, rfl, hfits, rfl⟩
      unfold consumeRecord
      rw [hactive]
      dsimp only [map_some]
      rw [require_pos rfl, require_pos rfl, ok_bind, Nat.add_sub_cancel_left, hconsume]
      rfl
    refine ⟨encoded, _, happends, h.step happends ?_ (.inl ⟨rfl, rfl, rfl, ?_⟩)⟩
    · intro tx'' htx''
      cases htx''
      exact hbounded
    · rw [hactive]
      rfl
  | commit =>
    simp only [WalLog.perform, bind_eq_ok] at hcall
    obtain ⟨⟨_, w⟩, hfinish, hnext⟩ := hcall
    cases hnext
    obtain ⟨tx, hactive⟩ : ∃ tx, log.writer.active = some tx := by
      simp only [WalWriter.finishCommit, bind_eq_ok, okOr_eq_ok] at hfinish
      obtain ⟨tx, hactive, _⟩ := hfinish
      exact ⟨tx, hactive⟩
    obtain ⟨encoded, body, rfl, hsink, hclosed, hlast, hencoded, hfits, hconsume⟩ :=
      finishCommit_ok hactive (h.bounded tx hactive) hfinish
    have happends : Appends env log
        (log.note w (.commit log.beginOffset log.writer.sink.length encoded.length
          (WalWriter.commitBody env tx))) encoded
        (.commit log.beginOffset log.writer.sink.length encoded.length
          (WalWriter.commitBody env tx)) := by
      refine ⟨⟨.commit, 0, tx.sequence, tx.nextOrdinal, body, hencoded, .inl rfl,
        (h.bounded tx hactive).nextOrdinal, ?_⟩, hsink, hfits, rfl⟩
      unfold consumeRecord
      rw [hactive]
      dsimp only [map_some, WalLog.note]
      rw [require_pos rfl, require_pos rfl, ok_bind, Nat.add_sub_cancel_left, hconsume, hclosed,
        hlast]
      rfl
    refine ⟨encoded, _, happends, h.step happends ?_ (.inr ⟨tx.sequence, ?_, hlast, hclosed⟩)⟩
    · intro tx'' htx''
      rw [show (log.note w _).writer.active = none from hclosed] at htx''
      cases htx''
    · show some (log.writer.sink.length + encoded.length, tx.sequence) = some (w.sink.length, _)
      rw [hsink, length_append]

/-- Later calls only append. -/
theorem performAll_prefix (hlz4 : Lz4RoundTrip env) (calls : List (WalCall P)) (log last : WalLog)
    (h : Follows env log) (hprepared : ∀ call ∈ calls, PreparedCanonical env call)
    (hcalls : log.performAll env calls = .ok last) :
    ∃ more, last.writer.sink = log.writer.sink ++ more := by
  induction calls generalizing log last with
  | nil =>
    cases hcalls
    exact ⟨[], (append_nil _).symm⟩
  | cons call _ ih =>
    simp only [WalLog.performAll, bind_eq_ok] at hcalls
    obtain ⟨next, hcall, hcalls⟩ := hcalls
    obtain ⟨encoded, _, happends, hnext⟩ := h.perform hlz4 hcall (hprepared call (by simp))
    obtain ⟨more, hmore⟩ :=
      ih next last hnext (forall_mem_cons.1 hprepared).2 hcalls
    exact ⟨encoded ++ more, by rw [hmore, happends.sink, append_assoc]⟩

/-- Where a cut falls: behind the records within it lies a proper fragment of the next
one, or nothing. -/
theorem within_spec (hlz4 : Lz4RoundTrip env) (cut : Nat) (calls : List (WalCall P))
    (log last : WalLog) (h : Follows env log)
    (hprepared : ∀ call ∈ calls, PreparedCanonical env call)
    (hcalls : log.performAll env calls = .ok last) (hcut : log.writer.sink.length ≤ cut) :
    Follows env (log.within env cut calls) ∧ (last.writer.sink.take cut =
      (log.within env cut calls).writer.sink ∨ ∃ next encoded event size,
      Appends env (log.within env cut calls) next encoded event ∧ size < encoded.length ∧
      last.writer.sink.take cut = (log.within env cut calls).writer.sink ++ encoded.take size) := by
  induction calls generalizing log last with
  | nil =>
    cases hcalls
    exact ⟨h, .inl (take_of_length_le hcut)⟩
  | cons call calls ih =>
    simp only [WalLog.performAll, bind_eq_ok] at hcalls
    obtain ⟨next, hcall, hcalls⟩ := hcalls
    have hrest : ∀ c ∈ calls, PreparedCanonical env c :=
      (forall_mem_cons.1 hprepared).2
    obtain ⟨encoded, event, happends, hnext⟩ := h.perform hlz4 hcall (hprepared call (by simp))
    unfold WalLog.within
    rw [hcall]
    dsimp only
    split_ifs with hfits
    · exact ih next last hnext hrest hcalls hfits
    obtain ⟨_, hmore⟩ := performAll_prefix hlz4 calls next last hnext hrest hcalls
    rw [happends.sink, length_append] at hfits
    refine ⟨h, .inr ⟨next, encoded, event, cut - log.writer.sink.length, happends, by omega, ?_⟩⟩
    rw [hmore, happends.sink, append_assoc, take_append,
      take_of_length_le hcut, take_append_of_le_length (by omega)]

/-! ## Images -/

theorem imageAtFront_magic {first : UInt8} {rest : Bytes}
    (h : imageAtFront env (first :: rest) = true) : first = 65 := by
  unfold imageAtFront at h
  split at h
  · cases h
  split at h
  · cases h
  rename_i physical hphys
  unfold decodePhysicalHeader at hphys
  split at hphys
  · cases hphys
  rename_i hmagic
  have hmagic : slice (slice (first :: rest) 0 physicalHeaderLen) 0 8 = walMagic := by
    by_contra hne
    exact hmagic (.inl hne)
  simp only [slice, drop_zero, physicalHeaderLen, take_succ_cons, walMagic, cons.injEq] at hmagic
  exact hmagic.1

variable {bytes : Bytes}

theorem imageAtFront_length (h : imageAtFront env bytes = true) :
    physicalHeaderLen ≤ bytes.length := by
  by_contra hlt
  unfold imageAtFront at h
  rw [if_pos (by omega)] at h
  cases h

/-- The byte search finds an image exactly if there is one. -/
theorem hasValidPhysical_iff :
    hasValidPhysical env bytes = true ↔ ∃ k, imageAtFront env (bytes.drop k) = true := by
  induction bytes with
  | nil =>
    have hnone : ¬ ∃ k, imageAtFront env (([] : Bytes).drop k) = true := by
      intro ⟨k, h⟩
      have hlength := imageAtFront_length h
      rw [drop_nil] at hlength
      exact absurd hlength (by decide)
    simp only [hasValidPhysical, hnone]
    decide
  | cons first rest ih =>
    -- An image starts here or behind the first byte.
    have hsplit : (∃ k, imageAtFront env ((first :: rest).drop k) = true) ↔
        imageAtFront env (first :: rest) = true ∨ ∃ k, imageAtFront env (rest.drop k) = true := by
      refine ⟨?_, ?_⟩
      · intro ⟨k, h⟩
        cases k with
        | zero => exact .inl h
        | succ k => exact .inr ⟨k, h⟩
      · intro h
        rcases h with h | ⟨k, h⟩
        · exact ⟨0, h⟩
        · exact ⟨k + 1, h⟩
    rw [hsplit, ← ih]
    show (if first ≠ 65 then hasValidPhysical env rest
      else if imageAtFront env (first :: rest) then true else hasValidPhysical env rest) = true ↔ _
    by_cases hfirst : first = 65
    · rw [if_neg (by simpa using hfirst)]
      split
      next himage => simp [himage]
      next himage => simp [himage]
    · have hnot : ¬ imageAtFront env (first :: rest) = true := fun h =>
        hfirst (imageAtFront_magic h)
      simp [hnot]

/-! ## Recovery of a torn stream -/

/-- The cut stream is recovered: exactly the records within the cut are reported, then
at most a tail, and the writer resumes behind the last complete transaction. -/
def Recovers (env : WalEnv P) (bytes : Bytes) (kept : WalLog) : Prop :=
  ∃ (tail : Option WalEvent) (s : ScanState), scan env bytes = .ok (kept.events ++ tail.toList, s) ∧
    (∀ event ∈ tail, ∃ kind, event = .tail (committedEnd kept.events) kind) ∧
    s.resumeOffset = some (committedEnd kept.events) ∧
    s.lastSequence = (lastCommitted kept.events).map Prod.snd

/-- A record image lies behind the first byte of the fragment. -/
def HoldsImage (env : WalEnv P) (fragment : Bytes) : Prop :=
  ∃ k, 0 < k ∧ imageAtFront env (fragment.drop k) = true

theorem holdsImage_iff {fragment : Bytes} :
    HoldsImage env fragment ↔ physicalHeaderLen ≤ fragment.length ∧
      hasValidPhysical env (fragment.drop 1) = true := by
  rw [hasValidPhysical_iff]
  refine ⟨?_, ?_⟩
  · intro ⟨k, hpos, himage⟩
    have hlength := imageAtFront_length himage
    rw [length_drop] at hlength
    refine ⟨by omega, k - 1, ?_⟩
    rw [drop_drop, Nat.add_sub_cancel' hpos]
    exact himage
  · intro ⟨_, k, himage⟩
    rw [drop_drop] at himage
    exact ⟨1 + k, by omega, himage⟩

/-- Stopping at the place the writer had reached resumes behind its last complete
transaction. -/
theorem Follows.recovers {kept : WalLog} (h : Follows env kept) (fragment : Bytes)
    (force : Bool)
    (hnext : nextEvent env (kept.writer.sink ++ fragment) ⟨kept.writer.sink.length,
        kept.writer.lastSequence, kept.writer.active.map (ActiveScan.mk kept.beginOffset), false,
        none⟩ =
      .ok (tailOrEnd ⟨kept.writer.sink.length, kept.writer.lastSequence,
        kept.writer.active.map (ActiveScan.mk kept.beginOffset), false, none⟩
        kept.writer.sink.length .incomplete force)) :
    Recovers env (kept.writer.sink ++ fragment) kept := by
  have hclosed := h.closed
  have hreached := h.reached fragment
  unfold Recovers
  rw [h.last]
  cases hactive : kept.writer.active with
  | none =>
    rw [hactive] at hclosed hreached hnext
    rw [hclosed]
    cases force with
    | false => exact ⟨none, _, hreached.scan_stop hnext rfl, by simp, rfl, rfl⟩
    | true => exact ⟨some _, _, hreached.scan_stop hnext rfl, by simp, rfl, rfl⟩
  | some =>
    rw [hactive] at hclosed hreached hnext
    rw [hclosed]
    exact ⟨some _, _, hreached.scan_stop hnext rfl, by simp, rfl, rfl⟩

/-- A writer's stream cut anywhere is recovered exactly if the fragment of the torn
record holds no complete record image of its own. -/
theorem torn_tail_recovers_iff (env : WalEnv P) (hlz4 : Lz4RoundTrip env)
    (calls : List (WalCall P)) (hprepared : ∀ call ∈ calls, PreparedCanonical env call)
    (log : WalLog) (hlog : WalLog.new.performAll env calls = .ok log) (cut : Nat) :
    Recovers env (log.writer.sink.take cut) (WalLog.new.within env cut calls) ↔
      ¬ HoldsImage env ((log.writer.sink.take cut).drop
        (WalLog.new.within env cut calls).writer.sink.length) := by
  obtain ⟨hfollows, hcut⟩ :=
    within_spec hlz4 cut calls .new log follows_new hprepared hlog (Nat.zero_le _)
  generalize WalLog.new.within env cut calls = kept at hfollows hcut ⊢
  rcases hcut with hcut | ⟨_, encoded, _, _, happends, hsize, hcut⟩
  · -- The cut falls between two records.
    have hnone : ¬ HoldsImage env ((log.writer.sink.take cut).drop kept.writer.sink.length) := by
      rw [hcut, drop_length, holdsImage_iff]
      intro h
      exact absurd h.1 (by decide)
    refine iff_of_true ?_ hnone
    rw [hcut, ← append_nil kept.writer.sink]
    refine hfollows.recovers [] false ?_
    unfold nextEvent
    rw [if_neg (by simp), if_pos (by simp)]
  · -- The cut falls inside the record `encoded`.
    rw [hcut, drop_left, holdsImage_iff, length_take, min_eq_left (le_of_lt hsize)]
    obtain ⟨_, _, _, _, _, hencoded, _⟩ := happends.record
    have hnext := hencoded.nextEvent_torn hsize happends.fits
      (s := ⟨kept.writer.sink.length, kept.writer.lastSequence,
        kept.writer.active.map (ActiveScan.mk kept.beginOffset), false, none⟩) rfl rfl
    split_ifs at hnext with himage
    · refine iff_of_false ?_ (not_not_intro himage)
      intro ⟨tail, s, hscan, _⟩
      rw [(hfollows.reached _).scan_error hnext] at hscan
      cases hscan
    · refine iff_of_true ?_ himage
      exact hfollows.recovers _ _ hnext

/-- Counted pairs of bytes: no four bytes in a row stand there twice, so LZ4 gains nothing. -/
def countedBytes : Bytes :=
  (List.range 1500).flatMap fun i => [UInt8.ofNat (i / 256), UInt8.ofNat i]

/-- A chunk that holds a checksummed WAL record, and then bytes that keep it from being
compressed. -/
def recordInChunk : ObjectRecord Digest where
  kind := .chunk
  formatVersion := .v1
  canonicalBytes := physicalRecord .plain 0 [1, 2, 3] ++ countedBytes ++ [0]
  references := []
  logicalBytes := 3056
  cls := .data
  labels := labelsIncrease_nil

/-- A transaction that stores it. -/
def chunkTransaction : List (WalCall UInt8) :=
  [.begin ⟨1, Nat.one_pos, one_lt_wordLimit⟩ none, .object (countedDigest 200) recordInChunk,
    .root 7 none ⟨.initial, countedDigest 200⟩, .commit]

/-- The stream of the transaction, cut inside its root record, is recovered. -/
theorem torn_tail_recovers_iff_root :
    ∃ log, WalLog.new.performAll .plain chunkTransaction = .ok log ∧
      Recovers .plain (log.writer.sink.take 3300)
        (WalLog.new.within .plain 3300 chunkTransaction) := by
  have hrun : (WalLog.new.performAll .plain chunkTransaction).map
    (fun log => hasValidPhysical .plain
      (((log.writer.sink.take 3300).drop
        (WalLog.new.within .plain 3300 chunkTransaction).writer.sink.length).drop 1)) =
      .ok false := by
    decide +kernel
  cases hlog : WalLog.new.performAll .plain chunkTransaction with
  | error =>
    rw [hlog] at hrun
    cases hrun
  | ok log =>
    rw [hlog] at hrun
    refine ⟨log, rfl, (torn_tail_recovers_iff .plain (fun _ => rfl) chunkTransaction ?_ log hlog
      3300).2 ?_⟩
    · intro call hcall
      simp only [chunkTransaction, mem_cons, not_mem_nil, or_false] at hcall
      rcases hcall with rfl | rfl | rfl | rfl <;> trivial
    · rw [holdsImage_iff]
      intro himage
      rw [Except.map, himage.2] at hrun
      cases hrun

/-- The same stream, cut one byte before the end of its object record: the scan is an
error, and nothing is recovered. -/
theorem torn_chunk_not_recovered :
    ∃ log, WalLog.new.performAll .plain chunkTransaction = .ok log ∧
      scan .plain (log.writer.sink.take 3276) =
        .error (.interiorCorruption 80 "incomplete WAL record before a later record") ∧
      ¬ Recovers .plain (log.writer.sink.take 3276)
        (WalLog.new.within .plain 3276 chunkTransaction) := by
  have hrun : (WalLog.new.performAll .plain chunkTransaction).map
      (fun log => scan .plain (log.writer.sink.take 3276)) = .ok
        (.error (.interiorCorruption 80 "incomplete WAL record before a later record")) := by
    decide +kernel
  cases hlog : WalLog.new.performAll .plain chunkTransaction with
  | error =>
    rw [hlog] at hrun
    cases hrun
  | ok log =>
    rw [hlog] at hrun
    have hscan := Except.ok.inj hrun
    dsimp only at hscan
    refine ⟨log, rfl, hscan, ?_⟩
    intro ⟨tail, s, hok, _⟩
    rw [hscan] at hok
    cases hok

end Astrid
