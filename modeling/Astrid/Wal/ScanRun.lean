import Astrid.Wal.RoundTrip
import Astrid.Wal.Scan

/-!
# Runs of the WAL scanner

What one event can be: a complete record that the open transaction accepts, or a
stop. `RecordAt` says that a complete, valid record lies at an offset; it depends
only on the bytes of the record, so it survives any change behind them. A scan is
then a sequence of records (`Reached`) and one stop (`scan_ok`).
-/

namespace Astrid

variable {P : Type} {env : WalEnv P}

/-! ## One record -/

/-- A complete, valid record between `offset` and `stop`. -/
structure RecordAt (env : WalEnv P) (bytes : Bytes) (offset stop : Nat) (record : RecordHeader)
    (body : Bytes) : Prop where
  read : ∃ physical : PhysicalHeader, ∃ payload : Bytes,
    decodePhysicalHeader (slice bytes offset physicalHeaderLen) = some physical ∧
    stop = offset + physicalHeaderLen + physical.payloadLen ∧
    physical.payloadLen ≤ walPhysicalLimit env ∧
    slice bytes (offset + physicalHeaderLen) physical.payloadLen = payload ∧
    checksumValid env physical payload = true ∧
    decodeRecordHeader payload offset = .ok record ∧
    validateRecordVersion physical record offset = .ok () ∧
    recordBody payload = body
  body_le : body.length ≤ env.maxFrameBytes
  fits : stop ≤ bytes.length
  bounded : stop < wordLimit

variable {bytes : Bytes} {offset : Nat} {record : RecordHeader} {body : Bytes} {stop : Nat}

theorem RecordAt.lt (h : RecordAt env bytes offset stop record body) :
    offset + physicalHeaderLen ≤ stop := by
  obtain ⟨_, _, _, _, _⟩ := h.read
  omega

/-- A record does not depend on what follows it. -/
theorem RecordAt.take {limit : Nat} (h : RecordAt env bytes offset stop record body)
    (hlimit : stop ≤ limit) : RecordAt env (bytes.take limit) offset stop record body := by
  obtain ⟨physical, payload, hphys, hstop, hsize, hpayload, hrest⟩ := h.read
  refine ⟨⟨physical, payload, ?_, hstop, hsize, ?_, hrest⟩, h.body_le, ?_, h.bounded⟩
  · rw [slice_take (by omega)]
    exact hphys
  · rw [slice_take (by omega)]
    exact hpayload
  · rw [List.length_take]
    exact le_min hlimit h.fits

variable {s s' : ScanState} {event : WalEvent}

/-- A valid record that the transaction accepts is the next event. -/
theorem nextEvent_record (h : RecordAt env bytes s.offset stop record body)
    (hfin : s.finished = false)
    (hconsume : consumeRecord env { s with offset := stop } s.offset record body =
      .ok (event, s')) : nextEvent env bytes s = .ok (some event, s') := by
  obtain ⟨physical, _, hphys, hstop, _, hpayload, hsum, hrecord, hversion, hbody⟩ :=
    h.read
  have hfits := h.fits
  have hpos : 0 < physicalHeaderLen := by decide
  have hadd : checkedAdd (s.offset + physicalHeaderLen) physical.payloadLen = some stop := by
    rw [checkedAdd_eq_some]
    exact ⟨hstop.symm, h.bounded⟩
  unfold nextEvent
  rw [if_neg (by simp [hfin]), if_neg (by omega), if_neg (by omega), hphys]
  dsimp only
  rw [hadd]
  dsimp only
  rw [if_neg (by omega), if_neg (by omega), hpayload, hsum]
  unfold consumePayload
  rw [hrecord, ok_bind, hversion, hbody, validateLogicalBody_ok h.body_le, ok_bind, hconsume]
  rfl

/-- The scanner stops, at a tail or at a clean end. -/
def Stops (s : ScanState) (out : Option WalEvent) (s' : ScanState) : Prop :=
  ∃ offset kind force, tailOrEnd { s with offset } s.offset kind force = (out, s')

variable {out : Option WalEvent}

theorem Stops.of {kind : WalTailKind} {force : Bool}
    (h : tailOrEnd s s.offset kind force = (out, s')) : Stops s out s' :=
  ⟨s.offset, kind, force, h⟩

theorem badPhysical_ok (h : badPhysical env bytes { s with offset } s.offset = .ok (out, s')) :
    Stops s out s' := by
  unfold badPhysical at h
  split at h
  next => cases h
  next => exact ⟨offset, .invalidChecksum, true, Except.ok.inj h⟩

/-- What one event can be. -/
theorem nextEvent_cases (h : nextEvent env bytes s = .ok (out, s')) (hfin : s.finished = false) :
    (∃ stop record body event, RecordAt env bytes s.offset stop record body ∧
      consumeRecord env { s with offset := stop } s.offset record body = .ok (event, s') ∧
      out = some event) ∨ Stops s out s' := by
  unfold nextEvent at h
  rw [hfin, if_neg (by decide)] at h
  split at h
  next => exact .inr (.of (Except.ok.inj h))
  split at h
  next => exact .inr (.of (Except.ok.inj h))
  next hheader =>
    split at h
    next => exact .inr (badPhysical_ok h)
    next physical hphys =>
      split at h
      · cases h
      rename_i payloadEnd hadd
      rw [checkedAdd_eq_some] at hadd
      obtain ⟨hend, hbound⟩ := hadd
      split at h
      next =>
        split at h
        next => cases h
        next => exact .inr (.of (Except.ok.inj h))
      next hfits =>
        split at h
        next => split at h <;> cases h
        next hsize =>
          split at h
          next => exact .inr (badPhysical_ok h)
          next hsum =>
            -- The only way on: the payload is a record the transaction accepts.
            refine .inl ?_
            unfold consumePayload at h
            simp only [bind_eq_ok] at h
            obtain ⟨record, hrecord, _, hversion, _, hbody, ⟨event, s''⟩, hconsume, hout⟩ := h
            cases hout
            refine ⟨payloadEnd, record, _, event, ⟨⟨physical, _, hphys, hend.symm, by omega, rfl,
              by simpa using hsum, hrecord, hversion, rfl⟩, ?_, by omega, hbound⟩, hconsume, rfl⟩
            unfold validateLogicalBody at hbody
            split at hbody
            next => cases hbody
            next hle => omega

/-- What consuming a record can be. -/
inductive Consumed (env : WalEnv P) (s : ScanState) (offset : Nat) (record : RecordHeader)
    (body : Bytes) : WalEvent → ScanState → Prop
  | begin {event : WalEvent} {active : ActiveScan} (hactive : s.active = none)
      (h : consumeBegin env s.lastSequence offset record body = .ok (event, active)) :
      Consumed env s offset record body event { s with active := some active }
  | object {active : ActiveScan} {event : WalEvent} {tx : ActiveTx}
      (hactive : s.active = some active) (hsequence : record.sequence = active.tx.sequence)
      (hordinal : record.ordinal = active.tx.nextOrdinal) (hkind : record.kind = .object)
      (h : consumeObject env active.tx offset (s.offset - offset) record.flags body =
        .ok (event, tx)) :
      Consumed env s offset record body event { s with active := some { active with tx } }
  | root {active : ActiveScan} {event : WalEvent} {tx : ActiveTx}
      (hactive : s.active = some active) (hsequence : record.sequence = active.tx.sequence)
      (hordinal : record.ordinal = active.tx.nextOrdinal) (hkind : record.kind = .root)
      (h : consumeRoot env active.tx offset (s.offset - offset) body = .ok (event, tx)) :
      Consumed env s offset record body event { s with active := some { active with tx } }
  | commit {active : ActiveScan} {commit : CommitBody}
      (hactive : s.active = some active) (hsequence : record.sequence = active.tx.sequence)
      (hordinal : record.ordinal = active.tx.nextOrdinal) (hkind : record.kind = .commit)
      (h : consumeCommit env active.tx offset body = .ok commit) :
      Consumed env s offset record body
        (.commit active.beginOffset offset (s.offset - offset) commit)
        { s with lastSequence := some commit.sequence, active := none }

theorem consumeRecord_ok (h : consumeRecord env s offset record body = .ok (event, s')) :
    Consumed env s offset record body event s' := by
  unfold consumeRecord at h
  split at h
  next hactive =>
    simp only [bind_eq_ok] at h
    obtain ⟨⟨event', active⟩, hbegin, hout⟩ := h
    cases hout
    exact .begin hactive hbegin
  next active hactive =>
    simp only [bind_eq_ok, require_eq_ok] at h
    obtain ⟨_, hsequence, _, hordinal, h⟩ := h
    split at h
    next => cases h
    next hkind =>
      simp only [bind_eq_ok] at h
      obtain ⟨⟨event', tx⟩, hobject, hout⟩ := h
      cases hout
      exact .object hactive hsequence hordinal hkind hobject
    next hkind =>
      simp only [bind_eq_ok] at h
      obtain ⟨⟨_, _⟩, hroot, hout⟩ := h
      cases hout
      exact .root hactive hsequence hordinal hkind hroot
    next hkind =>
      simp only [bind_eq_ok] at h
      obtain ⟨commit, hcommit, hout⟩ := h
      cases hout
      exact .commit hactive hsequence hordinal hkind hcommit

/-- A record moves only the transaction; position and end markers stay. -/
theorem Consumed.frame (h : Consumed env s offset record body event s') :
    s'.offset = s.offset ∧ s'.finished = s.finished ∧ s'.resumeOffset = s.resumeOffset := by
  cases h <;> exact ⟨rfl, rfl, rfl⟩

theorem Stops.finished (h : Stops s out s') :
    s'.finished = true := by
  obtain ⟨_, _, _, h⟩ := h
  unfold tailOrEnd at h
  split at h <;> cases h <;> rfl

/-! ## Scans -/

theorem nextEvent_finished (h : s.finished = true) :
    nextEvent env bytes s = .ok (none, s) := by
  unfold nextEvent
  rw [if_pos h]

/-- What is left to read. -/
def ScanState.left (bytes : Bytes) (s : ScanState) : Nat :=
  if s.finished then 0 else bytes.length - s.offset + 1

theorem nextEvent_shrinks (h : nextEvent env bytes s = .ok (some event, s')) :
    s'.left bytes < s.left bytes := by
  by_cases hfin : s.finished = true
  · rw [nextEvent_finished hfin] at h
    cases h
  have hfin : s.finished = false := by simpa using hfin
  have hpos : 0 < physicalHeaderLen := by decide
  rcases nextEvent_cases h hfin with ⟨_, _, _, _, hrec, hconsume, _⟩ | hstops
  · obtain ⟨hoffset, hfinished, _⟩ := (consumeRecord_ok hconsume).frame
    have hlt := hrec.lt
    have hfits := hrec.fits
    simp only [ScanState.left, hfin, hfinished, hoffset, Bool.false_eq_true, if_false]
    omega
  · simp [ScanState.left, hfin, hstops.finished]

/-- One turn of `while let Some(event) = scanner.next_event()?`, which collects the
events. -/
def scanTurn (env : WalEnv P) (bytes : Bytes) (state : List WalEvent × ScanState) :
    Turn (List WalEvent × ScanState) (Except WalError (List WalEvent × ScanState)) :=
  match nextEvent env bytes state.2 with
  | .error e => .stop (.error e)
  | .ok (none, s') => .stop (.ok (state.1, s'))
  | .ok (some event, s') => .again (state.1 ++ [event], s')

def scanLoop (env : WalEnv P) (bytes : Bytes) :
    Loop (List WalEvent × ScanState) (Except WalError (List WalEvent × ScanState)) where
  turn := scanTurn env bytes
  size state := state.2.left bytes
  shrinks := by
    intro state state' h
    unfold scanTurn at h
    split at h
    next => cases h
    next => cases h
    next event s' hnext =>
      cases h
      exact nextEvent_shrinks hnext

/-- Scan a whole stream. -/
def scan (env : WalEnv P) (bytes : Bytes) : Except WalError (List WalEvent × ScanState) :=
  (scanLoop env bytes).run ([], .start)

/-- The states and events a scan goes through before it stops. -/
inductive Reached (env : WalEnv P) (bytes : Bytes) : List WalEvent → ScanState → Prop
  | start : Reached env bytes [] .start
  | record {events : List WalEvent} {s s' : ScanState} {stop : Nat} {record : RecordHeader}
      {body : Bytes} {event : WalEvent} (h : Reached env bytes events s)
      (hrecord : RecordAt env bytes s.offset stop record body)
      (hconsume : consumeRecord env { s with offset := stop } s.offset record body =
        .ok (event, s')) : Reached env bytes (events ++ [event]) s'

variable {events : List WalEvent}

theorem Reached.running (h : Reached env bytes events s) :
    s.finished = false ∧ s.offset ≤ bytes.length := by
  induction h with
  | start => exact ⟨rfl, Nat.zero_le _⟩
  | record _ hrecord hconsume ih =>
    obtain ⟨hoffset, hfinished, _⟩ := (consumeRecord_ok hconsume).frame
    rw [hoffset, hfinished]
    exact ⟨ih.1, hrecord.fits⟩

theorem run_event (h : nextEvent env bytes s = .ok (some event, s')) :
    (scanLoop env bytes).run (events, s) = (scanLoop env bytes).run (events ++ [event], s') := by
  apply Loop.run_again
  show scanTurn env bytes (events, s) = _
  unfold scanTurn
  rw [h]

theorem run_end (h : nextEvent env bytes s = .ok (none, s')) :
    (scanLoop env bytes).run (events, s) = .ok (events, s') := by
  apply Loop.run_stop
  show scanTurn env bytes (events, s) = _
  unfold scanTurn
  rw [h]

/-- The scan goes through every reached state. -/
theorem Reached.run_eq (h : Reached env bytes events s) :
    scan env bytes = (scanLoop env bytes).run (events, s) := by
  induction h with
  | start => rfl
  | record hreached hrecord hconsume ih =>
    rw [ih]
    exact run_event (nextEvent_record hrecord hreached.running.1 hconsume)

/-- An error at a reached state is the result of the scan. -/
theorem Reached.scan_error {e : WalError} (h : Reached env bytes events s)
    (hnext : nextEvent env bytes s = .error e) : scan env bytes = .error e := by
  rw [h.run_eq]
  apply Loop.run_stop
  show scanTurn env bytes (events, s) = _
  unfold scanTurn
  rw [hnext]

/-- A stop at a reached state ends the scan. -/
theorem Reached.scan_stop (h : Reached env bytes events s)
    (hnext : nextEvent env bytes s = .ok (out, s')) (hfin : s'.finished = true) :
    scan env bytes = .ok (events ++ out.toList, s') := by
  rw [h.run_eq]
  cases out with
  | none =>
    rw [run_end hnext, Option.toList_none, List.append_nil]
  | some =>
    rw [run_event hnext, run_end (nextEvent_finished hfin)]
    rfl

/-- The result of a scan: a reached state and one stop. -/
def ScanEnds (env : WalEnv P) (bytes : Bytes) (events : List WalEvent) (s' : ScanState) : Prop :=
  ∃ streamed s out, Reached env bytes streamed s ∧ nextEvent env bytes s = .ok (out, s') ∧
    Stops s out s' ∧ events = streamed ++ out.toList

/-- Until it stops a scan is at a reached state; after a tail it is one stop behind one. -/
def ScanAt (env : WalEnv P) (bytes : Bytes) (state : List WalEvent × ScanState) : Prop :=
  Reached env bytes state.1 state.2 ∨ (state.2.finished = true ∧ ScanEnds env bytes state.1 state.2)

theorem ScanAt.again (h : ScanAt env bytes (events, s))
    (hnext : nextEvent env bytes s = .ok (some event, s')) :
    ScanAt env bytes (events ++ [event], s') := by
  rcases h with hreached | ⟨hfin, _⟩
  · rcases nextEvent_cases hnext hreached.running.1 with
      ⟨stop, record, body, event', hrec, hconsume, hevent⟩ | hstops
    · cases hevent
      exact .inl (.record hreached hrec hconsume)
    · exact .inr ⟨hstops.finished, events, s, some event, hreached, hnext, hstops, rfl⟩
  · rw [nextEvent_finished hfin] at hnext
    cases hnext

theorem ScanAt.ends (h : ScanAt env bytes (events, s))
    (hnext : nextEvent env bytes s = .ok (none, s')) : ScanEnds env bytes events s' := by
  rcases h with hreached | ⟨hfin, hends⟩
  · rcases nextEvent_cases hnext hreached.running.1 with ⟨_, _, _, _, _, _, hevent⟩ | hstops
    · cases hevent
    · exact ⟨events, s, none, hreached, hnext, hstops, by simp⟩
  · rw [nextEvent_finished hfin] at hnext
    cases hnext
    exact hends

/-- A successful scan is a reached state and one stop. -/
theorem scan_ok (h : scan env bytes = .ok (events, s')) : ScanEnds env bytes events s' := by
  have hrun := (scanLoop env bytes).run_induct (I := ScanAt env bytes)
    (Q := fun _ result => ∀ events s', result = .ok (events, s') → ScanEnds env bytes events s')
    ?_ ?_ ([], .start) (.inl .start)
  · exact hrun events s' h
  · intro state state' hstate hturn
    refine ⟨?_, fun _ hQ => hQ⟩
    change scanTurn env bytes state = _ at hturn
    unfold scanTurn at hturn
    split at hturn
    next => cases hturn
    next => cases hturn
    next event s'' hnext =>
      cases hturn
      exact hstate.again hnext
  · intro state result hstate hturn events s' hresult
    change scanTurn env bytes state = _ at hturn
    unfold scanTurn at hturn
    split at hturn
    next =>
      cases hturn
      cases hresult
    next s'' hnext =>
      cases hturn
      cases hresult
      exact hstate.ends hnext
    next => cases hturn

end Astrid
