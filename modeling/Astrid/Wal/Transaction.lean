import Astrid.Wal.ScanRun

/-!
# What a scan accepts

The transaction grammar, stated about the records of a stream and not about the
scanner: a Begin with ordinal zero, objects in increasing id order, at least one
root in increasing principal order, consecutive ordinals, one sequence number, and
a Commit that counts and digests them. `OpenTransaction.counters` is what the
scanner must have counted; the scanner's own counters are exactly that
(`ScanShape`), so every Commit it lets through closes such a transaction.

Every decision about a record reads only that record, so the stream cut at the end
of the last Commit scans to the same transactions (`Reached.take`).
-/

namespace Astrid

open List Option

variable {P : Type} {env : WalEnv P} {bytes : Bytes} {body : Bytes} {event : WalEvent}

/-! ## Records of a transaction -/

/-- One record of a stream, with its place in it. -/
structure Frame where
  offset : Nat
  stop : Nat
  header : RecordHeader
  body : Bytes

def Frame.logicalBytes (frame : Frame) : Nat := recordHeaderLen + frame.body.length

def Frame.digestBytes (frame : Frame) : Bytes :=
  digestRecordWithFlags frame.header.kind frame.header.flags frame.header.sequence
    frame.header.ordinal frame.body

/-- Records that follow each other without a gap, from `start` to `stop`. -/
def Contiguous (start : Nat) : List Frame → Nat → Prop
  | [], stop => start = stop
  | frame :: frames, stop => frame.offset = start ∧ Contiguous frame.stop frames stop

theorem Contiguous.append : ∀ {frames rest : List Frame} {start middle stop : Nat},
    Contiguous start frames middle → Contiguous middle rest stop →
    Contiguous start (frames ++ rest) stop
  | [], _, _, _, _, h, h' => h ▸ h'
  | _ :: _, _, _, _, _, h, h' => ⟨h.1, Contiguous.append h.2 h'⟩

theorem Contiguous.snoc {frames : List Frame} {start : Nat} (frame : Frame)
    (h : Contiguous start frames frame.offset) : Contiguous start (frames ++ [frame]) frame.stop :=
  h.append ⟨rfl, rfl⟩

/-- Records of one sequence number with consecutive ordinals from zero. -/
structure Framed {P : Type} (env : WalEnv P) (bytes : Bytes) (sequence : WalSequence)
    (frames : List Frame) : Prop where
  present : ∀ frame ∈ frames, RecordAt env bytes frame.offset frame.stop frame.header frame.body
  one_sequence : ∀ frame ∈ frames, frame.header.sequence = sequence
  ordinals : frames.map (fun frame => frame.header.ordinal) = List.range frames.length

variable {frame : Frame}

theorem Framed.snoc {P : Type} {env : WalEnv P} {bytes : Bytes} {sequence : WalSequence}
    {frames : List Frame} (h : Framed env bytes sequence frames)
    (hpresent : RecordAt env bytes frame.offset frame.stop frame.header frame.body)
    (hsequence : frame.header.sequence = sequence)
    (hordinal : frame.header.ordinal = frames.length) :
    Framed env bytes sequence (frames ++ [frame]) := by
  refine ⟨?_, ?_, ?_⟩
  · exact forall_mem_append.2 ⟨h.present, forall_mem_singleton.2 hpresent⟩
  · exact forall_mem_append.2 ⟨h.one_sequence, forall_mem_singleton.2 hsequence⟩
  · rw [map_append, h.ordinals, length_append, length_singleton,
      range_succ, map_singleton, hordinal]

structure ObjectEntry where
  frame : Frame
  id : Digest
  logicalBytes : Nat

structure RootEntry where
  frame : Frame
  transition : WalRootTransition

/-- A transaction without its Commit. -/
structure OpenTransaction where
  first : Frame
  hints : Option WalBeginHints
  objects : List ObjectEntry
  roots : List RootEntry

namespace OpenTransaction

def frames (t : OpenTransaction) : List Frame :=
  t.first :: (t.objects.map ObjectEntry.frame ++ t.roots.map RootEntry.frame)

def sequence (t : OpenTransaction) : WalSequence := t.first.header.sequence

section

variable (t : OpenTransaction)

def ids : List Digest := t.objects.map ObjectEntry.id

def principals : List Bytes :=
  t.roots.map fun root => root.transition.principal

def withObject (object : ObjectEntry) : OpenTransaction :=
  { t with objects := t.objects ++ [object] }

def withRoot (root : RootEntry) : OpenTransaction :=
  { t with roots := t.roots ++ [root] }

end

theorem frames_withObject {t : OpenTransaction} (h : t.roots = []) (object : ObjectEntry) :
    (t.withObject object).frames = t.frames ++ [object.frame] := by
  simp [withObject, frames, h]

theorem frames_withRoot (t : OpenTransaction) (root : RootEntry) :
    (t.withRoot root).frames = t.frames ++ [root.frame] := by
  simp [withRoot, frames]

/-- What a reader of the transaction has counted when it is at its end. -/
def counters (env : WalEnv P) (t : OpenTransaction) : ActiveTx where
  sequence := t.sequence
  scheme := env.scheme
  nextOrdinal := t.frames.length
  objectCount := t.objects.length
  rootCount := t.roots.length
  logicalCount := t.frames.length
  logicalBytes := (t.frames.map Frame.logicalBytes).sum
  hasher := t.frames.flatMap Frame.digestBytes
  previousObject := t.ids.getLast?
  previousPrincipal := t.principals.getLast?
  sawRoot := !t.roots.isEmpty

def events (env : WalEnv P) (t : OpenTransaction) : List WalEvent :=
  .begin t.first.offset t.sequence env.scheme t.hints ::
    (t.objects.map (fun object => .object object.frame.offset
        (object.frame.stop - object.frame.offset) object.id object.logicalBytes) ++
      t.roots.map fun root => .root root.frame.offset (root.frame.stop - root.frame.offset)
        root.transition)

/-- The transaction grammar, up to the Commit. -/
structure WellFormed (env : WalEnv P) (bytes : Bytes) (t : OpenTransaction) : Prop where
  framed : Framed env bytes t.sequence t.frames
  first_kind : t.first.header.kind = .begin
  first_body : decodeBeginBody t.first.body t.first.offset = .ok (env.scheme, t.hints)
  object_kind : ∀ object ∈ t.objects, object.frame.header.kind = .object
  object_body : ∀ object ∈ t.objects, ∃ canonical,
    decodeObjectStorageBody env object.frame.body object.frame.header.flags object.frame.offset =
      .ok canonical ∧
    decodeObjectBody env canonical env.scheme object.frame.offset =
      .ok (object.id, object.logicalBytes)
  root_kind : ∀ root ∈ t.roots, root.frame.header.kind = .root
  root_body : ∀ root ∈ t.roots,
    decodeRootBody env root.frame.body env.scheme root.frame.offset = .ok root.transition
  ids_increase : t.ids.Pairwise fun left right => compare left right = .lt
  principals_increase : t.principals.Pairwise fun left right => compare left right = .lt

end OpenTransaction

/-- A transaction with its Commit. -/
structure WalTransaction where
  opened : OpenTransaction
  last : Frame
  commit : CommitBody

namespace WalTransaction

def frames (t : WalTransaction) : List Frame := t.opened.frames ++ [t.last]

def commitEvent (t : WalTransaction) : WalEvent :=
  .commit t.opened.first.offset t.last.offset (t.last.stop - t.last.offset) t.commit

def events (env : WalEnv P) (t : WalTransaction) : List WalEvent :=
  t.opened.events env ++ [t.commitEvent]

/-- A well-formed transaction: the Commit counts, measures and digests the records
before it. -/
structure WellFormed (env : WalEnv P) (bytes : Bytes) (t : WalTransaction) : Prop where
  opened : t.opened.WellFormed env bytes
  some_root : t.opened.roots ≠ []
  present : RecordAt env bytes t.last.offset t.last.stop t.last.header t.last.body
  kind : t.last.header.kind = .commit
  body : decodeCommitBody t.last.body t.last.offset = .ok t.commit
  header_sequence : t.last.header.sequence = t.opened.sequence
  ordinal : t.last.header.ordinal = t.opened.frames.length
  sequence : t.commit.sequence = t.opened.sequence
  logicalCount : t.commit.logicalCount = t.opened.frames.length
  objectCount : t.commit.objectCount = t.opened.objects.length
  rootCount : t.commit.rootCount = t.opened.roots.length
  logicalBytes : t.commit.logicalBytes = (t.opened.frames.map Frame.logicalBytes).sum
  digest : t.commit.digest = env.digest (t.opened.frames.flatMap Frame.digestBytes)

end WalTransaction

/-! ## One record -/

section Steps

variable {offset : Nat} {record : RecordHeader}

theorem RecordAt.flags_eq_zero {stop : Nat} (h : RecordAt env bytes offset stop record body)
    (hkind : record.kind ≠ .object) : record.flags = 0 := by
  obtain ⟨_, payload, _, _, _, _, _, hrecord, _⟩ := h.read
  unfold decodeRecordHeader at hrecord
  split at hrecord
  next => cases hrecord
  split at hrecord
  · cases hrecord
  dsimp only at hrecord
  split at hrecord
  · cases hrecord
  rename_i hflags
  split at hrecord
  · cases hrecord
  cases hrecord
  by_contra hne
  exact hflags (.inr (.inr ⟨hkind, hne⟩))

theorem logicalRecordLength_ok {length : Nat} (h : logicalRecordLength body = .ok length) :
    length = recordHeaderLen + body.length := by
  unfold logicalRecordLength at h
  split at h
  · cases h
  rename_i hadd
  cases h
  exact (checkedAdd_eq_some.1 hadd).1.symm

theorem checkedInc_ok {count next : Nat} {field : String}
    (h : checkedInc count field = .ok next) : next = count + 1 :=
  (checkedAdd_eq_some.1 (okOr_eq_ok.1 h)).1.symm

/-- An accepted Begin opens a transaction of the grammar. -/
theorem consumeBegin_ok {lastSequence : Option WalSequence} {stop : Nat} {event : WalEvent}
    {active : ActiveScan} (hrecord : RecordAt env bytes offset stop record body)
    (h : consumeBegin env lastSequence offset record body = .ok (event, active)) :
    ∃ t : OpenTransaction, t.WellFormed env bytes ∧ t.frames = [⟨offset, stop, record, body⟩] ∧
      active = ⟨t.first.offset, t.counters env⟩ ∧ t.events env = [event] ∧
      ∀ last ∈ lastSequence, last.value < t.sequence.value := by
  unfold consumeBegin at h
  simp only [bind_eq_ok, require_eq_ok] at h
  obtain ⟨_, ⟨hkind, hordinal⟩, _, hadvances, ⟨_, hints⟩, hbody, h⟩ := h
  obtain ⟨_, hscheme, _, hlength, hout⟩ := h
  obtain rfl := logicalRecordLength_ok hlength
  subst hscheme
  cases hout
  have hflags := hrecord.flags_eq_zero (by rw [hkind]; decide)
  refine ⟨⟨⟨offset, stop, record, body⟩, hints, [], []⟩,
    ⟨⟨?_, ?_, ?_⟩, hkind, hbody, ?_, ?_, ?_, ?_,
    .nil, .nil⟩, rfl, ?_, rfl, ?_⟩
  · intro frame hframe
    obtain rfl := mem_singleton.1 hframe
    exact hrecord
  · intro frame hframe
    obtain rfl := mem_singleton.1 hframe
    rfl
  · show [record.ordinal] = [0]
    rw [hordinal]
  · intro object hobject
    cases hobject
  · intro object hobject
    cases hobject
  · intro root hroot
    cases hroot
  · intro root hroot
    cases hroot
  · simp [OpenTransaction.counters, OpenTransaction.frames, OpenTransaction.sequence,
      OpenTransaction.ids, OpenTransaction.principals, Frame.logicalBytes, Frame.digestBytes,
      hkind, hflags]
  · intro last hlast
    obtain rfl := mem_def.1 hlast
    exact require_eq_ok.1 hadvances

/-- The transaction `t'` is `t` with one record more. -/
structure OpenTransaction.Grows (env : WalEnv P) (bytes : Bytes) (t : OpenTransaction)
    (frame : Frame) (event : WalEvent) (t' : OpenTransaction) : Prop where
  wellFormed : t'.WellFormed env bytes
  sequence : t'.sequence = t.sequence
  first : t'.first.offset = t.first.offset
  frames : t'.frames = t.frames ++ [frame]
  events : t'.events env = t.events env ++ [event]

variable {t : OpenTransaction} {stop : Nat} {tx : ActiveTx} (ht : t.WellFormed env bytes)
  (hrecord : RecordAt env bytes offset stop record body) (hsequence : record.sequence = t.sequence)
  (hordinal : record.ordinal = t.frames.length)

include ht hrecord hsequence hordinal

/-- An accepted object extends the transaction. -/
theorem consumeObject_ok (hkind : record.kind = .object)
    (h : consumeObject env (t.counters env) offset (stop - offset) record.flags body =
      .ok (event, tx)) :
    ∃ t', t.Grows env bytes ⟨offset, stop, record, body⟩ event t' ∧ tx = t'.counters env := by
  unfold consumeObject at h
  simp only [bind_eq_ok, require_eq_ok, okOr_eq_ok] at h
  obtain ⟨_, hnoroot, canonical, hstorage, ⟨id, bodyLength⟩, hbody, _, hincreasing, _, hcount,
    _, hlength, _, htotal, _, hnext, _, hlogical, hout⟩ := h
  obtain rfl := logicalRecordLength_ok hlength
  obtain rfl := checkedInc_ok hcount
  obtain rfl := checkedInc_ok hnext
  obtain rfl := checkedInc_ok hlogical
  obtain ⟨rfl, _⟩ := checkedAdd_eq_some.1 htotal
  cases hout
  have hroots : t.roots = [] := by simpa [OpenTransaction.counters] using hnoroot
  have hframes := t.frames_withObject hroots ⟨⟨offset, stop, record, body⟩, id, bodyLength⟩
  refine ⟨t.withObject ⟨⟨offset, stop, record, body⟩, id, bodyLength⟩, ⟨⟨?_, ht.first_kind,
    ht.first_body, ?_, ?_, ht.root_kind, ht.root_body, ?_, ht.principals_increase⟩, rfl, rfl,
    hframes, ?_⟩, ?_⟩
  · rw [hframes]
    exact ht.framed.snoc hrecord hsequence hordinal
  · exact forall_mem_append.2 ⟨ht.object_kind, forall_mem_singleton.2 hkind⟩
  · exact forall_mem_append.2
      ⟨ht.object_body, forall_mem_singleton.2 ⟨canonical, hstorage, hbody⟩⟩
  · show ((t.objects ++ [_]).map ObjectEntry.id).Pairwise _
    rw [map_append]
    exact pairwise_snoc Std.TransCmp.lt_trans ht.ids_increase hincreasing
  · simp [OpenTransaction.events, OpenTransaction.withObject, OpenTransaction.sequence, hroots]
  · simp only [OpenTransaction.counters, hframes]
    simp [OpenTransaction.withObject, OpenTransaction.ids, OpenTransaction.sequence,
      OpenTransaction.principals, Frame.logicalBytes, Frame.digestBytes, hkind]
    rw [hordinal, hsequence]
    rfl

/-- An accepted root extends the transaction. -/
theorem consumeRoot_ok (hkind : record.kind = .root)
    (h : consumeRoot env (t.counters env) offset (stop - offset) body = .ok (event, tx)) :
    ∃ t', t.Grows env bytes ⟨offset, stop, record, body⟩ event t' ∧ tx = t'.counters env := by
  unfold consumeRoot at h
  simp only [bind_eq_ok, require_eq_ok, okOr_eq_ok] at h
  obtain ⟨transition, hbody, _, hincreasing, _, hcount, _, hlength, _, htotal, _,
    hnext, _, hlogical, hout⟩ := h
  obtain rfl := logicalRecordLength_ok hlength
  obtain rfl := checkedInc_ok hcount
  obtain rfl := checkedInc_ok hnext
  obtain rfl := checkedInc_ok hlogical
  obtain ⟨rfl, _⟩ := checkedAdd_eq_some.1 htotal
  cases hout
  have hflags := hrecord.flags_eq_zero (by rw [hkind]; decide)
  have hframes := t.frames_withRoot ⟨⟨offset, stop, record, body⟩, transition⟩
  refine ⟨t.withRoot ⟨⟨offset, stop, record, body⟩, transition⟩, ⟨⟨?_, ht.first_kind,
    ht.first_body, ht.object_kind, ht.object_body, ?_, ?_, ht.ids_increase, ?_⟩, rfl, rfl,
    hframes, ?_⟩, ?_⟩
  · rw [hframes]
    exact ht.framed.snoc hrecord hsequence hordinal
  · exact forall_mem_append.2 ⟨ht.root_kind, forall_mem_singleton.2 hkind⟩
  · exact forall_mem_append.2 ⟨ht.root_body, forall_mem_singleton.2 hbody⟩
  · show ((t.roots ++ [_]).map fun root : RootEntry => root.transition.principal).Pairwise _
    rw [map_append]
    exact pairwise_snoc Std.TransCmp.lt_trans ht.principals_increase hincreasing
  · simp [OpenTransaction.events, OpenTransaction.withRoot, OpenTransaction.sequence]
  · simp only [OpenTransaction.counters, hframes]
    simp [OpenTransaction.withRoot, OpenTransaction.ids, OpenTransaction.sequence,
      OpenTransaction.principals, Frame.logicalBytes, Frame.digestBytes, hkind, hflags]
    rw [hordinal, hsequence]
    rfl

/-- An accepted Commit closes the transaction. -/
theorem consumeCommit_ok {commit : CommitBody} (hkind : record.kind = .commit)
    (h : consumeCommit env (t.counters env) offset body = .ok commit) :
    (⟨t, ⟨offset, stop, record, body⟩, commit⟩ : WalTransaction).WellFormed env bytes := by
  unfold consumeCommit at h
  simp only [bind_eq_ok, require_eq_ok] at h
  obtain ⟨_, hroots, _, hbody, _, hseq, _, hlogical, _, hobjects, _, hrootCount, _, hbytes, _,
    hdigest, hout⟩ := h
  cases hout
  have hsome : t.roots ≠ [] := by simpa [OpenTransaction.counters] using hroots
  exact ⟨ht, hsome, hrecord, hkind, hbody, hsequence, hordinal, hseq, hlogical, hobjects,
    hrootCount, hbytes, hdigest⟩

end Steps

/-! ## Whole scans -/

section Scans

/-- Where a scan is: behind closed transactions that end at `resume`, and inside at
most one open one. -/
structure ScanShape (env : WalEnv P) (bytes : Bytes) (events : List WalEvent) (s : ScanState)
    (txs : List WalTransaction) (pending : Option OpenTransaction) (resume : Nat) : Prop where
  running : s.finished = false ∧ s.resumeOffset = none
  events_eq : events = txs.flatMap (fun tx => tx.events env) ++
    pending.elim [] fun t => t.events env
  active_eq : s.active = pending.map fun t => ⟨t.first.offset, t.counters env⟩
  closed : ∀ tx ∈ txs, tx.WellFormed env bytes
  opened : ∀ t ∈ pending, t.WellFormed env bytes ∧
    ∀ last ∈ s.lastSequence, last.value < t.sequence.value
  last_eq : s.lastSequence = (txs.map fun tx => tx.commit.sequence).getLast?
  increasing : (txs.map fun tx => tx.commit.sequence).Pairwise fun a b => a.value < b.value
  closed_contiguous : Contiguous 0 (txs.flatMap fun tx => tx.frames) resume
  open_contiguous : Contiguous resume (pending.elim [] fun t => t.frames) s.offset
  reached : Reached env bytes (txs.flatMap fun tx => tx.events env)
    ⟨resume, s.lastSequence, none, false, none⟩

theorem scanShape_start : ScanShape env bytes [] .start [] none 0 where
  running := ⟨rfl, rfl⟩
  events_eq := rfl
  active_eq := rfl
  closed := by simp
  opened := by simp
  last_eq := rfl
  increasing := .nil
  closed_contiguous := rfl
  open_contiguous := rfl
  reached := .start

variable {s : ScanState} {txs : List WalTransaction} {resume : Nat} {events : List WalEvent}
  {pending : Option OpenTransaction}

/-- The open transaction the scanner is counting. -/
theorem ScanShape.pending_some {active : ActiveScan}
    (h : ScanShape env bytes events s txs pending resume) (hactive : s.active = some active) :
    ∃ t, pending = some t ∧ active = ⟨t.first.offset, t.counters env⟩ := by
  have heq := h.active_eq
  rw [hactive] at heq
  cases pending with
  | none => cases heq
  | some t => exact ⟨t, rfl, Option.some.inj heq⟩

/-- The open transaction grows by one record. -/
theorem ScanShape.grow {t t' : OpenTransaction}
    (h : ScanShape env bytes events s txs (some t) resume) (hoffset : frame.offset = s.offset)
    (hgrows : t.Grows env bytes frame event t') :
    ScanShape env bytes (events ++ [event])
      { s with offset := frame.stop, active := some ⟨t.first.offset, t'.counters env⟩ }
      txs (some t') resume where
  __ := h
  events_eq := by
    rw [h.events_eq, append_assoc]
    show _ = _ ++ t'.events env
    rw [hgrows.events]
    rfl
  active_eq := by
    show some (⟨t.first.offset, _⟩ : ActiveScan) = some ⟨t'.first.offset, _⟩
    rw [hgrows.first]
  opened := by
    intro t'' ht''
    obtain rfl := mem_some.1 ht''
    rw [hgrows.sequence]
    exact ⟨hgrows.wellFormed, (h.opened t rfl).2⟩
  open_contiguous := by
    show Contiguous resume t'.frames frame.stop
    rw [hgrows.frames]
    apply Contiguous.snoc
    rw [hoffset]
    exact h.open_contiguous

variable {s' : ScanState}

theorem scanShape_record {stop : Nat} {record : RecordHeader} {body : Bytes}
    (h : ScanShape env bytes events s txs pending resume) (hreached : Reached env bytes events s)
    (hrecord : RecordAt env bytes s.offset stop record body)
    (hconsume : consumeRecord env { s with offset := stop } s.offset record body =
      .ok (event, s')) :
    ∃ txs' pending' resume', ScanShape env bytes (events ++ [event]) s' txs' pending' resume' := by
  have hreached' := hreached.record hrecord hconsume
  have hcases := consumeRecord_ok hconsume
  cases hcases with
  | begin hactive hbegin =>
    have hnone : pending = none := by
      have heq := h.active_eq
      rw [show s.active = none from hactive] at heq
      exact map_eq_none_iff.1 heq.symm
    subst hnone
    obtain ⟨t, hwf, hframes, rfl, hevents, hlast⟩ := consumeBegin_ok hrecord hbegin
    refine ⟨txs, some t, resume, h.running, ?_, rfl, h.closed, ?_, h.last_eq, h.increasing,
      h.closed_contiguous, ?_, h.reached⟩
    · rw [h.events_eq]
      show _ ++ [] ++ [event] = _ ++ t.events env
      rw [hevents, append_nil]
    · intro t' ht'
      obtain rfl := mem_some.1 ht'
      exact ⟨hwf, hlast⟩
    · have hresume : resume = s.offset := h.open_contiguous
      show Contiguous resume t.frames stop
      rw [hframes]
      exact ⟨hresume.symm, rfl⟩
  | object hactive hsequence hordinal hkind hobject =>
    obtain ⟨t, rfl, rfl⟩ := h.pending_some hactive
    obtain ⟨t', hgrows, rfl⟩ :=
      consumeObject_ok (h.opened t rfl).1 hrecord hsequence hordinal hkind hobject
    exact ⟨txs, some t', resume, h.grow rfl hgrows⟩
  | root hactive hsequence hordinal hkind hroot =>
    obtain ⟨t, rfl, rfl⟩ := h.pending_some hactive
    obtain ⟨t', hgrows, rfl⟩ :=
      consumeRoot_ok (h.opened t rfl).1 hrecord hsequence hordinal hkind hroot
    exact ⟨txs, some t', resume, h.grow rfl hgrows⟩
  | @commit _ commit hactive hsequence hordinal hkind hcommit =>
    obtain ⟨t, rfl, rfl⟩ := h.pending_some hactive
    have hwf := consumeCommit_ok (h.opened t rfl).1 hrecord hsequence hordinal hkind hcommit
    have hevents : events ++ [WalEvent.commit t.first.offset s.offset (stop - s.offset) commit] =
        (txs ++ [(⟨t, ⟨s.offset, stop, record, body⟩, commit⟩ : WalTransaction)]).flatMap
          fun tx => tx.events env := by
      rw [h.events_eq, append_assoc]
      simp [WalTransaction.events, WalTransaction.commitEvent]
    refine ⟨txs ++ [⟨t, ⟨s.offset, stop, record, body⟩, commit⟩], none, stop, h.running, ?_, rfl,
      ?_, by simp, ?_, ?_, ?_, rfl, ?_⟩
    · rw [← hevents]
      exact (append_nil _).symm
    · exact forall_mem_append.2 ⟨h.closed, forall_mem_singleton.2 hwf⟩
    · simp
    · rw [map_append]
      refine pairwise_snoc (fun {a b c} (hab : a.value < b.value) hbc => hab.trans hbc)
        h.increasing ?_
      rw [← h.last_eq]
      show ∀ last ∈ s.lastSequence, last.value < commit.sequence.value
      rw [show commit.sequence = t.sequence from hwf.sequence]
      exact (h.opened t rfl).2
    · rw [flatMap_append]
      refine h.closed_contiguous.append ?_
      have hopen : Contiguous resume t.frames s.offset := h.open_contiguous
      simpa [WalTransaction.frames] using Contiguous.snoc ⟨s.offset, stop, record, body⟩ hopen
    · rw [← hevents]
      have hstate := hreached'
      rw [h.running.1, h.running.2] at hstate
      exact hstate

theorem Reached.shape (h : Reached env bytes events s) :
    ∃ txs pending resume, ScanShape env bytes events s txs pending resume := by
  induction h with
  | start => exact ⟨[], none, 0, scanShape_start⟩
  | record hreached hrecord hconsume ih =>
    obtain ⟨_, _, _, hshape⟩ := ih
    exact scanShape_record hshape hreached hrecord hconsume

/-- What was read before `limit` is read again from the stream cut there. -/
theorem Reached.take (h : Reached env bytes events s) {limit : Nat} (hlimit : s.offset ≤ limit) :
    Reached env (bytes.take limit) events s := by
  induction h with
  | start => exact .start
  | record _ hrecord hconsume ih =>
    obtain ⟨hoffset, _, _⟩ := (consumeRecord_ok hconsume).frame
    rw [hoffset] at hlimit
    dsimp only at hlimit
    have hlt := hrecord.lt
    exact .record (ih (by omega)) (hrecord.take hlimit) hconsume

/-- A stop resumes at the end of the closed transactions. -/
theorem ScanShape.stop {out : Option WalEvent} (h : ScanShape env bytes events s txs pending resume)
    (hstops : Stops s out s') :
    s'.resumeOffset = some resume ∧ s'.lastSequence = s.lastSequence ∧
      (∀ event ∈ out, ∃ kind, event = .tail resume kind) := by
  have hopen := h.open_contiguous
  obtain ⟨offset, _, force, hstop⟩ := hstops
  unfold tailOrEnd at hstop
  rw [h.active_eq] at hstop
  cases pending with
  | none =>
    have hresume : resume = s.offset := hopen
    subst hresume
    cases force with
    | false | true =>
      cases hstop
      exact ⟨rfl, rfl, by simp⟩
  | some t =>
    have hresume : t.first.offset = resume := hopen.1
    subst hresume
    cases hstop
    exact ⟨rfl, rfl, by simp⟩

/-- A stream cut at the end of its closed transactions scans to a clean end. -/
theorem ScanShape.rescan (h : ScanShape env bytes events s txs pending resume) :
    scan env (bytes.take resume) = .ok (txs.flatMap fun tx => tx.events env,
      ⟨resume, s.lastSequence, none, true, some resume⟩) := by
  have hreached := h.reached.take (le_refl resume)
  have hlength : (bytes.take resume).length ≤ resume := by
    rw [length_take]
    exact min_le_left _ _
  have hnext : nextEvent env (bytes.take resume) ⟨resume, s.lastSequence, none, false, none⟩ =
      .ok (none, ⟨resume, s.lastSequence, none, true, some resume⟩) := by
    unfold nextEvent
    rw [if_pos hlength]
    rfl
  have hscan := hreached.scan_stop hnext rfl
  rw [hscan, toList_none, append_nil]

theorem OpenTransaction.not_commit_mem_events (t : OpenTransaction)
    {beginOffset offset length : Nat} {commit : CommitBody} :
    WalEvent.commit beginOffset offset length commit ∉ t.events env := by
  simp [OpenTransaction.events]

/-- The scan of any byte string that ends without an error: its events are those of
well-formed transactions with increasing sequences that fill the string up to the
resume offset, then those of at most one open transaction, then at most one tail.
Every Commit is that of one of these transactions, and the string cut at the resume
offset scans to exactly these transactions, to the same sequence and resume offset,
and to a clean end. -/
theorem scan_sound_and_stable (env : WalEnv P) (bytes : Bytes) (events : List WalEvent)
    (s : ScanState) (h : scan env bytes = .ok (events, s)) :
    ∃ (txs : List WalTransaction) (pending : Option OpenTransaction) (tail : Option WalTailKind)
      (resume : Nat),
      events = txs.flatMap (fun tx => tx.events env) ++
        (pending.elim [] (fun t => t.events env) ++ (tail.map (WalEvent.tail resume)).toList) ∧
      (∀ tx ∈ txs, tx.WellFormed env bytes) ∧
      (∀ beginOffset offset length commit,
        WalEvent.commit beginOffset offset length commit ∈ events →
        ∃ tx ∈ txs, tx.commitEvent = .commit beginOffset offset length commit) ∧
      Contiguous 0 (txs.flatMap fun tx => tx.frames) resume ∧
      (txs.map fun tx => tx.commit.sequence).Pairwise (fun a b => a.value < b.value) ∧
      s.resumeOffset = some resume ∧
      s.lastSequence = (txs.map fun tx => tx.commit.sequence).getLast? ∧
      scan env (bytes.take resume) = .ok (txs.flatMap fun tx => tx.events env,
        ⟨resume, s.lastSequence, none, true, s.resumeOffset⟩) := by
  obtain ⟨_, _, out, hreached, _, hstops, rfl⟩ := scan_ok h
  obtain ⟨txs, pending, resume, hshape⟩ := hreached.shape
  obtain ⟨hresume, hlast, htail⟩ := hshape.stop hstops
  -- The stop is a clean end or a tail at the resume offset.
  have hout : ∃ tail : Option WalTailKind, out = tail.map (WalEvent.tail resume) := by
    cases out with
    | none => exact ⟨none, rfl⟩
    | some event =>
      obtain ⟨kind, rfl⟩ := htail event rfl
      exact ⟨some kind, rfl⟩
  obtain ⟨tail, rfl⟩ := hout
  refine ⟨txs, pending, tail, resume, ?_, hshape.closed, ?_, hshape.closed_contiguous,
    hshape.increasing, hresume, ?_, ?_⟩
  · rw [hshape.events_eq, append_assoc]
  · intro beginOffset offset length commit hmem
    rw [hshape.events_eq] at hmem
    rcases mem_append.1 hmem with hmem | hmem
    · rcases mem_append.1 hmem with hmem | hmem
      · obtain ⟨tx, htx, hevent⟩ := mem_flatMap.1 hmem
        rcases mem_append.1 hevent with hevent | hevent
        · exact absurd hevent tx.opened.not_commit_mem_events
        · exact ⟨tx, htx, (mem_singleton.1 hevent).symm⟩
      · cases pending with
        | none => cases hmem
        | some t => exact absurd hmem t.not_commit_mem_events
    · cases tail <;> simp at hmem
  · rw [hlast, hshape.last_eq]
  · rw [hresume, hlast]
    exact hshape.rescan

/-- One transaction with one root, and two bytes of a torn record behind it. -/
def tornStream : Bytes :=
  physicalRecord .plain 0 (recordHeader .begin 0 1 0 ++ encodeBeginBody WalEnv.plain.scheme none) ++
  physicalRecord .plain 0 (recordHeader .root 0 1 1 ++
    ((encodeRootRecord WalEnv.plain.scheme [7] none ⟨.initial, countedDigest 200⟩).getD [])) ++
  physicalRecord .plain 0 (recordHeader .commit 0 1 2 ++
    encodeCommitBody ⟨⟨1, by decide, by decide⟩, 2, 0, 1, 106, countedDigest 200⟩) ++ [65, 83]

theorem scan_sound_and_stable_tornStream :
    ∃ txs : List WalTransaction, txs ≠ [] ∧ (∀ tx ∈ txs, tx.WellFormed .plain tornStream) ∧
      scan .plain (tornStream.take 354) = .ok (txs.flatMap fun tx => tx.events .plain,
        ⟨354, some ⟨1, by decide, by decide⟩, none, true, some 354⟩) := by
  have h := scan_sound_and_stable .plain tornStream
    [.begin 0 ⟨1, by decide, by decide⟩ WalEnv.plain.scheme none,
      .root 80 130 ⟨[7], none, ⟨.initial, countedDigest 200⟩⟩,
      .commit 0 210 144 ⟨⟨1, by decide, by decide⟩, 2, 0, 1, 106, countedDigest 200⟩,
      .tail 354 .incomplete]
    ⟨354, some ⟨1, by decide, by decide⟩, none, true, some 354⟩ (by decide +kernel)
  obtain ⟨txs, _, _, _, _, hwf, _, _, _, hresume, hlast, hscan⟩ := h
  obtain rfl := Option.some.inj hresume
  refine ⟨txs, ?_, hwf, hscan⟩
  intro hnil
  rw [hnil] at hlast
  cases hlast

end Scans

end Astrid
