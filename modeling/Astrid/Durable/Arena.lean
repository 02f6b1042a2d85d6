import Astrid.Durable.Journal

/-!
# The object arena and its index

`recover_arena` scans the arena and keeps, for each object, the location of its first frame; reads
then go through that index (`read_indexed_object`), and check the frame again.

A scan that succeeds has read every byte that it leaves in the file: the file after it is the
encoding of the payloads that the callback has seen (`scanFrames_ok`), whatever was there before.
So a recovered arena is a list of object frames, the index holds the first frame of each object
(`recoverArena_ok`), and every indexed object is read back as the record that the scan decoded
(`Indexes.read`).
-/

namespace Astrid

open Std List ExtTreeMap

variable {offset : Nat} {file : Bytes} {payload : Bytes}

/-! ## What a successful scan has read -/

section Scan

variable {f : FrameFormat}

theorem slice_eq_leBytes {bytes : Bytes} {start len x : Nat} (hfits : start + len ≤ bytes.length)
    (h : ofLe (slice bytes start len) = x) : slice bytes start len = leBytes len x := by
  have hround := leBytes_ofLe (slice bytes start len)
  rw [length_slice hfits, h] at hround
  exact hround.symm

variable {checksum : Bytes} {payloadLen : Nat}

/-- An accepted header is the header of its length and checksum. -/
theorem header_of_decode {header : Bytes} (hlength : header.length = frameHeaderLen)
    (hmagic : header.take 8 = f.magic)
    (h : decodeFrameHeader f offset header = .ok (payloadLen, checksum)) :
    header = f.magic ++ (leBytes 2 frameVersion ++
      ([0, 0] ++ (leBytes 8 payloadLen ++ checksum))) := by
  have hlong : header.length = 52 := hlength
  unfold decodeFrameHeader at h
  simp only [bind_eq_ok, require_eq_ok] at h
  obtain ⟨_, hversion, _, hreserved, heq⟩ := h
  cases heq
  have hword : slice header 12 8 = leBytes 8 (ofLe (slice header 12 8)) :=
    slice_eq_leBytes (by omega) rfl
  rw [← hmagic, ← slice_eq_leBytes (by omega) hversion, ← hreserved, ← hword]
  unfold checksumStart
  rw [slice_append_drop header 12 8, slice_append_drop header 10 2, slice_append_drop header 8 2,
    take_append_drop]

/-- At damage the scan ends or fails. -/
theorem truncateUnpublishedTailOrFail_cases (file : Bytes) (protectedLen offset : Nat)
    (knownInterior : Bool) (error : DurableError) :
    truncateUnpublishedTailOrFail f file protectedLen offset knownInterior error = .torn ∨
      ∃ e, truncateUnpublishedTailOrFail f file protectedLen offset knownInterior error =
        .failed e := by
  unfold truncateUnpublishedTailOrFail
  split
  next => exact .inr ⟨_, rfl⟩
  next =>
    split
    next => exact .inr ⟨_, rfl⟩
    next => exact .inr ⟨_, rfl⟩
    next => exact .inl rfl

variable {protectedLen : Nat}

theorem truncateUnpublishedTailOrFail_ne_frame {knownInterior : Bool} {error : DurableError} :
    truncateUnpublishedTailOrFail f file protectedLen offset knownInterior error ≠
      .frame payload := by
  intro h
  rcases truncateUnpublishedTailOrFail_cases (f := f) file protectedLen offset knownInterior error
    with htorn | ⟨e, hfailed⟩
  · rw [htorn] at h
    cases h
  · rw [hfailed] at h
    cases h

/-- A frame that the scan hands on stands in the file. -/
structure FrameAt (f : FrameFormat) (file : Bytes) (offset : Nat) (payload : Bytes) : Prop where
  limit : payload.length ≤ f.maxFrameBytes
  inside : offset + frameHeaderLen + payload.length ≤ file.length
  encoded : file.drop offset =
    encodeFrame f payload ++ file.drop (offset + frameHeaderLen + payload.length)

theorem frameAt_of_header (hmagic : (slice file offset frameHeaderLen).take 8 = f.magic)
    (hdecoded : decodeFrameHeader f offset (slice file offset frameHeaderLen) =
      .ok (payloadLen, checksum)) (hlimit : payloadLen ≤ f.maxFrameBytes)
    (hinside : offset + frameHeaderLen + payloadLen ≤ file.length)
    (hchecksum : (frameChecksum f payloadLen
      (slice file (offset + frameHeaderLen) payloadLen)).bytes = checksum) :
    FrameAt f file offset (slice file (offset + frameHeaderLen) payloadLen) := by
  have hlength : (slice file (offset + frameHeaderLen) payloadLen).length = payloadLen :=
    length_slice hinside
  have hlong : (slice file offset frameHeaderLen).length = frameHeaderLen :=
    length_slice (by omega)
  have hbytes := header_of_decode hlong hmagic hdecoded
  refine ⟨by rwa [hlength], by rwa [hlength], ?_⟩
  rw [encodeFrame, hlength, frameHeader, hchecksum, ← hbytes, append_assoc,
    slice_append_drop file (offset + frameHeaderLen) payloadLen, slice_append_drop]

theorem nextFrame_frameAt (h : nextFrame f protectedLen file offset = .frame payload) :
    FrameAt f file offset payload := by
  unfold nextFrame at h
  split at h
  · cases h
  split at h
  next => split at h <;> cases h
  next =>
    dsimp only at h
    split at h
    · exact absurd h truncateUnpublishedTailOrFail_ne_frame
    rename_i hmagic
    split at h
    · cases h
    rename_i payloadLen checksum hdecoded
    split at h
    next =>
      split at h
      next => cases h
      next => exact absurd h truncateUnpublishedTailOrFail_ne_frame
    next hlimit =>
      split at h
      · cases h
      rename_i frameEnd hend
      split at h
      next => split at h <;> cases h
      next hinside =>
        split at h
        · exact absurd h truncateUnpublishedTailOrFail_ne_frame
        rename_i hchecksum
        cases h
        obtain ⟨frameLen, hframe, hstop⟩ := Option.bind_eq_some_iff.1 hend
        rw [checkedAdd_eq_some] at hframe hstop
        exact frameAt_of_header (not_not.1 hmagic) hdecoded (Nat.not_lt.1 hlimit)
          (by omega) (not_not.1 hchecksum)

theorem nextFrame_finished_le (h : nextFrame f protectedLen file offset = .finished) :
    file.length ≤ offset := by
  by_contra hinside
  have htruncate : ∀ {knownInterior error},
      truncateUnpublishedTailOrFail f file protectedLen offset knownInterior error ≠ .finished := by
    intro knownInterior error h
    rcases truncateUnpublishedTailOrFail_cases (f := f) file protectedLen offset knownInterior error
      with htorn | ⟨e, hfailed⟩
    · rw [htorn] at h
      cases h
    · rw [hfailed] at h
      cases h
  unfold nextFrame at h
  rw [if_neg hinside] at h
  dsimp only at h
  repeat' split at h
  all_goals first
    | exact htruncate h
    | cases h

variable {σ : Type} {accept : Nat → Bytes → σ → Except DurableError σ}

theorem foldFrames_snoc (payloads : List Bytes) (payload : Bytes) : ∀ (base : Nat) (s : σ),
    foldFrames accept base (payloads ++ [payload]) s = (do
      let s ← foldFrames accept base payloads s
      accept (base + journalLength payloads) payload s) := by
  induction payloads with
  | nil =>
    intro base s
    show (accept base payload s >>= fun s => .ok s) = accept base payload s
    cases accept base payload s <;> rfl
  | cons first rest ih =>
    intro base s
    have hlength : base + journalLength (first :: rest) =
        base + frameHeaderLen + first.length + journalLength rest := by
      simp only [journalLength, map_cons, sum_cons]
      omega
    show (accept base first s >>= fun s => foldFrames accept _ (rest ++ [payload]) s) = _
    rw [hlength, foldFrames, bind_assoc]
    congr 1
    funext s'
    exact ih _ s'

/-- The file is whole frames, and the scan has handed them all on. -/
structure ScanRead (f : FrameFormat) (accept : Nat → Bytes → σ → Except DurableError σ) (start : σ)
    (file : Bytes) (s : σ) (payloads : List Bytes) : Prop where
  encoded : file = encodeFrames f payloads
  limits : ∀ payload ∈ payloads, payload.length ≤ f.maxFrameBytes
  folded : foldFrames accept 0 payloads start = .ok s

variable {start s : σ}

/-- One more frame. -/
theorem ScanRead.snoc {s' : σ} {payloads : List Bytes}
    (h : ScanRead f accept start (file.take offset) s payloads) (hoffset : offset ≤ file.length)
    (hframe : FrameAt f file offset payload) (haccept : accept offset payload s = .ok s') :
    ScanRead f accept start (file.take (offset + frameHeaderLen + payload.length)) s'
      (payloads ++ [payload]) := by
  have hlength : journalLength payloads = offset := by
    rw [← length_encodeFrames (f := f), ← h.encoded, length_take, min_eq_left hoffset]
  refine ⟨?_, ?_, ?_⟩
  · have hnext : encodeFrame f payload =
        (file.drop offset).take (frameHeaderLen + payload.length) := by
      rw [hframe.encoded, ← length_encodeFrame (f := f), take_left]
    rw [encodeFrames_append, ← h.encoded, add_assoc, take_add, ← hnext]
    simp [encodeFrames]
  · exact forall_mem_append.2 ⟨h.limits, forall_mem_singleton.2 hframe.limit⟩
  · rw [foldFrames_snoc, h.folded, ok_bind, zero_add, hlength, haccept]

/-- What a scan leaves of any file is the encoding of the frames it has handed on. -/
theorem scanFrames_ok {file' : Bytes}
    (h : scanFramesWithProtectedPrefix f accept protectedLen file start = (.ok s, file')) :
    (∃ payloads, ScanRead f accept start file' s payloads) ∧ file' <+: file := by
  unfold scanFramesWithProtectedPrefix at h
  split at h
  · cases h
  have hrun := (frameLoop f accept protectedLen file).run_induct
    (I := fun at_ => at_.1 ≤ file.length ∧
      ∃ payloads, ScanRead f accept start (file.take at_.1) at_.2 payloads)
    (Q := fun _ result => ∀ s file', result = (.ok s, file') →
      (∃ payloads, ScanRead f accept start file' s payloads) ∧ file' <+: file) ?_ ?_ (0, start)
    ⟨Nat.zero_le _, [], by rw [take_zero]; rfl, by simp, rfl⟩
  · exact hrun s file' h
  · intro at_ next hread hturn
    refine ⟨?_, fun _ hresult => hresult⟩
    obtain ⟨hinside, payloads, hread⟩ := hread
    have hturn : frameTurn f accept protectedLen file at_ = .again next := hturn
    unfold frameTurn at hturn
    split at hturn
    next => cases hturn
    next => cases hturn
    next => cases hturn
    next payload hnext =>
      split at hturn
      · cases hturn
      rename_i s' haccept
      cases hturn
      have hframe := nextFrame_frameAt hnext
      exact ⟨hframe.inside, _, hread.snoc hinside hframe haccept⟩
  · intro at_ result hread hturn s file' hresult
    obtain ⟨hinside, payloads, hread⟩ := hread
    have hturn : frameTurn f accept protectedLen file at_ = .stop result := hturn
    unfold frameTurn at hturn
    split at hturn
    next hnext =>
      cases hturn
      cases hresult
      -- The scan only finishes at the end of the file.
      have hend := nextFrame_finished_le hnext
      rw [take_of_length_le hend] at hread
      exact ⟨⟨payloads, hread⟩, prefix_refl _⟩
    next =>
      cases hturn
      cases hresult
      exact ⟨⟨payloads, hread⟩, take_prefix _ _⟩
    next => cases hturn; cases hresult
    next payload hnext =>
      split at hturn
      next => cases hturn; cases hresult
      next => cases hturn

end Scan

/-! ## Reading at a position -/

section Read

variable (f : FrameFormat)

def readExactAt (operation : String) (file : Bytes) (offset len : Nat) :
    Except DurableError Bytes := do
  require (offset + len ≤ file.length) (.io operation)
  pure (slice file offset len)

def readFrameAt (file : Bytes) (offset : Nat) : Except DurableError Bytes := do
  let header ← readExactAt "read indexed durable frame header" file offset frameHeaderLen
  require (header.take 8 = f.magic) (.corrupt f.file offset "frame magic mismatch")
  let (payloadLen, checksum) ← decodeFrameHeader f offset header
  require (payloadLen ≤ f.maxFrameBytes)
    (.frameTooLarge f.file offset payloadLen f.maxFrameBytes)
  let payloadOffset ← okOr (checkedAdd offset frameHeaderLen) .encodingOverflow
  let payload ← readExactAt "read indexed durable frame payload" file payloadOffset payloadLen
  require ((frameChecksum f payloadLen payload).bytes = checksum)
    (.corrupt f.file offset "frame checksum mismatch")
  pure payload

variable {f}

theorem readExactAt_eq_ok {operation : String} {bytes : Bytes} {len : Nat} :
    readExactAt operation file offset len = .ok bytes ↔
      offset + len ≤ file.length ∧ slice file offset len = bytes := by
  unfold readExactAt
  simp only [bind_eq_ok, require_eq_ok]
  constructor
  · intro h
    obtain ⟨_, hinside, heq⟩ := h
    cases heq
    exact ⟨hinside, rfl⟩
  · intro h
    exact ⟨(), h.1, by rw [h.2]; rfl⟩

theorem FrameAt.fields {payload : Bytes} (h : FrameAt f file offset payload)
    (hfits : file.length < wordLimit) :
    HeaderAt f file offset payload.length (frameChecksum f payload.length payload) ∧
      slice file (offset + frameHeaderLen) payload.length = payload := by
  have hinside := h.inside
  have hfields := frame_fields (f := f) (file.take offset) payload
    (file.drop (offset + frameHeaderLen + payload.length)) (by omega)
  rwa [← h.encoded, take_append_drop, length_take, min_eq_left (by omega)] at hfields

/-- A read finds exactly the frames that stand in the file. -/
theorem readFrameAt_eq_ok {payload : Bytes} (hfits : file.length < wordLimit) :
    readFrameAt f file offset = .ok payload ↔ FrameAt f file offset payload := by
  unfold readFrameAt
  simp only [bind_eq_ok, require_eq_ok, readExactAt_eq_ok, okOr_eq_ok, checkedAdd_eq_some]
  constructor
  · intro h
    obtain ⟨_, ⟨_, hheader⟩, _, hmagic, ⟨_, _⟩, hdecoded, _, hlimit,
      _, ⟨hoffset, _⟩, _, ⟨hinside, hbytes⟩, _, hchecksum, heq⟩ := h
    cases heq
    subst hheader hoffset hbytes
    exact frameAt_of_header hmagic hdecoded hlimit hinside hchecksum
  · intro h
    have hinside := h.inside
    obtain ⟨hfields, hpayload⟩ := h.fields hfits
    exact ⟨_, ⟨by omega, rfl⟩, (), hfields.magic, _, hfields.decoded, (), h.limit, _,
      ⟨rfl, by omega⟩, _, ⟨hinside, hpayload⟩, (), rfl, rfl⟩

theorem mem_of_mem_layout {frame : StoredFrame} {payloads : List Bytes} {base : Nat}
    (h : frame ∈ layout base payloads) : frame.payload ∈ payloads := by
  induction payloads generalizing base with
  | nil =>
    cases h
  | cons _ _ ih =>
    rcases mem_cons.1 h with heq | h
    · subst heq
      exact mem_cons_self
    · exact mem_cons_of_mem _ (ih h)

/-- The frames of a file stand where the layout puts them. -/
theorem frameAt_layout (after : Bytes) (payloads : List Bytes) (before : Bytes)
    (hlimits : ∀ payload ∈ payloads, payload.length ≤ f.maxFrameBytes) :
    ∀ frame ∈ layout before.length payloads,
      FrameAt f (before ++ (encodeFrames f payloads ++ after)) frame.offset frame.payload :=
    by
  induction payloads generalizing before with
  | nil =>
    intro frame hframe
    cases hframe
  | cons payload rest ih =>
    intro frame hframe
    have hlength := length_encodeFrame (f := f) payload
    have hmoved : before ++ (encodeFrames f (payload :: rest) ++ after) =
        (before ++ encodeFrame f payload) ++ (encodeFrames f rest ++ after) := by
      rw [encodeFrames_cons, append_assoc, append_assoc]
    rcases mem_cons.1 hframe with heq | hframe
    · subst heq
      have hafter : before.length + frameHeaderLen + payload.length =
          (before ++ encodeFrame f payload).length := by
        rw [length_append, hlength, add_assoc]
      refine ⟨hlimits payload mem_cons_self, ?_, ?_⟩
      · rw [hmoved, length_append]
        dsimp only
        omega
      · rw [hafter, hmoved, drop_left, append_assoc, drop_left]
    · have hbase : before.length + frameHeaderLen + payload.length =
          (before ++ encodeFrame f payload).length := by
        rw [length_append, hlength, add_assoc]
      rw [hbase] at hframe
      rw [hmoved]
      exact ih _ (forall_mem_cons.1 hlimits).2 frame hframe

end Read

/-! ## Object frames -/

section Objects

variable {P : Type} (env : WalEnv P) (hash : Bytes → Digest)

/-- The object of a frame, once its identity and its encoding have been checked. -/
def verifyObjectFrame (offset : Nat) (payload : Bytes) :
    Except DurableError (Digest × ObjectRecord Digest) := do
  let (id, record) ← (decodeObjectFrame payload env.scheme).mapError (.corrupt .arena offset)
  require (env.identify record = id) (.corrupt .arena offset "object identity mismatch")
  let canonical ← okOr (encodeObjectFrame env.scheme id record) .encodingOverflow
  require (canonical = payload) (.corrupt .arena offset "object frame is not canonical")
  pure (id, record)

abbrev ArenaIndex := FMap Digest ArenaLocation

/-- What the scan of the arena does with a frame. -/
def acceptObjectFrame (offset : Nat) (payload : Bytes) (found : ArenaIndex × Option ArenaLocation) :
    Except DurableError (ArenaIndex × Option ArenaLocation) := do
  let (id, _) ← verifyObjectFrame env offset payload
  let location : ArenaLocation := ⟨offset, payload.length,
    frameChecksum (arenaFormat hash env.maxFrameBytes) payload.length payload⟩
  match found.1[id]? with
  | some existing => do
    require (existing.payloadLen = location.payloadLen ∧ existing.checksum = location.checksum)
      (.recoveryModel .arena offset (.objectCollision id))
    pure (found.1, some location)
  | none => pure (found.1.insert id location, some location)

/-- The index, and the location of the last frame. -/
def recoverArena (protectedLen : Nat) (arena : Bytes) :
    Except DurableError (ArenaIndex × Option ArenaLocation) × Bytes :=
  scanFramesWithProtectedPrefix (arenaFormat hash env.maxFrameBytes) (acceptObjectFrame env hash)
    protectedLen arena (∅, none)

def readIndexedObjectWithPayload (arena : Bytes) (expectedId : Digest) (location : ArenaLocation) :
    Except DurableError (ObjectRecord Digest × Bytes) := do
  let payload ← readFrameAt (arenaFormat hash env.maxFrameBytes) arena location.offset
  require (payload.length = location.payloadLen ∧
      frameChecksum (arenaFormat hash env.maxFrameBytes) payload.length payload = location.checksum)
    (.corrupt .arena location.offset "indexed frame location no longer matches the arena")
  let (id, record) ← (decodeObjectFrame payload env.scheme).mapError
    (.corrupt .arena location.offset)
  require (id = expectedId) (.corrupt .arena location.offset "indexed object identifier mismatch")
  require (env.identify record = expectedId) (.corrupt .arena location.offset
    "indexed object identity does not match its canonical record")
  pure (record, payload)

def readIndexedObject (arena : Bytes) (expectedId : Digest) (location : ArenaLocation) :
    Except DurableError (ObjectRecord Digest) :=
  (readIndexedObjectWithPayload env hash arena expectedId location).map Prod.fst

variable {env hash} {id : Digest} {record : ObjectRecord Digest}

theorem verifyObjectFrame_eq_ok (hlimit : payload.length ≤ env.maxFrameBytes) :
    verifyObjectFrame env offset payload = .ok (id, record) ↔ FrameOf env (id, payload) record := by
  unfold verifyObjectFrame
  simp only [bind_eq_ok, mapError_eq_ok, require_eq_ok, okOr_eq_ok]
  constructor
  · intro h
    obtain ⟨⟨_, _⟩, _, _, hidentity, _, hencoded, _, hcanonical, heq⟩ := h
    cases heq
    subst hcanonical
    exact ⟨hencoded, hidentity, hlimit⟩
  · intro h
    exact ⟨(id, record), decodeObjectFrame_encode h.encoded
      (Nat.lt_of_le_of_lt hlimit env.maxFrameBytes_lt), (), h.identity, payload, h.encoded, (), rfl,
        rfl⟩

/-- A frame holds one object. -/
theorem FrameOf.unique {id' : Digest} {record' : ObjectRecord Digest}
    (h : FrameOf env (id, payload) record) (h' : FrameOf env (id', payload) record') :
    id = id' ∧ record = record' := by
  have hfits := Nat.lt_of_le_of_lt h.fits env.maxFrameBytes_lt
  have hdecoded := decodeObjectFrame_encode h.encoded hfits
  rw [decodeObjectFrame_encode h'.encoded hfits] at hdecoded
  cases hdecoded
  exact ⟨rfl, rfl⟩

/-- The index of some frames: one of the frames of each object. -/
structure Indexes (env : WalEnv P) (hash : Bytes → Digest) (frames : List StoredFrame)
    (index : ArenaIndex) : Prop where
  located : ∀ {id location}, index[id]? = some location → ∃ frame ∈ frames, ∃ record,
    FrameOf env (id, frame.payload) record ∧
      frame.location (arenaFormat hash env.maxFrameBytes) = location
  covers : ∀ frame ∈ frames, ∃ id record, FrameOf env (id, frame.payload) record ∧ id ∈ index

theorem indexes_nil : Indexes env hash [] ∅ := by
  refine ⟨fun hindex => ?_, fun _ hmem => absurd hmem not_mem_nil⟩
  cases hindex

variable {index : ArenaIndex} {tail : Option ArenaLocation}

/-- One frame more. -/
theorem Indexes.snoc {frames : List StoredFrame} {index' : ArenaIndex}
    {tail' : Option ArenaLocation} (h : Indexes env hash frames index)
    (hlimit : payload.length ≤ env.maxFrameBytes)
    (haccept : acceptObjectFrame env hash offset payload (index, tail) = .ok (index', tail')) :
    Indexes env hash (frames ++ [⟨offset, payload⟩]) index' := by
  unfold acceptObjectFrame at haccept
  rw [bind_eq_ok] at haccept
  obtain ⟨⟨id, record⟩, hverify, haccept⟩ := haccept
  have hframe := (verifyObjectFrame_eq_ok hlimit).1 hverify
  dsimp only at haccept
  cases hfound : index[id]? with
  | some =>
    rw [hfound] at haccept
    simp only [bind_eq_ok, require_eq_ok] at haccept
    obtain ⟨_, _, heq⟩ := haccept
    cases heq
    refine ⟨fun hindex => ?_, forall_mem_append.2 ⟨h.covers, forall_mem_singleton.2
      ⟨id, record, hframe, mem_iff_getElem?.2 ⟨_, hfound⟩⟩⟩⟩
    obtain ⟨frame, hmem, hlocated⟩ := h.located hindex
    exact ⟨frame, mem_append_left _ hmem, hlocated⟩
  | none =>
    rw [hfound] at haccept
    cases haccept
    refine ⟨fun {other location} hindex => ?_, fun frame hmem => ?_⟩
    · rcases insert_cases hindex with ⟨rfl, rfl⟩ | ⟨_, hindex⟩
      · exact ⟨_, mem_append_right _ (mem_singleton_self _), record, hframe, rfl⟩
      · obtain ⟨frame, hmem, hlocated⟩ := h.located hindex
        exact ⟨frame, mem_append_left _ hmem, hlocated⟩
    · rcases mem_append.1 hmem with hmem | hmem
      · obtain ⟨other, record', hother, hindexed⟩ := h.covers frame hmem
        exact ⟨other, record', hother, mem_insert.2 (.inr hindexed)⟩
      · rw [mem_singleton.1 hmem]
        exact ⟨id, record, hframe, mem_insert_self⟩

theorem Indexes.fold (payloads : List Bytes) {base : Nat} {frames : List StoredFrame}
    {found found' : ArenaIndex × Option ArenaLocation} (h : Indexes env hash frames found.1)
    (hlimits : ∀ payload ∈ payloads, payload.length ≤ env.maxFrameBytes)
    (hfold : foldFrames (acceptObjectFrame env hash) base payloads found = .ok found') :
    Indexes env hash (frames ++ layout base payloads) found'.1 := by
  induction payloads generalizing base frames found found' with
  | nil =>
    cases hfold
    rw [layout, append_nil]
    exact h
  | cons payload _ ih =>
    unfold foldFrames at hfold
    rw [bind_eq_ok] at hfold
    obtain ⟨_, haccept, hfold⟩ := hfold
    have hnext := h.snoc (hlimits payload mem_cons_self) haccept
    have hrest := ih hnext (forall_mem_cons.1 hlimits).2 hfold
    rw [append_assoc] at hrest
    exact hrest

/-- An arena of object frames and the index of it. -/
structure ArenaHolds (env : WalEnv P) (hash : Bytes → Digest) (arena : Bytes) (index : ArenaIndex)
    (payloads : List Bytes) : Prop where
  encoded : arena = encodeFrames (arenaFormat hash env.maxFrameBytes) payloads
  fits : arena.length < wordLimit
  limits : ∀ payload ∈ payloads, payload.length ≤ env.maxFrameBytes
  indexes : Indexes env hash (layout 0 payloads) index

variable {arena : Bytes}

theorem recoverArena_ok {protectedLen : Nat} {file : Bytes} (hfits : file.length < wordLimit)
    (h : recoverArena env hash protectedLen file = (.ok (index, tail), arena)) :
    ∃ payloads, ArenaHolds env hash arena index payloads := by
  obtain ⟨⟨payloads, hread⟩, hkept⟩ := scanFrames_ok h
  have hindexes : Indexes env hash ([] ++ layout 0 payloads) index :=
    Indexes.fold payloads indexes_nil hread.limits hread.folded
  exact ⟨payloads, hread.encoded, Nat.lt_of_le_of_lt hkept.length_le hfits, hread.limits, hindexes⟩

/-- Every indexed object is read back through the index. -/
theorem ArenaHolds.read {payloads : List Bytes} (h : ArenaHolds env hash arena index payloads)
    {location : ArenaLocation} (hindex : index[id]? = some location) :
    ∃ payload record, FrameOf env (id, payload) record ∧ payload ∈ payloads ∧
      readIndexedObjectWithPayload env hash arena id location = .ok (record, payload) := by
  obtain ⟨frame, hmem, record, hframe, hlocation⟩ := h.indexes.located hindex
  subst hlocation
  have hat := frameAt_layout (f := arenaFormat hash env.maxFrameBytes) [] payloads [] h.limits frame
    hmem
  rw [append_nil, ← h.encoded] at hat
  refine ⟨frame.payload, record, hframe, mem_of_mem_layout hmem, ?_⟩
  unfold readIndexedObjectWithPayload
  simp only [bind_eq_ok, require_eq_ok, mapError_eq_ok]
  exact ⟨_, (readFrameAt_eq_ok h.fits).2 hat, (), ⟨rfl, rfl⟩, (id, record),
    decodeObjectFrame_encode hframe.encoded (Nat.lt_of_le_of_lt hframe.fits env.maxFrameBytes_lt),
    (), rfl, (), hframe.identity, rfl⟩

end Objects

end Astrid
