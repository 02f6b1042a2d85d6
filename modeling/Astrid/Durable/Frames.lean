import Astrid.Lib.Loop
import Astrid.Durable.Roots

/-!
# Files of frames

`engine/durable/format/mod.rs`: the object arena and the root journal are files of frames, each
a header with magic, version, length and checksum, and then the payload. Frames are only
appended. A scan hands the payloads on in order and repairs an unpublished tail: a frame that the
end of the file cuts off is dropped, while damage that a complete frame follows is corruption,
and so is anything below the protected prefix.

An appended file is `encodeFrames` of its payloads. `run_frames` follows a scan through the
complete frames at the front of a file, to where a torn one, or the end, stops it.
-/

namespace Astrid

open List

/-! ## Frames -/

/-- One kind of file of frames, and the limits of its reader. -/
structure FrameFormat where
  file : StoreFile
  magic : Bytes
  magic_length : magic.length = 8
  /-- The keyed hash of physical frames. -/
  hash : Bytes → Digest
  maxFrameBytes : Nat

/-- `ASTOBJ1` and a zero. -/
def arenaMagic : Bytes := [65, 83, 84, 79, 66, 74, 49, 0]

/-- `ASTROOT` and a zero. -/
def rootMagic : Bytes := [65, 83, 84, 82, 79, 79, 84, 0]

/-- The object arena. -/
def arenaFormat (hash : Bytes → Digest) (maxFrameBytes : Nat) : FrameFormat :=
  ⟨.arena, arenaMagic, rfl, hash, maxFrameBytes⟩

/-- The root journal. -/
def rootFormat (hash : Bytes → Digest) (maxFrameBytes : Nat) : FrameFormat :=
  ⟨.roots, rootMagic, rfl, hash, maxFrameBytes⟩

def frameVersion : Nat := 1

def checksumStart : Nat := 20

structure ArenaLocation where
  offset : Nat
  payloadLen : Nat
  checksum : Digest
  deriving DecidableEq

section Format

variable (f : FrameFormat)

def frameChecksum (payloadLen : Nat) (payload : Bytes) : Digest :=
  f.hash (f.magic ++ (leBytes 2 frameVersion ++ (leBytes 8 payloadLen ++ payload)))

def frameHeader (payloadLen : Nat) (checksum : Digest) : Bytes :=
  f.magic ++ (leBytes 2 frameVersion ++ ([0, 0] ++ (leBytes 8 payloadLen ++ checksum.bytes)))

/-! ## Appending -/

/-- A file has a 64-bit length; a write beyond it fails. -/
def writeAllBytes (operation : String) (file bytes : Bytes) : Except DurableError Bytes := do
  require (file.length + bytes.length < wordLimit) (.io operation)
  pure (file ++ bytes)

def appendFrame (file payload : Bytes) : Except DurableError (ArenaLocation × Bytes) := do
  require (payload.length < wordLimit) .encodingOverflow
  let checksum := frameChecksum f payload.length payload
  let offset := file.length
  let file ← writeAllBytes "append durable frame header" file
    (frameHeader f payload.length checksum)
  let file ← writeAllBytes "append durable frame payload" file payload
  pure (⟨offset, payload.length, checksum⟩, file)

/-- The loop of `append_frames`, which encodes all frames before it writes them. -/
def encodeBatch (base : Nat) : List Bytes → Bytes → Except DurableError (List ArenaLocation × Bytes)
  | [], encoded => .ok ([], encoded)
  | payload :: rest, encoded => do
    require (payload.length < wordLimit) .encodingOverflow
    let checksum := frameChecksum f payload.length payload
    let offset ← okOr (checkedAdd base encoded.length) .encodingOverflow
    let (locations, encoded) ←
      encodeBatch base rest (encoded ++ (frameHeader f payload.length checksum ++ payload))
    pure (⟨offset, payload.length, checksum⟩ :: locations, encoded)

def appendFrames (file : Bytes) (payloads : List Bytes) :
    Except DurableError (List ArenaLocation × Bytes) := do
  require ((payloads.map fun payload => frameHeaderLen + payload.length).sum < wordLimit)
    .encodingOverflow
  let (locations, encoded) ← encodeBatch f file.length payloads []
  let file ← writeAllBytes "append durable frame batch" file encoded
  pure (locations, file)

/-! ## Scanning -/

def decodeFrameHeader (offset : Nat) (header : Bytes) : Except DurableError (Nat × Bytes) := do
  require (ofLe (slice header 8 2) = frameVersion)
    (.corrupt f.file offset "unsupported frame version")
  require (slice header 10 2 = [0, 0]) (.corrupt f.file offset "reserved header bytes are non-zero")
  pure (ofLe (slice header 12 8), header.drop checksumStart)

def physicalFrameIsValid (file : Bytes) (offset : Nat) : Except DurableError Bool :=
  let remaining := file.length - offset
  if remaining < frameHeaderLen then .ok false
  else
    let header := slice file offset frameHeaderLen
    if header.take 8 ≠ f.magic ∨ ofLe (slice header 8 2) ≠ frameVersion ∨
        slice header 10 2 ≠ [0, 0] then .ok false
    else do
      let payloadLen := ofLe (slice header 12 8)
      let frameLen ← okOr (checkedAdd frameHeaderLen payloadLen) .encodingOverflow
      if frameLen > remaining then .ok false
      else if payloadLen > f.maxFrameBytes then .ok true
      else
        .ok ((frameChecksum f payloadLen (slice file (offset + frameHeaderLen) payloadLen)).bytes =
          header.drop checksumStart)

/-- Look for a complete frame at some positions, in order. -/
def validFrameAmong (file : Bytes) : List Nat → Except DurableError Bool
  | [] => .ok false
  | candidate :: rest =>
    if slice file candidate f.magic.length ≠ f.magic then validFrameAmong file rest
    else do
      if ← physicalFrameIsValid f file candidate then .ok true else validFrameAmong file rest

/-- The windows of the search overlap by one byte less than the magic, so together they show
every position at which the magic fits. -/
def validFrameFollows (file : Bytes) (invalidOffset : Nat) : Except DurableError Bool :=
  validFrameAmong f file
    (range' (invalidOffset + 1) (file.length + 1 - f.magic.length - (invalidOffset + 1)))

/-- What a scan finds at a position. -/
inductive FrameStep
  | finished
  | torn
  | failed (e : DurableError)
  | frame (payload : Bytes)

def truncateUnpublishedTailOrFail (file : Bytes) (protectedLen offset : Nat) (knownInterior : Bool)
    (error : DurableError) : FrameStep :=
  if offset < protectedLen ∨ knownInterior = true then .failed error
  else
    match validFrameFollows f file offset with
    | .error e => .failed e
    | .ok true => .failed error
    | .ok false => .torn

def nextFrame (protectedLen : Nat) (file : Bytes) (offset : Nat) : FrameStep :=
  if file.length ≤ offset then .finished
  else if file.length - offset < frameHeaderLen then
    if offset < protectedLen then
      .failed (.corrupt f.file offset "published frame header is truncated")
    else .torn
  else
    let header := slice file offset frameHeaderLen
    if header.take 8 ≠ f.magic then
      truncateUnpublishedTailOrFail f file protectedLen offset false
        (.corrupt f.file offset "frame magic mismatch")
    else
      match decodeFrameHeader f offset header with
      | .error e => .failed e
      | .ok (payloadLen, checksum) =>
        if payloadLen > f.maxFrameBytes then
          let error := .frameTooLarge f.file offset payloadLen f.maxFrameBytes
          if offset < protectedLen then .failed error
          else
            let claimedEnd := (checkedAdd frameHeaderLen payloadLen).bind (checkedAdd offset)
            truncateUnpublishedTailOrFail f file protectedLen offset
              (claimedEnd.any fun stop => stop ≤ file.length) error
        else
          match (checkedAdd frameHeaderLen payloadLen).bind (checkedAdd offset) with
          | none => .failed .encodingOverflow
          | some frameEnd =>
            if frameEnd > file.length then
              if offset < protectedLen then
                .failed (.corrupt f.file offset "published frame payload is truncated")
              else .torn
            else
              let payload := slice file (offset + frameHeaderLen) payloadLen
              if (frameChecksum f payloadLen payload).bytes ≠ checksum then
                truncateUnpublishedTailOrFail f file protectedLen offset false
                  (.corrupt f.file offset "frame checksum mismatch")
              else .frame payload

section Scan

variable {σ : Type} (accept : Nat → Bytes → σ → Except DurableError σ)

/-- One turn of a scan: the callback sees a frame, or the scan ends, with the file after it. -/
def frameTurn (protectedLen : Nat) (file : Bytes) (at_ : Nat × σ) :
    Turn (Nat × σ) (Except DurableError σ × Bytes) :=
  match nextFrame f protectedLen file at_.1 with
  | .finished => .stop (.ok at_.2, file)
  | .torn => .stop (.ok at_.2, file.take at_.1)
  | .failed e => .stop (.error e, file)
  | .frame payload =>
    match accept at_.1 payload at_.2 with
    | .error e => .stop (.error e, file)
    | .ok s => .again (at_.1 + frameHeaderLen + payload.length, s)

variable {f} in
theorem nextFrame_frame_lt {protectedLen offset : Nat} {file payload : Bytes}
    (h : nextFrame f protectedLen file offset = .frame payload) : offset < file.length := by
  unfold nextFrame at h
  split at h
  next => cases h
  next hoffset => exact Nat.lt_of_not_le hoffset

variable {f accept} in
theorem frameTurn_again {protectedLen : Nat} {file : Bytes} {at_ next : Nat × σ}
    (h : frameTurn f accept protectedLen file at_ = .again next) :
    file.length - next.1 < file.length - at_.1 := by
  unfold frameTurn at h
  split at h
  next => cases h
  next => cases h
  next => cases h
  next payload hframe =>
    split at h
    · cases h
    cases h
    have hlt := nextFrame_frame_lt hframe
    dsimp only [frameHeaderLen]
    omega

def frameLoop (protectedLen : Nat) (file : Bytes) :
    Loop (Nat × σ) (Except DurableError σ × Bytes) where
  turn := frameTurn f accept protectedLen file
  size at_ := file.length - at_.1
  shrinks := frameTurn_again

/-- The result of a scan, and the file after it. -/
def scanFramesWithProtectedPrefix (protectedLen : Nat) (file : Bytes) (s : σ) :
    Except DurableError σ × Bytes :=
  if file.length < protectedLen then
    (.error (.corrupt f.file file.length "published durable prefix is truncated"), file)
  else (frameLoop f accept protectedLen file).run (0, s)

end Scan

/-! ## Layout -/

def encodeFrame (payload : Bytes) : Bytes :=
  frameHeader f payload.length (frameChecksum f payload.length payload) ++ payload

def encodeFrames (payloads : List Bytes) : Bytes := payloads.flatMap (encodeFrame f)

variable {f}

theorem length_frameHeader (payloadLen : Nat) (checksum : Digest) :
    (frameHeader f payloadLen checksum).length = frameHeaderLen := by
  simp [frameHeader, f.magic_length, checksum.length_eq, frameHeaderLen]

theorem length_encodeFrame (payload : Bytes) :
    (encodeFrame f payload).length = frameHeaderLen + payload.length := by
  rw [encodeFrame, length_append, length_frameHeader]

theorem length_encodeFrames (payloads : List Bytes) :
    (encodeFrames f payloads).length = journalLength payloads := by
  induction payloads with
  | nil => rfl
  | cons payload rest ih =>
    have hcons : encodeFrames f (payload :: rest) = encodeFrame f payload ++ encodeFrames f rest :=
      rfl
    rw [hcons, length_append, length_encodeFrame, ih]
    simp [journalLength]

/-! ## What a scan finds -/

section Next

variable {before payload after : Bytes} {protectedLen : Nat}

/-- The fields of a header that stands complete in the file. -/
structure HeaderAt (f : FrameFormat) (file : Bytes) (offset payloadLen : Nat) (checksum : Digest) :
    Prop where
  fits : ¬ file.length - offset < frameHeaderLen
  inside : ¬ file.length ≤ offset
  magic : (slice file offset frameHeaderLen).take 8 = f.magic
  decoded : decodeFrameHeader f offset (slice file offset frameHeaderLen) =
    .ok (payloadLen, checksum.bytes)

theorem headerAt (before after : Bytes) (checksum : Digest) {payloadLen : Nat}
    (hlen : payloadLen < wordLimit) :
    HeaderAt f (before ++ (frameHeader f payloadLen checksum ++ after)) before.length payloadLen
      checksum := by
  have hheader : slice (before ++ (frameHeader f payloadLen checksum ++ after)) before.length
      frameHeaderLen = frameHeader f payloadLen checksum :=
    by rw [slice_skip le_rfl, Nat.sub_self, slice_here (length_frameHeader _ _)]
  have hlength := length_frameHeader (f := f) payloadLen checksum
  have hmagic := f.magic_length
  refine ⟨?_, ?_, ?_, ?_⟩
  · rw [length_append, length_append]
    omega
  · rw [length_append, length_append, hlength]
    unfold frameHeaderLen
    omega
  · rw [hheader, frameHeader, ← hmagic, take_left]
  · rw [hheader]
    have hversion : slice (frameHeader f payloadLen checksum) 8 2 = leBytes 2 frameVersion :=
      by simp [frameHeader, slice_skip, slice_here, hmagic]
    have hreserved : slice (frameHeader f payloadLen checksum) 10 2 = [0, 0] := by
      simp [frameHeader, slice, drop_skip, hmagic]
    have hword : slice (frameHeader f payloadLen checksum) 12 8 = leBytes 8 payloadLen := by
      simp [frameHeader, slice_skip, slice_cons, slice_here, hmagic]
    have hchecksum : (frameHeader f payloadLen checksum).drop checksumStart = checksum.bytes := by
      simp [frameHeader, checksumStart, drop_skip, hmagic]
    simp only [decodeFrameHeader, bind_eq_ok, require_eq_ok]
    refine ⟨(), ?_, (), hreserved, ?_⟩
    · rw [hversion]
      exact ofLe_leBytes (by decide)
    · rw [hword, hchecksum, ofLe_leBytes hlen]
      rfl

/-- The header and the payload of a frame that stands in the file. -/
theorem frame_fields (before payload after : Bytes) (hlen : payload.length < wordLimit) :
    HeaderAt f (before ++ (encodeFrame f payload ++ after)) before.length payload.length
        (frameChecksum f payload.length payload) ∧
      slice (before ++ (encodeFrame f payload ++ after)) (before.length + frameHeaderLen)
        payload.length = payload := by
  rw [encodeFrame, append_assoc]
  refine ⟨headerAt before _ _ hlen, ?_⟩
  rw [slice_skip (by omega), slice_skip (by rw [length_frameHeader]; omega), length_frameHeader,
    Nat.add_sub_cancel_left, Nat.sub_self, slice_here rfl]

theorem nextFrame_complete
    (hfits : (before ++ (encodeFrame f payload ++ after)).length < wordLimit)
    (hlimit : payload.length ≤ f.maxFrameBytes) :
    nextFrame f protectedLen (before ++ (encodeFrame f payload ++ after)) before.length =
      .frame payload := by
  have hfile : (before ++ (encodeFrame f payload ++ after)).length =
      before.length + (frameHeaderLen + payload.length + after.length) := by
    rw [length_append, length_append, length_encodeFrame]
  obtain ⟨hheader, hpayload⟩ := frame_fields (f := f) before payload after (by omega)
  have hend : (checkedAdd frameHeaderLen payload.length).bind (checkedAdd before.length) =
      some (before.length + (frameHeaderLen + payload.length)) := by
    rw [checkedAdd_eq_some.2 ⟨rfl, by omega⟩, Option.bind_some, checkedAdd_eq_some]
    exact ⟨rfl, by omega⟩
  unfold nextFrame
  rw [if_neg hheader.inside, if_neg hheader.fits]
  rw [if_neg (not_not_intro hheader.magic)]
  simp only [hheader.decoded]
  rw [if_neg (not_lt.2 hlimit), hend]
  dsimp only
  rw [if_neg (by omega), hpayload, if_neg (not_not_intro rfl)]

/-- The end of the file cuts a frame off, in its header or in its payload. -/
theorem nextFrame_torn {tail : Bytes} (hstarts : tail <+: encodeFrame f payload)
    (hshort : tail.length < (encodeFrame f payload).length) (hne : tail ≠ [])
    (hfits : before.length + (encodeFrame f payload).length < wordLimit)
    (hlimit : payload.length ≤ f.maxFrameBytes) (hprotected : protectedLen ≤ before.length) :
    nextFrame f protectedLen (before ++ tail) before.length = .torn := by
  rw [length_encodeFrame] at hshort hfits
  have hpos : 0 < tail.length := length_pos_of_ne_nil hne
  by_cases hheader : tail.length < frameHeaderLen
  · unfold nextFrame
    rw [length_append, if_neg (by omega), if_pos (by omega), if_neg (by omega)]
  -- The header is complete, so it tells the length that is missing.
  have hlength := length_frameHeader (f := f) payload.length
    (frameChecksum f payload.length payload)
  obtain ⟨rest, hrest⟩ : frameHeader f payload.length (frameChecksum f payload.length payload) <+:
      tail := by
    refine prefix_of_prefix_length_le (prefix_append _ payload) hstarts ?_
    omega
  have hfields := headerAt (f := f) before rest (frameChecksum f payload.length payload)
    (show payload.length < wordLimit by omega)
  rw [hrest] at hfields
  have hend : (checkedAdd frameHeaderLen payload.length).bind (checkedAdd before.length) =
      some (before.length + (frameHeaderLen + payload.length)) := by
    rw [checkedAdd_eq_some.2 ⟨rfl, by omega⟩, Option.bind_some, checkedAdd_eq_some]
    exact ⟨rfl, by omega⟩
  unfold nextFrame
  rw [if_neg hfields.inside, if_neg hfields.fits]
  rw [if_neg (not_not_intro hfields.magic)]
  simp only [hfields.decoded]
  rw [if_neg (not_lt.2 hlimit), hend]
  dsimp only
  rw [length_append, if_pos (by omega), if_neg (by omega)]

theorem nextFrame_finished (file : Bytes) :
    nextFrame f protectedLen file file.length = .finished := by
  unfold nextFrame
  rw [if_pos le_rfl]

end Next

/-! ## Scans of cut files -/

section Run

variable {σ : Type} (accept : Nat → Bytes → σ → Except DurableError σ)

/-- Hand the payloads of frames on, from a position in the file. -/
def foldFrames : Nat → List Bytes → σ → Except DurableError σ
  | _, [], s => .ok s
  | offset, payload :: rest, s => do
    let s ← accept offset payload s
    foldFrames (offset + frameHeaderLen + payload.length) rest s

/-- What a cut leaves of a frame at position `base`. -/
structure CutOff (f : FrameFormat) (base : Nat) (tail : Bytes) : Prop where
  starts : tail ≠ [] → ∃ payload, tail <+: encodeFrame f payload ∧
    tail.length < (encodeFrame f payload).length ∧ payload.length ≤ f.maxFrameBytes ∧
    base + (encodeFrame f payload).length < wordLimit

variable {accept} {protectedLen : Nat}

/-- What a scan makes of the frames before the end of the file. -/
def scanned (file kept : Bytes) : Except DurableError σ → Except DurableError σ × Bytes
  | .ok s => (.ok s, kept)
  | .error e => (.error e, file)

/-- A scan from a frame boundary on: the callback sees every complete frame, and then the tail
is cut off. -/
theorem run_frames {tail : Bytes} (payloads : List Bytes) (before : Bytes) (s : σ)
    (hlimits : ∀ payload ∈ payloads, payload.length ≤ f.maxFrameBytes)
    (hfits : (before ++ (encodeFrames f payloads ++ tail)).length < wordLimit)
    (htail : CutOff f (before ++ encodeFrames f payloads).length tail)
    (hprotected : protectedLen ≤ (before ++ encodeFrames f payloads).length) :
    (frameLoop f accept protectedLen (before ++ (encodeFrames f payloads ++ tail))).run
        (before.length, s) =
      scanned (before ++ (encodeFrames f payloads ++ tail)) (before ++ encodeFrames f payloads)
        (foldFrames accept before.length payloads s) := by
  induction payloads generalizing before s with
  | nil =>
    rw [show encodeFrames f [] = [] from rfl, append_nil, nil_append] at *
    apply Loop.run_stop
    show frameTurn f accept protectedLen _ _ = _
    unfold frameTurn
    by_cases hempty : tail = []
    · subst hempty
      rw [append_nil, nextFrame_finished]
      rfl
    obtain ⟨payload, hstarts, hshort, hlimit, hroom⟩ := htail.starts hempty
    rw [nextFrame_torn hstarts hshort hempty hroom hlimit hprotected]
    rw [take_left]
    rfl
  | cons payload rest ih =>
    have hcons : encodeFrames f (payload :: rest) = encodeFrame f payload ++ encodeFrames f rest :=
      rfl
    have hfile : before ++ (encodeFrames f (payload :: rest) ++ tail) =
        before ++ (encodeFrame f payload ++ (encodeFrames f rest ++ tail)) := by
      rw [hcons, append_assoc]
    have hmoved : before ++ (encodeFrame f payload ++ (encodeFrames f rest ++ tail)) =
        (before ++ encodeFrame f payload) ++ (encodeFrames f rest ++ tail) :=
      (append_assoc ..).symm
    have hkept : before ++ encodeFrames f (payload :: rest) =
        (before ++ encodeFrame f payload) ++ encodeFrames f rest := by
      rw [hcons, append_assoc]
    have hnext : nextFrame f protectedLen
        (before ++ (encodeFrame f payload ++ (encodeFrames f rest ++ tail))) before.length =
          .frame payload :=
      nextFrame_complete (by rwa [hfile] at hfits) (hlimits payload mem_cons_self)
    rw [hkept] at htail hprotected ⊢
    rw [hfile] at hfits ⊢
    unfold foldFrames
    cases hs : accept before.length payload s with
    | error =>
      apply Loop.run_stop
      show frameTurn f accept protectedLen _ _ = _
      unfold frameTurn
      rw [hnext]
      simp only [hs]
      rfl
    | ok s' =>
      have hturn : (frameLoop f accept protectedLen
          (before ++ (encodeFrame f payload ++ (encodeFrames f rest ++ tail)))).turn
            (before.length, s) = .again ((before ++ encodeFrame f payload).length, s') := by
        show frameTurn f accept protectedLen _ _ = _
        unfold frameTurn
        rw [hnext]
        simp only [hs]
        rw [length_append, length_encodeFrame, ← add_assoc]
      rw [Loop.run_again _ hturn, hmoved]
      rw [hmoved] at hfits
      rw [ih (before ++ encodeFrame f payload) s'
        (forall_mem_cons.1 hlimits).2 hfits htail hprotected]
      rw [length_append, length_encodeFrame, ← add_assoc]
      rfl

end Run

end Format

end Astrid
