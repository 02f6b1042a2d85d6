import Astrid.Durable.Frames

/-!
# Torn tails of frame files

Files that were written by `append_frame` and `append_frames` and then cut anywhere. The cut
leaves whole frames and a proper prefix of the next one (`cut_layout`). That prefix cannot be
mistaken for anything else, whatever bytes the payloads hold: its header, if it is complete,
tells the length that is missing, and the scan never looks inside. So the scan returns the frames
inside the cut and cuts the rest off, and a second scan finds nothing to do.

The frames must be within the limit of the reader. A longer one is refused by design.
-/

namespace Astrid

open List

/-! ## Layout of frames -/

structure StoredFrame where
  offset : Nat
  payload : Bytes
  deriving DecidableEq

namespace StoredFrame

/-- The position after the frame. -/
def stop (frame : StoredFrame) : Nat := frame.offset + frameHeaderLen + frame.payload.length

def location (f : FrameFormat) (frame : StoredFrame) : ArenaLocation :=
  ⟨frame.offset, frame.payload.length, frameChecksum f frame.payload.length frame.payload⟩

end StoredFrame

/-- The frames of some payloads, one after the other. -/
def layout : Nat → List Bytes → List StoredFrame
  | _, [] => []
  | offset, payload :: rest =>
    ⟨offset, payload⟩ :: layout (offset + frameHeaderLen + payload.length) rest

/-- Where the last of some frames ends. -/
def lastStop (base : Nat) (frames : List StoredFrame) : Nat :=
  match frames.getLast? with
  | none => base
  | some frame => frame.stop

/-- The frames that lie completely before a position. -/
def within (cut : Nat) (frames : List StoredFrame) : List StoredFrame :=
  frames.filter fun frame => frame.stop ≤ cut

theorem layout_append (base : Nat) (payloads more : List Bytes) :
    layout base (payloads ++ more) =
      layout base payloads ++ layout (base + journalLength payloads) more := by
  induction payloads generalizing base with
  | nil => rfl
  | cons payload rest ih =>
    have hlength : base + journalLength (payload :: rest) =
        base + frameHeaderLen + payload.length + journalLength rest := by
      simp only [journalLength, map_cons, sum_cons]
      omega
    rw [hlength, cons_append, layout, layout, ih, cons_append]

theorem lastStop_layout (base : Nat) (payloads : List Bytes) :
    lastStop base (layout base payloads) = base + journalLength payloads := by
  induction payloads using reverseRecOn with
  | nil => rfl
  | append_singleton =>
    rw [layout_append, lastStop, layout, layout, getLast?_concat]
    simp only [StoredFrame.stop, journalLength, map_append, map_cons, map_nil,
      sum_append, sum_cons, sum_nil]
    omega

theorem layout_take (base k : Nat) (payloads : List Bytes) :
    (layout base payloads).take k = layout base (payloads.take k) := by
  induction payloads generalizing base k with
  | nil => simp [layout]
  | cons _ _ ih =>
    cases k with
    | zero => rfl
    | succ => rw [take_succ_cons, layout, layout, take_succ_cons, ih]

theorem within_layout_cons (cut base : Nat) (payload : Bytes) (rest : List Bytes) :
    within cut (layout base (payload :: rest)) =
      if base + frameHeaderLen + payload.length ≤ cut then
        ⟨base, payload⟩ :: within cut (layout (base + frameHeaderLen + payload.length) rest)
      else within cut (layout (base + frameHeaderLen + payload.length) rest) := by
  have hstop : (⟨base, payload⟩ : StoredFrame).stop = base + frameHeaderLen + payload.length := rfl
  unfold within
  rw [layout, filter_cons, hstop]
  by_cases hinside : base + frameHeaderLen + payload.length ≤ cut
  · rw [if_pos hinside, if_pos (decide_eq_true hinside)]
  · rw [if_neg hinside, if_neg fun h => hinside (of_decide_eq_true h)]

/-- Frames that start behind the cut are not inside it. -/
theorem within_layout_eq_nil {base cut : Nat} (h : cut < base) (payloads : List Bytes) :
    within cut (layout base payloads) = [] := by
  induction payloads generalizing base with
  | nil => rfl
  | cons _ _ ih =>
    rw [within_layout_cons, if_neg (by omega)]
    exact ih (by omega)

section Cut

variable {f : FrameFormat}

theorem encodeFrames_cons (payload : Bytes) (rest : List Bytes) :
    encodeFrames f (payload :: rest) = encodeFrame f payload ++ encodeFrames f rest := rfl

theorem encodeFrames_append (payloads more : List Bytes) :
    encodeFrames f (payloads ++ more) = encodeFrames f payloads ++ encodeFrames f more :=
  flatMap_append

/-- A cut leaves the frames inside it and a proper prefix of the next frame. -/
theorem cut_layout (payloads : List Bytes) : ∀ base cut : Nat, base ≤ cut →
    ∃ kept tail, within cut (layout base payloads) = layout base kept ∧ kept <+: payloads ∧
      (encodeFrames f payloads).take (cut - base) = encodeFrames f kept ++ tail ∧
      (tail ≠ [] → ∃ payload rest, payloads = kept ++ payload :: rest ∧
        tail <+: encodeFrame f payload ∧ tail.length < (encodeFrame f payload).length) := by
  induction payloads with
  | nil =>
    intro base cut _
    refine ⟨[], [], rfl, prefix_refl _, ?_, fun h => absurd rfl h⟩
    rw [show encodeFrames f [] = [] from rfl, take_nil, append_nil]
  | cons payload rest ih =>
    intro base cut hcut
    have hlength := length_encodeFrame (f := f) payload
    by_cases hinside : base + frameHeaderLen + payload.length ≤ cut
    · obtain ⟨kept, tail, hwithin, hkept, htake, htail⟩ := ih _ cut hinside
      refine ⟨payload :: kept, tail, ?_, prefix_cons_inj payload |>.2 hkept, ?_, fun hne => ?_⟩
      · rw [within_layout_cons, if_pos hinside, hwithin, layout]
      · have hrest : (encodeFrames f rest).take (cut - base - (encodeFrame f payload).length) =
            encodeFrames f kept ++ tail := by
          rw [← htake]
          congr 1
          omega
        rw [encodeFrames_cons, encodeFrames_cons, take_append, hrest, append_assoc,
          take_of_length_le (by omega)]
      · obtain ⟨next, more, hnext, hstarts, hshort⟩ := htail hne
        exact ⟨next, more, by rw [hnext, cons_append], hstarts, hshort⟩
    · -- The cut goes through this frame.
      refine ⟨[], (encodeFrame f payload).take (cut - base), ?_, nil_prefix, ?_, fun _ => ?_⟩
      · rw [within_layout_cons, if_neg hinside,
          within_layout_eq_nil (Nat.lt_of_not_le hinside) rest, layout]
      · rw [encodeFrames_cons, take_append_of_le_length (by omega)]
        rfl
      · refine ⟨payload, rest, rfl, take_prefix _ _, ?_⟩
        rw [length_take]
        omega

end Cut

/-! ## Writing -/

inductive FrameWrite
  | one (payload : Bytes)
  | batch (payloads : List Bytes)

def FrameWrite.payloads : FrameWrite → List Bytes
  | .one payload => [payload]
  | .batch payloads => payloads

section Write

variable (f : FrameFormat)

def FrameWrite.run (file : Bytes) : FrameWrite → Except DurableError (List ArenaLocation × Bytes)
  | .one payload => do
    let (location, file) ← appendFrame f file payload
    pure ([location], file)
  | .batch payloads => appendFrames f file payloads

def writeAll : List FrameWrite → Bytes → Except DurableError (List ArenaLocation × Bytes)
  | [], file => .ok ([], file)
  | write :: rest, file => do
    let (locations, file) ← write.run f file
    let (more, file) ← writeAll rest file
    pure (locations ++ more, file)

variable {f}

/-- What a successful write of payloads has done. -/
structure Wrote (f : FrameFormat) (file : Bytes) (payloads : List Bytes)
    (locations : List ArenaLocation) (file' : Bytes) : Prop where
  appended : file' = file ++ encodeFrames f payloads
  located : locations = (layout file.length payloads).map (StoredFrame.location f)
  fits : file.length < wordLimit → file'.length < wordLimit

theorem writeAllBytes_eq_ok {operation : String} {file bytes file' : Bytes} :
    writeAllBytes operation file bytes = .ok file' ↔
      file' = file ++ bytes ∧ file'.length < wordLimit := by
  unfold writeAllBytes
  simp only [bind_eq_ok, require_eq_ok]
  constructor
  · intro h
    obtain ⟨_, hfits, heq⟩ := h
    cases heq
    exact ⟨rfl, by rwa [length_append]⟩
  · intro h
    obtain ⟨heq, hfits⟩ := h
    subst heq
    exact ⟨(), by rwa [length_append] at hfits, rfl⟩

theorem wrote_appendFrame {file payload file' : Bytes} {location : ArenaLocation}
    (h : appendFrame f file payload = .ok (location, file')) :
    Wrote f file [payload] [location] file' := by
  unfold appendFrame at h
  simp only [bind_eq_ok, writeAllBytes_eq_ok] at h
  obtain ⟨_, _, _, ⟨hheader, _⟩, _, ⟨hwritten, hfits⟩, heq⟩ := h
  cases heq
  refine ⟨?_, rfl, fun _ => hfits⟩
  rw [hwritten, hheader]
  simp [encodeFrames, encodeFrame]

theorem encodeBatch_eq_ok {base : Nat} {payloads : List Bytes} {encoded encoded' : Bytes}
    {locations : List ArenaLocation}
    (h : encodeBatch f base payloads encoded = .ok (locations, encoded')) :
    encoded' = encoded ++ encodeFrames f payloads ∧
      locations = (layout (base + encoded.length) payloads).map (StoredFrame.location f) := by
  induction payloads generalizing encoded encoded' locations with
  | nil =>
    cases h
    exact ⟨(append_nil _).symm, rfl⟩
  | cons payload _ ih =>
    unfold encodeBatch at h
    simp only [bind_eq_ok, okOr_eq_ok, checkedAdd_eq_some] at h
    obtain ⟨_, _, _, ⟨hoffset, _⟩, ⟨_, _⟩, hrest, heq⟩ := h
    cases heq
    obtain ⟨hall, hmore⟩ := ih hrest
    refine ⟨?_, ?_⟩
    · rw [hall, append_assoc]
      rfl
    · rw [hmore, length_append, ← add_assoc, ← hoffset]
      have hlength : (frameHeader f payload.length (frameChecksum f payload.length payload) ++
          payload).length = frameHeaderLen + payload.length := length_encodeFrame payload
      rw [hlength, ← add_assoc]
      rfl

theorem wrote_appendFrames {file file' : Bytes} {payloads : List Bytes}
    {locations : List ArenaLocation} (h : appendFrames f file payloads = .ok (locations, file')) :
    Wrote f file payloads locations file' := by
  unfold appendFrames at h
  simp only [bind_eq_ok, writeAllBytes_eq_ok] at h
  obtain ⟨_, _, ⟨_, _⟩, hbatch, _, ⟨hwritten, hfits⟩, heq⟩ := h
  cases heq
  obtain ⟨hencoded, hlocations⟩ := encodeBatch_eq_ok hbatch
  refine ⟨?_, hlocations, fun _ => hfits⟩
  rw [hwritten, hencoded, nil_append]

theorem wrote_writeAll {writes : List FrameWrite} {file file' : Bytes}
    {locations : List ArenaLocation} (h : writeAll f writes file = .ok (locations, file')) :
    Wrote f file (writes.flatMap FrameWrite.payloads) locations file' := by
  induction writes generalizing file file' locations with
  | nil =>
    cases h
    exact ⟨(append_nil _).symm, rfl, id⟩
  | cons write _ ih =>
    unfold writeAll at h
    simp only [bind_eq_ok] at h
    obtain ⟨⟨first, between⟩, hfirst, ⟨_, _⟩, hmore, heq⟩ := h
    cases heq
    have hwrote : Wrote f file write.payloads first between := by
      cases write with
      | one =>
        unfold FrameWrite.run at hfirst
        simp only [bind_eq_ok] at hfirst
        obtain ⟨⟨_, _⟩, happend, heq⟩ := hfirst
        cases heq
        exact wrote_appendFrame happend
      | batch => exact wrote_appendFrames hfirst
    have hrest := ih hmore
    refine ⟨?_, ?_, fun hfits => hrest.fits (hwrote.fits hfits)⟩
    · rw [hrest.appended, hwrote.appended, append_assoc, flatMap_cons, encodeFrames_append]
    · have hbetween : between.length = file.length + journalLength write.payloads := by
        rw [hwrote.appended, length_append, length_encodeFrames]
      rw [hrest.located, hwrote.located, hbetween, flatMap_cons, layout_append, map_append]

end Write

/-! ## Scanning what a cut leaves -/

section Scan

variable (f : FrameFormat)

/-- A scan whose callback collects the frames. -/
def scanFrames (protectedLen : Nat) (file : Bytes) :
    Except DurableError (List StoredFrame) × Bytes :=
  scanFramesWithProtectedPrefix f
    (fun offset payload frames => .ok (frames ++ [⟨offset, payload⟩])) protectedLen file []

theorem foldFrames_collect (payloads : List Bytes) (base : Nat) (frames : List StoredFrame) :
    foldFrames (fun offset payload frames => .ok (frames ++ [⟨offset, payload⟩])) base payloads
    frames = .ok (frames ++ layout base payloads) := by
  induction payloads generalizing base frames with
  | nil =>
    rw [layout, append_nil]
    rfl
  | cons payload rest ih =>
    show foldFrames _ (base + frameHeaderLen + payload.length) rest _ = _
    rw [ih, append_assoc]
    rfl

variable {f} {σ : Type} {accept : Nat → Bytes → σ → Except DurableError σ} {protectedLen : Nat}

/-- Any scan of frames and what a cut left of the next one. -/
theorem scan_cut {payloads : List Bytes} {tail : Bytes} {s : σ}
    (hlimits : ∀ payload ∈ payloads, payload.length ≤ f.maxFrameBytes)
    (hfits : (encodeFrames f payloads ++ tail).length < wordLimit)
    (htail : CutOff f (encodeFrames f payloads).length tail)
    (hprotected : protectedLen ≤ (encodeFrames f payloads).length) :
    scanFramesWithProtectedPrefix f accept protectedLen (encodeFrames f payloads ++ tail) s =
      scanned (encodeFrames f payloads ++ tail) (encodeFrames f payloads)
        (foldFrames accept 0 payloads s) := by
  have hlength : protectedLen ≤ (encodeFrames f payloads ++ tail).length := by
    rw [length_append]
    omega
  unfold scanFramesWithProtectedPrefix
  rw [if_neg (not_lt.2 hlength)]
  exact run_frames payloads [] s hlimits hfits htail hprotected

/-- A scan of whole frames changes nothing. -/
theorem scan_whole {payloads : List Bytes} {s : σ}
    (hlimits : ∀ payload ∈ payloads, payload.length ≤ f.maxFrameBytes)
    (hfits : (encodeFrames f payloads).length < wordLimit)
    (hprotected : protectedLen ≤ (encodeFrames f payloads).length) :
    scanFramesWithProtectedPrefix f accept protectedLen (encodeFrames f payloads) s =
      (foldFrames accept 0 payloads s, encodeFrames f payloads) := by
  have h : scanFramesWithProtectedPrefix f accept protectedLen (encodeFrames f payloads ++ []) s =
      scanned (encodeFrames f payloads ++ []) (encodeFrames f payloads)
        (foldFrames accept 0 payloads s) :=
    scan_cut hlimits (by rwa [append_nil]) ⟨fun hne => absurd rfl hne⟩ hprotected
  rw [append_nil] at h
  rw [h]
  cases foldFrames accept 0 payloads s with
  | ok | error => rfl

/-- What recovery makes of a file that was cut. -/
structure RepairedCut (f : FrameFormat) (frames : List StoredFrame) (protectedLen : Nat)
    (file : Bytes)
    (cut : Nat) : Prop where
  repaired : protectedLen ≤ cut → scanFrames f protectedLen (file.take cut) =
    (.ok (within cut frames), file.take (lastStop 0 (within cut frames)))
  again : protectedLen ≤ cut →
    scanFrames f protectedLen (file.take (lastStop 0 (within cut frames))) =
      (.ok (within cut frames), file.take (lastStop 0 (within cut frames)))
  refused : cut < protectedLen → ∃ e, scanFrames f protectedLen (file.take cut) =
    (.error e, file.take cut)

/-- The published frames are among those that the cut leaves whole. -/
theorem published_le_kept {payloads kept rest : List Bytes} {tail : Bytes} {published cut : Nat}
    (hrest : kept ++ rest = payloads)
    (htake : (encodeFrames f payloads).take cut = encodeFrames f kept ++ tail)
    (htail : tail ≠ [] → ∃ payload rest, payloads = kept ++ payload :: rest ∧
      tail <+: encodeFrame f payload ∧ tail.length < (encodeFrame f payload).length)
    (hcut : journalLength (payloads.take published) ≤ cut) :
    journalLength (payloads.take published) ≤ (encodeFrames f kept).length := by
  have htaken : journalLength (payloads.take published) ≤
    (encodeFrames f kept).length + tail.length := by
    rw [← length_append, ← htake, length_take, length_encodeFrames]
    have hsplit := length_encodeFrames (f := f) (payloads.take published ++ payloads.drop published)
    rw [encodeFrames_append, length_append, take_append_drop, length_encodeFrames] at hsplit
    omega
  by_cases hinside : published ≤ kept.length
  · have hsame : payloads.take published = kept.take published := by
      rw [← hrest, take_append_of_le_length hinside]
    have hsplit := length_encodeFrames (f := f) (kept.take published ++ kept.drop published)
    rw [encodeFrames_append, length_append, take_append_drop, length_encodeFrames,
      ← length_encodeFrames (f := f) kept] at hsplit
    rw [hsame]
    omega
  · -- Otherwise the frame that is cut off would be a published one.
    by_cases hempty : tail = []
    · rw [hempty] at htaken
      exact htaken
    obtain ⟨payload, more, hpayloads, _, _⟩ := htail hempty
    obtain ⟨beyond, hbeyond⟩ := Nat.exists_eq_add_of_lt (Nat.lt_of_not_le hinside)
    have hlonger : payloads.take published = kept ++ payload :: more.take beyond := by
      rw [hpayloads, hbeyond, add_assoc, take_length_add_append, take_succ_cons]
    have hlength := length_encodeFrames (f := f) (kept ++ payload :: more.take beyond)
    rw [encodeFrames_append, encodeFrames_cons, length_append, length_append] at hlength
    rw [hlonger] at htaken ⊢
    omega

/-- Frames that were appended and then cut: above the published frames, the scan returns exactly
the frames inside the cut and cuts the file after them, once and for all; below, it fails and
leaves the file alone. -/
theorem scan_truncated {writes : List FrameWrite} {locations : List ArenaLocation} {file : Bytes}
    (h : writeAll f writes [] = .ok (locations, file))
    (hlimits : ∀ write ∈ writes, ∀ payload ∈ write.payloads, payload.length ≤ f.maxFrameBytes)
    (published cut : Nat) :
    locations = (layout 0 (writes.flatMap FrameWrite.payloads)).map (StoredFrame.location f) ∧
      RepairedCut f (layout 0 (writes.flatMap FrameWrite.payloads))
        (lastStop 0 ((layout 0 (writes.flatMap FrameWrite.payloads)).take published)) file cut := by
  have hwrote := wrote_writeAll h
  have hfile : file = encodeFrames f (writes.flatMap FrameWrite.payloads) := hwrote.appended
  have hfits := hwrote.fits (by decide)
  refine ⟨hwrote.located, ?_⟩
  have hlimit : ∀ payload ∈ writes.flatMap FrameWrite.payloads,
    payload.length ≤ f.maxFrameBytes := by
    intro payload hpayload
    obtain ⟨write, hwrite, hmem⟩ := mem_flatMap.1 hpayload
    exact hlimits write hwrite payload hmem
  generalize writes.flatMap FrameWrite.payloads = payloads at *
  subst hfile
  rw [layout_take, lastStop_layout, zero_add]
  obtain ⟨kept, tail, hwithin, ⟨_, hrest⟩, htake, htail⟩ := cut_layout (f := f) payloads 0 cut
    (Nat.zero_le _)
  rw [Nat.sub_zero] at htake
  have hkept : ∀ payload ∈ kept, payload.length ≤ f.maxFrameBytes := by
    intro payload hpayload
    exact hlimit payload (hrest ▸ mem_append_left _ hpayload)
  have hstop : (encodeFrames f payloads).take (lastStop 0 (within cut (layout 0 payloads))) =
      encodeFrames f kept := by
    rw [hwithin, lastStop_layout, zero_add, ← length_encodeFrames (f := f), ← hrest,
      encodeFrames_append, take_left]
  have hshort : (encodeFrames f kept ++ tail).length ≤ (encodeFrames f payloads).length := by
    rw [← htake, length_take]
    exact Nat.min_le_right _ _
  have htorn : CutOff f (encodeFrames f kept).length tail := by
    refine ⟨fun hne => ?_⟩
    obtain ⟨payload, _, hpayloads, hstarts, hless⟩ := htail hne
    refine ⟨payload, hstarts, hless, hlimit payload ?_, ?_⟩
    · rw [hpayloads]
      exact mem_append_right _ mem_cons_self
    · rw [hpayloads, encodeFrames_append, encodeFrames_cons, length_append, length_append] at hfits
      omega
  have hscan : ∀ protectedLen, protectedLen ≤ (encodeFrames f kept).length →
      scanFrames f protectedLen (encodeFrames f kept ++ tail) =
        (.ok (layout 0 kept), encodeFrames f kept) := by
    intro protectedLen hprotected
    unfold scanFrames
    rw [scan_cut hkept (by omega) htorn hprotected, foldFrames_collect]
    rfl
  have hagain : ∀ protectedLen, protectedLen ≤ (encodeFrames f kept).length →
      scanFrames f protectedLen (encodeFrames f kept) =
        (.ok (layout 0 kept), encodeFrames f kept) := by
    intro protectedLen hprotected
    have hless : (encodeFrames f kept).length ≤ (encodeFrames f kept ++ tail).length := by
      rw [length_append]
      omega
    unfold scanFrames
    rw [scan_whole hkept (by omega) hprotected, foldFrames_collect]
    rfl
  refine ⟨fun hcut => ?_, fun hcut => ?_, fun hcut => ?_⟩
  · rw [hstop, htake, hwithin]
    exact hscan _ (published_le_kept hrest htake htail hcut)
  · rw [hstop, hwithin]
    exact hagain _ (published_le_kept hrest htake htail hcut)
  · have hbelow : ((encodeFrames f payloads).take cut).length <
      journalLength (payloads.take published) := by
      rw [length_take]
      omega
    unfold scanFrames scanFramesWithProtectedPrefix
    rw [if_pos hbelow]
    exact ⟨_, rfl⟩

end Scan

/-- A checksum for runs on fixed payloads. -/
def zeroChecksum : Bytes → Digest := fun _ => ⟨List.replicate 32 0, rfl⟩

/-- Three frames with the first published: the file is cut in the header of the second, and below
the end of the first. -/
theorem scan_truncated_twice :
    (∃ locations file, writeAll (arenaFormat zeroChecksum 4) [.one [1, 2], .batch [[3], []]] [] =
        .ok (locations, file) ∧
      RepairedCut (arenaFormat zeroChecksum 4) [⟨0, [1, 2]⟩, ⟨54, [3]⟩, ⟨107, []⟩] 54 file 90) ∧
    ∃ locations file, writeAll (arenaFormat zeroChecksum 4) [.one [1, 2], .batch [[3], []]] [] =
        .ok (locations, file) ∧
      RepairedCut (arenaFormat zeroChecksum 4) [⟨0, [1, 2]⟩, ⟨54, [3]⟩, ⟨107, []⟩] 54 file 53 := by
  have hlimits : ∀ write ∈ [FrameWrite.one [1, 2], .batch [[3], []]],
      ∀ payload ∈ write.payloads, payload.length ≤ (arenaFormat zeroChecksum 4).maxFrameBytes := by
    decide
  refine ⟨⟨_, _, rfl, (scan_truncated rfl hlimits 1 90).2⟩, ⟨_, _, rfl, ?_⟩⟩
  exact (scan_truncated rfl hlimits 1 53).2

/-- A frame above the limit of the reader lies completely inside the file, and the scan fails. -/
theorem oversized_frame_refused :
    ∃ locations file, writeAll (arenaFormat zeroChecksum 1) [.one [1, 2]] [] =
        .ok (locations, file) ∧
      scanFrames (arenaFormat zeroChecksum 1) 0 (file.take 54) =
        (.error (.frameTooLarge .arena 0 2 1), file) ∧
      ¬ RepairedCut (arenaFormat zeroChecksum 1) [⟨0, [1, 2]⟩] 0 file 54 := by
  refine ⟨_, _, rfl, rfl, fun h => ?_⟩
  have hrepaired := congrArg Prod.fst (h.repaired (Nat.zero_le _))
  cases hrepaired

end Astrid
