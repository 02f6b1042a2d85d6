import Astrid.Content.Verified

/-!
# Reading a range of a verified file

A read that checks no boundaries visits the chunks in range and takes from each what the
range covers. On a held file that is the range of its bytes, wherever it begins and ends
(`readVerifiedContentRange_eq`): the part of a chunk is a `take` and a `drop` at distances
from the chunk's own offset, and these compose over consecutive chunks.
-/

namespace Astrid.Content

open Std List

/-! ## Parts of consecutive chunks -/

/-- What a range covers of a chunk. -/
def RequestedRange.part (range : RequestedRange) (base : Nat) (chunk : Bytes) : Bytes :=
  (chunk.take (range.stop - base)).drop (range.start - base)

variable {range : RequestedRange} {base : Nat} {chunk : Bytes}

theorem part_of_not_overlaps (h : range.overlaps base chunk.length = false) :
    range.part base chunk = [] := by
  unfold RequestedRange.overlaps at h
  rw [Bool.and_eq_false_iff, decide_eq_false_iff_not, decide_eq_false_iff_not] at h
  apply drop_of_length_le
  rw [length_take]
  omega

/-- The slice that a visit takes is the part in range. -/
theorem slice_eq_part :
    slice chunk (max range.start base - base)
      (min range.stop (base + chunk.length) - base - (max range.start base - base)) =
        range.part base chunk := by
  have hstart : max range.start base - base = range.start - base := by omega
  have hcount : min range.stop (base + chunk.length) - base - (range.start - base) =
      min (range.stop - base) chunk.length - (range.start - base) := by omega
  rw [RequestedRange.part, drop_take, hstart, hcount, slice]
  -- Both take everything behind the start that the chunk has.
  rcases le_total (range.stop - base) chunk.length with hle | hle
  · rw [min_eq_left hle]
  · rw [min_eq_right hle, take_of_length_le (by rw [length_drop]),
      take_of_length_le (by rw [length_drop]; omega)]

/-- Parts of consecutive chunks are the part of their concatenation. -/
theorem flatMap_part (range : RequestedRange) (chunks : List Bytes) (base : Nat) : (placed base
    chunks).flatMap (fun chunk => range.part chunk.1 chunk.2) = range.part base chunks.flatten := by
  induction chunks generalizing base with
  | nil =>
    rw [flatten_nil, RequestedRange.part, take_nil, drop_nil]
    rfl
  | cons chunk _ ih =>
    rw [placed, flatMap_cons, ih, flatten_cons]
    unfold RequestedRange.part
    rw [take_append, drop_append, length_take]
    rcases le_total chunk.length (range.stop - base) with hle | hle
    · rw [min_eq_right hle, Nat.sub_sub, Nat.sub_sub]
    -- The range ends within the chunk.
    have hnone : range.stop - (base + chunk.length) = 0 := by omega
    have hnone' : range.stop - base - chunk.length = 0 := by omega
    rw [hnone, hnone', take_zero, drop_nil, drop_nil]

/-! ## Reading -/

section Read

variable {Id E : Type} {env : ContentEnv Id} {source : ContentSource Id E}
  {profile : ChunkingProfile} {keep : Bool}

/-- Leaves outside the range have no part in it. -/
theorem flatMap_filter_part (range : RequestedRange) (visited : List (LoadedChunk Id)) :
    (visited.filter range.selects).flatMap (fun leaf => range.part leaf.start leaf.bytes) =
      visited.flatMap fun leaf => range.part leaf.start leaf.bytes := by
  induction visited with
  | nil => rfl
  | cons _ _ ih =>
    rw [filter_cons, flatMap_cons]
    split_ifs with hselects
    · rw [flatMap_cons, ih]
    · rw [ih, part_of_not_overlaps (Bool.not_eq_true _ ▸ hselects), nil_append]

variable [DecidableEq Id]

/-- Without a window, visits collect parts. -/
theorem visitAll_skip {visited : List (LoadedChunk Id)} {output : Bytes} :
    visited.foldlM (visit range profile) ⟨output, none⟩ =
      .ok ⟨output ++ visited.flatMap fun leaf => range.part leaf.start leaf.bytes, none⟩ := by
  induction visited generalizing output with
  | nil =>
    rw [flatMap_nil, append_nil]
    rfl
  | cons leaf _ ih =>
    have hvisit : visit range profile ⟨output, none⟩ leaf =
        .ok ⟨output ++ range.part leaf.start leaf.bytes, none⟩ := by
      rw [← slice_eq_part]
      rfl
    rw [foldlM_cons, hvisit, flatMap_cons, ← append_assoc]
    exact ih

/-- A read of a nonempty range of a verified file returns that range. -/
theorem readVerifiedContentRange_eq {file : Id} {chunks : List Bytes}
    (h : HeldContent env source profile chunks)
    (hreadable : ReadableCount profile chunks.length) {offset length : Nat}
    (hlength : length ≠ 0) (hrange : offset + length ≤ chunks.flatten.length) :
    readVerifiedContentRange source ⟨openedChunks env file profile chunks⟩ offset length =
      .ok ((chunks.flatten.take (offset + length)).drop offset) := by
  obtain ⟨record, hrecord⟩ := held_root env h.held
  have hoverlaps : RequestedRange.overlaps ⟨offset, offset + length⟩ 0 chunks.flatten.length =
      true := by
    unfold RequestedRange.overlaps
    rw [Bool.and_eq_true, decide_eq_true_eq, decide_eq_true_eq]
    dsimp only
    omega
  have hwalk : appendLoadedRange source ⟨offset, offset + length⟩
      (Nat.clog chunkTreeFanout chunks.length) (rootNode env profile chunks) record ⟨[], none⟩ =
        _ :=
    appendLoadedRange_eq (Nat.le_add_right _ _) _ h.fits h.held ⟨rfl, rfl, h.sized⟩ hreadable rfl
      (by show 0 + _ < _; rw [zero_add]; exact h.fits.bytes_lt) hoverlaps hrecord
  have houtput : ((leaves env false (Nat.clog chunkTreeFanout chunks.length) [] 0 chunks).filter
      (RequestedRange.selects ⟨offset, offset + length⟩)).flatMap
        (fun leaf => RequestedRange.part ⟨offset, offset + length⟩ leaf.start leaf.bytes) =
      (chunks.flatten.take (offset + length)).drop offset := by
    have hparts := flatMap_part ⟨offset, offset + length⟩ chunks 0
    have hplaced : (leaves env false (Nat.clog chunkTreeFanout chunks.length) [] 0 chunks).map
        (fun leaf => (leaf.start, leaf.bytes)) = placed 0 chunks := leaves_placed h.fits
    rw [← hplaced, flatMap_map] at hparts
    rw [flatMap_filter_part, hparts]
    rfl
  rw [readVerifiedContentRange, readDecodedRange_eq h hrecord hlength hrange, BoundaryMode.window,
    hwalk]
  show ((Except.mapError _ (foldlM (visit _ profile) ⟨[], none⟩
    ((leaves env false _ [] 0 chunks).filter _)) >>= _) >>= _) = _
  rw [visitAll_skip, houtput, nil_append, mapError_ok, ok_bind]
  have hoverall : ((chunks.flatten.take (offset + length)).drop offset).length = length := by
    rw [length_drop, length_take]
    omega
  rw [require_pos hoverall]
  rfl

end Read

end Astrid.Content
