import Astrid.Durable.Arena

/-!
# The search for a later frame

A scan that meets damage behind the published prefix cuts the file there, unless a complete frame
follows. The search reads the file in windows that overlap by one byte less than the magic, so the
positions they show have no gap (`searchWindows_eq`). A read may return less than was asked for, and
then the search ends with that window; reads that are all full show every position (`shown_all`,
which is the search of `validFrameFollows`).

A header whose length overflows ends the search with an error, and a complete one beyond the limit
counts as a frame. `search_right_iff` says when the answer is right nevertheless.
-/

namespace Astrid

open List

section Search

variable {f : FrameFormat} {file : Bytes} {reads : Nat → Nat}

/-- The windows of the search from a position on, where a read at an offset returns at most
`reads offset` bytes. Every window advances the search. -/
def searchWindows (f : FrameFormat) (file : Bytes) (reads : Nat → Nat) :
    Nat → Nat → Except DurableError Bool
  | 0, _ => .ok false
  | fuel + 1, searchOffset =>
    if file.length ≤ searchOffset then .ok false
    else
      let wanted := min (file.length - searchOffset) 65543
      let read := min wanted (reads searchOffset)
      if read < f.magic.length then .ok false
      else do
        if ← validFrameAmong f file (range' searchOffset (read - f.magic.length + 1)) then .ok true
        else if read < wanted then .ok false
        else searchWindows f file reads fuel (searchOffset + (read - (f.magic.length - 1)))

/-- The end of the positions that the windows show. -/
def shownEnd (f : FrameFormat) (file : Bytes) (reads : Nat → Nat) : Nat → Nat → Nat
  | 0, searchOffset => searchOffset
  | fuel + 1, searchOffset =>
    if file.length ≤ searchOffset then searchOffset
    else
      let wanted := min (file.length - searchOffset) 65543
      let read := min wanted (reads searchOffset)
      if read < f.magic.length then searchOffset
      else
        let next := searchOffset + (read - (f.magic.length - 1))
        if read < wanted then next else shownEnd f file reads fuel next

theorem le_shownEnd (f : FrameFormat) (file : Bytes) (reads : Nat → Nat) (fuel searchOffset : Nat) :
    searchOffset ≤ shownEnd f file reads fuel searchOffset := by
  induction fuel generalizing searchOffset with
  | zero => exact le_rfl
  | succ _ ih =>
    rw [shownEnd]
    dsimp only
    split_ifs
    · exact le_rfl
    · exact le_rfl
    · exact Nat.le_add_right _ _
    · exact (Nat.le_add_right _ _).trans (ih _)

theorem validFrameAmong_append (front rest : List Nat) :
    validFrameAmong f file (front ++ rest) = (do
      if ← validFrameAmong f file front then .ok true else validFrameAmong f file rest) := by
  induction front with
  | nil => rfl
  | cons candidate _ ih =>
    rw [cons_append, validFrameAmong, validFrameAmong]
    split
    · exact ih
    cases physicalFrameIsValid f file candidate with
    | error => rfl
    | ok valid =>
      cases valid with
      | true => rfl
      | false => exact ih

/-- The search looks at the positions it shows, in order. -/
theorem searchWindows_eq (fuel searchOffset : Nat) :
    searchWindows f file reads fuel searchOffset = validFrameAmong f file
      (range' searchOffset (shownEnd f file reads fuel searchOffset - searchOffset)) := by
  have hnone : ∀ searchOffset, .ok false =
      validFrameAmong f file (range' searchOffset (searchOffset - searchOffset)) := by
    intro searchOffset
    rw [Nat.sub_self, range'_zero, validFrameAmong]
  have hmagic := f.magic_length
  induction fuel generalizing searchOffset with
  | zero => exact hnone searchOffset
  | succ fuel ih =>
    rw [searchWindows, shownEnd]
    dsimp only
    generalize min (file.length - searchOffset) 65543 = wanted
    generalize min wanted (reads searchOffset) = read
    by_cases hinside : file.length ≤ searchOffset
    · rw [if_pos hinside, if_pos hinside]
      exact hnone searchOffset
    rw [if_neg hinside, if_neg hinside]
    by_cases hread : read < f.magic.length
    · rw [if_pos hread, if_pos hread]
      exact hnone searchOffset
    rw [if_neg hread, if_neg hread, show read - (f.magic.length - 1) =
      read - f.magic.length + 1 by omega]
    by_cases hshort : read < wanted
    · simp only [if_pos hshort, Nat.add_sub_cancel_left]
      cases validFrameAmong f file (range' searchOffset (read - f.magic.length + 1)) with
      | error => rfl
      | ok found => cases found <;> rfl
    · -- the positions of the window, then those from the next window on
      have hend := le_shownEnd f file reads fuel (searchOffset + (read - f.magic.length + 1))
      simp only [if_neg hshort, ih]
      generalize shownEnd f file reads fuel _ = last at hend ⊢
      have hsplit : range' searchOffset (last - searchOffset) =
          range' searchOffset (read - f.magic.length + 1) ++
            range' (searchOffset + (read - f.magic.length + 1))
              (last - (searchOffset + (read - f.magic.length + 1))) := by
        rw [range'_append_1]
        congr 1
        omega
      rw [hsplit, validFrameAmong_append]

/-- More fuel than the file has bytes changes nothing. -/
theorem searchWindows_fuel {fuel searchOffset : Nat} (hfuel : file.length ≤ searchOffset + fuel)
    (more : Nat) : searchWindows f file reads (fuel + more) searchOffset =
      searchWindows f file reads fuel searchOffset := by
  have hmagic := f.magic_length
  induction fuel generalizing searchOffset with
  | zero =>
    cases more with
    | zero => rfl
    | succ => rw [← Nat.add_assoc, searchWindows, searchWindows, if_pos (by omega)]
  | succ fuel ih =>
    rw [Nat.succ_add, searchWindows, searchWindows]
    dsimp only
    split_ifs with hinside hread hshort
    · rfl
    · rfl
    · rfl
    · rw [ih (by omega)]

/-- Reads that return what was asked for show every position at which the magic fits. -/
theorem shown_all (hreads : ∀ offset, 65543 ≤ reads offset) {fuel searchOffset : Nat}
    (hfuel : file.length ≤ searchOffset + fuel) :
    shownEnd f file reads fuel searchOffset =
      max searchOffset (file.length + 1 - f.magic.length) := by
  have hmagic := f.magic_length
  induction fuel generalizing searchOffset with
  | zero =>
    rw [shownEnd]
    omega
  | succ _ ih =>
    have hread := hreads searchOffset
    rw [shownEnd]
    dsimp only
    split_ifs
    · omega
    · omega
    · omega
    · rw [ih (by omega)]
      omega

/-- With such reads the windows are the search of the scan. -/
theorem searchWindows_full (hreads : ∀ offset, 65543 ≤ reads offset) (invalidOffset : Nat) :
    searchWindows f file reads file.length (invalidOffset + 1) =
      validFrameFollows f file invalidOffset := by
  rw [searchWindows_eq, shown_all hreads (by omega), validFrameFollows]
  congr 2
  omega

/-! ## What decides -/

/-- A header with a length that overflows. -/
def OverflowsAt (f : FrameFormat) (file : Bytes) (offset : Nat) : Prop :=
  ∃ payloadLen checksum, HeaderAt f file offset payloadLen checksum ∧
    wordLimit ≤ frameHeaderLen + payloadLen

/-- A header whose frame would lie in the file, but is beyond the limit. -/
def OversizedAt (f : FrameFormat) (file : Bytes) (offset : Nat) : Prop :=
  ∃ payloadLen checksum, HeaderAt f file offset payloadLen checksum ∧
    f.maxFrameBytes < payloadLen ∧ offset + frameHeaderLen + payloadLen ≤ file.length

/-- What the search takes for a frame. -/
def TakenAt (f : FrameFormat) (file : Bytes) (offset : Nat) : Prop :=
  (∃ payload, FrameAt f file offset payload) ∨ OversizedAt f file offset

variable {offset payloadLen : Nat} {checksum : Digest}

theorem physicalFrameIsValid_of_header (h : HeaderAt f file offset payloadLen checksum) :
    physicalFrameIsValid f file offset = (do
      let frameLen ← okOr (checkedAdd frameHeaderLen payloadLen) .encodingOverflow
      if frameLen > file.length - offset then .ok false
      else if payloadLen > f.maxFrameBytes then .ok true
      else .ok ((frameChecksum f payloadLen
        (slice file (offset + frameHeaderLen) payloadLen)).bytes = checksum.bytes)) := by
  have hdecoded := h.decoded
  simp only [decodeFrameHeader, bind_eq_ok, require_eq_ok] at hdecoded
  obtain ⟨_, hversion, _, hreserved, hfields⟩ := hdecoded
  obtain ⟨hlen, hchecksum⟩ := Prod.mk.inj (Except.ok.inj hfields)
  unfold physicalFrameIsValid
  simp only [if_neg h.fits, h.magic, hversion, hreserved, hlen, hchecksum, ne_eq, not_true_eq_false,
    or_self, if_false]

theorem physicalFrameIsValid_of_none
    (h : ∀ payloadLen checksum, ¬ HeaderAt f file offset payloadLen checksum) :
    physicalFrameIsValid f file offset = .ok false := by
  unfold physicalFrameIsValid
  dsimp only
  by_cases hshort : file.length - offset < frameHeaderLen
  · rw [if_pos hshort]
  rw [if_neg hshort]
  split
  next => rfl
  next hgood =>
    simp only [not_or, not_not] at hgood
    obtain ⟨hmagic, hversion, hreserved⟩ := hgood
    have hinside : offset + frameHeaderLen ≤ file.length ∧ ¬ file.length ≤ offset := by
      unfold frameHeaderLen at *
      omega
    have hlength : ((slice file offset frameHeaderLen).drop checksumStart).length = 32 := by
      rw [length_drop, length_slice hinside.1]
      rfl
    have hdecoded : decodeFrameHeader f offset (slice file offset frameHeaderLen) =
        .ok (ofLe (slice (slice file offset frameHeaderLen) 12 8),
          (slice file offset frameHeaderLen).drop checksumStart) := by
      simp only [decodeFrameHeader, bind_eq_ok, require_eq_ok]
      exact ⟨(), hversion, (), hreserved, rfl⟩
    exact absurd ⟨hshort, hinside.2, hmagic, hdecoded⟩ (h _ ⟨_, hlength⟩)

theorem HeaderAt.unique {payloadLen' : Nat} {checksum' : Digest}
    (h : HeaderAt f file offset payloadLen checksum)
    (h' : HeaderAt f file offset payloadLen' checksum') :
    payloadLen' = payloadLen ∧ checksum'.bytes = checksum.bytes :=
  Prod.mk.inj (Except.ok.inj (h'.decoded.symm.trans h.decoded))

theorem validFrameAmong_cons (candidate : Nat) (rest : List Nat) :
    validFrameAmong f file (candidate :: rest) = (do
      if ← physicalFrameIsValid f file candidate then .ok true
      else validFrameAmong f file rest) := by
  rw [validFrameAmong]
  split
  next hmagic =>
    rw [physicalFrameIsValid_of_none]
    · rfl
    intro _ _ h
    refine hmagic ?_
    have htake := h.magic
    rwa [slice, take_take, ← f.magic_length, Nat.min_eq_left] at htake
    rw [f.magic_length]
    decide
  next => rfl

section

variable (hfits : file.length < wordLimit)

include hfits

/-- What is taken has a header. -/
theorem TakenAt.header (h : TakenAt f file offset) :
    ∃ payloadLen checksum, HeaderAt f file offset payloadLen checksum ∧
      offset + frameHeaderLen + payloadLen ≤ file.length := by
  rcases h with ⟨payload, hframe⟩ | ⟨payloadLen, checksum, hheader, _, hinside⟩
  · exact ⟨_, _, (hframe.fields hfits).1, hframe.inside⟩
  · exact ⟨payloadLen, checksum, hheader, hinside⟩

/-- The check of a position: a length that overflows is an error, else it tells what is taken. -/
theorem physicalFrameIsValid_spec (offset : Nat) :
    OverflowsAt f file offset ∧ physicalFrameIsValid f file offset = .error .encodingOverflow ∨
    ¬ OverflowsAt f file offset ∧ ∃ valid, physicalFrameIsValid f file offset = .ok valid ∧
      (valid = true ↔ TakenAt f file offset) := by
  by_cases hheader : ∃ payloadLen checksum, HeaderAt f file offset payloadLen checksum
  · obtain ⟨payloadLen, checksum, hheader⟩ := hheader
    rw [physicalFrameIsValid_of_header hheader]
    by_cases hword : frameHeaderLen + payloadLen < wordLimit
    · refine .inr ⟨?_, ?_⟩
      · rintro ⟨_, _, hheader', hoverflow⟩
        rw [(hheader.unique hheader').1] at hoverflow
        exact absurd hword (Nat.not_lt.2 hoverflow)
      rw [checkedAdd_eq_some.2 ⟨rfl, hword⟩]
      change ∃ valid, (if file.length - offset < frameHeaderLen + payloadLen then _ else _) = _ ∧ _
      have hstart := hheader.fits
      by_cases hlong : file.length - offset < frameHeaderLen + payloadLen
      · rw [if_pos hlong]
        refine ⟨false, rfl, iff_of_false Bool.false_ne_true fun htaken => ?_⟩
        obtain ⟨_, _, hheader', hinside⟩ := htaken.header hfits
        rw [(hheader.unique hheader').1] at hinside
        omega
      have hinside : offset + frameHeaderLen + payloadLen ≤ file.length := by
        unfold frameHeaderLen at *
        omega
      rw [if_neg hlong]
      by_cases hlimit : payloadLen > f.maxFrameBytes
      · rw [if_pos hlimit]
        exact ⟨true, rfl, iff_of_true rfl (.inr ⟨_, _, hheader, hlimit, hinside⟩)⟩
      rw [if_neg hlimit]
      refine ⟨_, rfl, decide_eq_true_iff.trans ⟨fun hchecksum => .inl ⟨_, frameAt_of_header
        hheader.magic hheader.decoded (Nat.not_lt.1 hlimit) hinside hchecksum⟩, ?_⟩⟩
      rintro (⟨payload, hframe⟩ | ⟨_, _, hheader', hlimit', _⟩)
      · obtain ⟨hheader', hpayload⟩ := hframe.fields hfits
        obtain ⟨hlen, hchecksum⟩ := hheader.unique hheader'
        rw [← hlen, hpayload]
        exact hchecksum
      · rw [(hheader.unique hheader').1] at hlimit'
        exact absurd hlimit' hlimit
    · refine .inl ⟨⟨_, _, hheader, Nat.not_lt.1 hword⟩, ?_⟩
      rw [checkedAdd, if_neg hword]
      rfl
  · refine .inr ⟨?_, false, ?_, iff_of_false Bool.false_ne_true ?_⟩
    · rintro ⟨payloadLen, checksum, h, _⟩
      exact hheader ⟨payloadLen, checksum, h⟩
    · exact physicalFrameIsValid_of_none fun payloadLen checksum h =>
        hheader ⟨payloadLen, checksum, h⟩
    · intro htaken
      obtain ⟨payloadLen, checksum, h, _⟩ := htaken.header hfits
      exact hheader ⟨payloadLen, checksum, h⟩

/-- Positions in order: either a length that overflows comes before all that is taken, or the
search ends and tells whether something is taken. -/
theorem validFrameAmong_spec {candidates : List Nat} (hsorted : candidates.Pairwise (· < ·)) :
    (validFrameAmong f file candidates = .error .encodingOverflow ∧
      ∃ offset ∈ candidates, OverflowsAt f file offset ∧
        ∀ earlier ∈ candidates, earlier < offset → ¬ TakenAt f file earlier) ∨
    ∃ found, validFrameAmong f file candidates = .ok found ∧
      (found = true ↔ ∃ offset ∈ candidates, TakenAt f file offset) ∧
      ∀ offset ∈ candidates, OverflowsAt f file offset →
        ∃ earlier ∈ candidates, earlier < offset ∧ TakenAt f file earlier := by
  induction candidates with
  | nil => exact .inr ⟨false, rfl, by simp, by simp⟩
  | cons candidate rest ih =>
    obtain ⟨hlater, hsorted⟩ := pairwise_cons.1 hsorted
    rw [validFrameAmong_cons]
    simp only [mem_cons, forall_eq_or_imp, exists_eq_or_imp]
    rcases physicalFrameIsValid_spec hfits candidate with ⟨hover, herror⟩ |
      ⟨hover, valid, hvalid, htaken⟩
    · rw [herror]
      exact .inl ⟨rfl, .inl ⟨hover, fun h => absurd h (lt_irrefl _), fun earlier hearlier h =>
        absurd h (hlater earlier hearlier).asymm⟩⟩
    rw [hvalid]
    cases valid with
    | true =>
      have htaken := htaken.1 rfl
      exact .inr ⟨true, rfl, iff_of_true rfl (.inl htaken), fun h => absurd h hover,
        fun offset hoffset _ => .inl ⟨hlater offset hoffset, htaken⟩⟩
    | false =>
      have hpassed : ¬ TakenAt f file candidate := fun h => Bool.false_ne_true (htaken.2 h)
      rcases ih hsorted with ⟨herror, offset, hoffset, hover', hfirst⟩ |
        ⟨found, hfound, hiff, hfirst⟩
      · exact .inl ⟨herror, .inr ⟨offset, hoffset, hover', fun _ => hpassed, hfirst⟩⟩
      · refine .inr ⟨found, hfound, hiff.trans ⟨.inr, fun h => h.resolve_left hpassed⟩,
          fun h => absurd h hover, fun offset hoffset h => .inr (hfirst offset hoffset h)⟩

end

/-- A position behind the damage that some window shows. -/
def ShownAt (f : FrameFormat) (file : Bytes) (reads : Nat → Nat) (invalidOffset offset : Nat) :
    Prop :=
  invalidOffset < offset ∧ offset < shownEnd f file reads file.length (invalidOffset + 1)

/-- The search ends and tells whether a complete frame follows, exactly if no length that overflows
is shown before something that is taken for a frame, and something is taken exactly if there is a
frame. -/
theorem search_right_iff (reads : Nat → Nat) (invalidOffset : Nat)
    (hfits : file.length < wordLimit) :
    (∃ found, searchWindows f file reads file.length (invalidOffset + 1) = .ok found ∧
      (found = true ↔ ∃ offset > invalidOffset, ∃ payload, FrameAt f file offset payload)) ↔
    (∀ offset, ShownAt f file reads invalidOffset offset → OverflowsAt f file offset →
      ∃ earlier, ShownAt f file reads invalidOffset earlier ∧ earlier < offset ∧
        TakenAt f file earlier) ∧
    ((∃ offset, ShownAt f file reads invalidOffset offset ∧ TakenAt f file offset) ↔
      ∃ offset > invalidOffset, ∃ payload, FrameAt f file offset payload) := by
  have hshown : ∀ offset, offset ∈ range' (invalidOffset + 1)
      (shownEnd f file reads file.length (invalidOffset + 1) - (invalidOffset + 1)) ↔
        ShownAt f file reads invalidOffset offset := by
    intro offset
    have hend := le_shownEnd f file reads file.length (invalidOffset + 1)
    rw [mem_range'_1, ShownAt]
    omega
  rw [searchWindows_eq]
  have hspec := validFrameAmong_spec (f := f) hfits (pairwise_lt_range' (s := invalidOffset + 1)
    (n := shownEnd f file reads file.length (invalidOffset + 1) - (invalidOffset + 1)))
  simp only [hshown] at hspec
  rcases hspec with ⟨herror, offset, hoffset, hover, hfirst⟩ | ⟨found, hfound, hiff, hfirst⟩
  · rw [herror]
    refine iff_of_false ?_ ?_
    · rintro ⟨_, ⟨⟩, _⟩
    · rintro ⟨hnone, _⟩
      obtain ⟨earlier, hearlier, hlt, htaken⟩ := hnone offset hoffset hover
      exact hfirst earlier hearlier hlt htaken
  · rw [hfound, ← hiff]
    constructor
    · rintro ⟨_, ⟨⟩, hright⟩
      exact ⟨hfirst, hright⟩
    · rintro ⟨_, hright⟩
      exact ⟨found, rfl, hright⟩

end Search

def tinyArena : FrameFormat := arenaFormat zeroChecksum 4

/-- Damage before a header whose frame would not fit into the file, and a frame. -/
def followedDamage : Bytes :=
  0 :: (frameHeader tinyArena 1000 (zeroChecksum []) ++ encodeFrame tinyArena [7])

theorem followedDamage_frameAt : FrameAt tinyArena followedDamage 53 [7] :=
  (readFrameAt_eq_ok (by decide)).1 rfl

/-- The frame is found by full reads: so it is shown, and nothing before it overflows. -/
theorem search_finds_frame :
    searchWindows tinyArena followedDamage (fun _ => 65543) followedDamage.length 1 = .ok true ∧
      ∃ offset, ShownAt tinyArena followedDamage (fun _ => 65543) 0 offset ∧
        TakenAt tinyArena followedDamage offset := by
  have hrun : searchWindows tinyArena followedDamage (fun _ => 65543) followedDamage.length 1 =
      .ok true := by rfl
  have hframe : ∃ offset > 0, ∃ payload, FrameAt tinyArena followedDamage offset payload :=
    ⟨53, by decide, [7], followedDamage_frameAt⟩
  have hright := (search_right_iff (f := tinyArena) (fun _ => 65543) 0 (by decide)).1
    ⟨true, hrun, iff_of_true rfl hframe⟩
  exact ⟨hrun, hright.2.2 hframe⟩

/-- Damage before a header alone, with the greatest length there is. -/
def absurdTail : Bytes := 0 :: frameHeader tinyArena (2 ^ 64 - 1) (zeroChecksum [])

/-- The absurd length fails the search, and with it the recovery of the file. A frame beyond the
limit counts as one. A read that returns less than the magic ends the search before the frame. -/
theorem absurd_lengths_misjudged :
    searchWindows tinyArena absurdTail (fun _ => 65543) absurdTail.length 1 =
        .error .encodingOverflow ∧
      (scanFramesWithProtectedPrefix tinyArena (fun _ _ s => .ok s) 0 absurdTail ()).1 =
        .error .encodingOverflow ∧
      searchWindows tinyArena (0 :: encodeFrame tinyArena (replicate 5 7)) (fun _ => 65543) 58 1 =
        .ok true ∧
      searchWindows tinyArena followedDamage (fun _ => 7) followedDamage.length 1 = .ok false ∧
      FrameAt tinyArena followedDamage 53 [7] := by
  exact ⟨by rfl, by rfl, by rfl, by rfl, followedDamage_frameAt⟩

end Astrid
