import Astrid.Wal.Codec

/-!
# Round trips of the WAL grammar

Everything the writer encodes decodes to the values it was encoded from. Each
lemma is about one body or header; the physical record lemmas say what a reader
sees at the front of a string that starts with an encoded record.
-/

namespace Astrid

open List Reads

/-! ## Headers -/

theorem length_physicalHeader (version payloadLen : Nat) (checksum : Digest) :
    (physicalHeader version payloadLen checksum).length = physicalHeaderLen := by
  simp [physicalHeader, walMagic, checksum.length_eq, physicalHeaderLen]

theorem length_recordHeader (kind : WalRecordKind) (flags : UInt8) (sequence ordinal : Nat) :
    (recordHeader kind flags sequence ordinal).length = recordHeaderLen := by
  simp [recordHeader, recordHeaderLen]

theorem decodePhysicalHeader_physicalHeader {version payloadLen : Nat} {checksum : Digest}
    (hversion : version = legacyVersion ∨ version = compressedObjectVersion)
    (hlen : payloadLen < wordLimit) :
    decodePhysicalHeader (physicalHeader version payloadLen checksum) =
      some ⟨version, payloadLen, checksum⟩ := by
  have hversion_lt : version < 256 ^ 2 := by
    rcases hversion with rfl | rfl <;> decide
  have hmagic : walMagic.length = 8 := rfl
  simp [decodePhysicalHeader, physicalHeader, slice_skip, slice_here, slice_all, slice_cons, hmagic,
    checksum.length_eq, ofLe_leBytes hversion_lt, hversion]
  rw [ofLe_leBytes hlen, checksum.ofBytes_bytes]
  exact ⟨rfl, rfl⟩

/-- The flags a record of each kind may carry. -/
def FlagsOk (kind : WalRecordKind) (flags : UInt8) : Prop :=
  flags = 0 ∨ (kind = .object ∧ flags = objectFlagLz4)

theorem decodeRecordHeader_recordHeader {kind : WalRecordKind} {flags : UInt8}
    (hflags : FlagsOk kind flags) (sequence : WalSequence) {ordinal : Nat}
    (hordinal : ordinal < wordLimit) (body : Bytes) (offset : Nat) :
    decodeRecordHeader (recordHeader kind flags sequence.value ordinal ++ body) offset =
      .ok ⟨kind, flags, sequence, ordinal⟩ := by
  have hlen : ¬ (recordHeader kind flags sequence.value ordinal ++ body).length <
      recordHeaderLen := by
    rw [length_append, length_recordHeader]
    omega
  have hok : ¬ ((kind = .object ∧ flags &&& ~~~objectFlagLz4 ≠ 0) ∨
      (kind ≠ .object ∧ flags ≠ 0)) := by
    rcases hflags with rfl | ⟨rfl, rfl⟩
    · simp
    · decide
  have hhead : (recordHeader kind flags sequence.value ordinal ++ body).headD 0 = kind.tag := rfl
  have hflag : ((recordHeader kind flags sequence.value ordinal ++ body).drop 1).headD 0 = flags :=
    rfl
  have hzero : slice (recordHeader kind flags sequence.value ordinal ++ body) 2 2 = [0, 0] := rfl
  unfold decodeRecordHeader
  rw [if_neg hlen, hhead, kind.fromTag_tag, hzero]
  simp [recordHeader, slice_skip, slice_here, slice_cons]
  rw [ofLe_leBytes sequence.lt, ofLe_leBytes hordinal, sequence.new_value]
  simpa using hok

theorem recordBody_recordHeader (kind : WalRecordKind) (flags : UInt8) (sequence ordinal : Nat)
    (body : Bytes) : recordBody (recordHeader kind flags sequence ordinal ++ body) = body := by
  unfold recordBody
  rw [← length_recordHeader kind flags sequence ordinal, drop_left]

/-! ## Begin and Commit bodies -/

theorem decodeBeginBody_encode (scheme : IdentityScheme) (hints : Option WalBeginHints)
    (offset : Nat) :
    decodeBeginBody (encodeBeginBody scheme hints) offset = .ok (scheme, hints) := by
  have hscheme : IdentityScheme.new (UInt16.ofNat (ofLe (leBytes 2 scheme.algorithm.toNat)))
      (UInt16.ofNat (ofLe (leBytes 2 scheme.construction.toNat))) = some scheme := by
    rw [ofLe_leBytes scheme.algorithm.toNat_lt, ofLe_leBytes scheme.construction.toNat_lt,
      UInt16.ofNat_toNat, UInt16.ofNat_toNat]
    exact scheme.new_eq
  have hflags : ∀ (tag : UInt8) (rest : Bytes), slice (tag :: 0 :: 0 :: 0 :: rest) 0 1 = [tag] ∧
      slice (tag :: 0 :: 0 :: 0 :: rest) 1 3 = [0, 0, 0] := fun _ _ => ⟨rfl, rfl⟩
  cases hints with
  | none =>
    simp [decodeBeginBody, encodeBeginBody, beginFixedLen, slice_skip, slice_here, hscheme, hflags]
  | some =>
    simp [decodeBeginBody, encodeBeginBody, beginFixedLen, slice_skip, slice_here, slice_all,
      slice_cons, hscheme, hflags, ofLe_leBytes_word]

theorem length_encodeCommitBody (commit : CommitBody) :
    (encodeCommitBody commit).length = commitBodyLen := by
  simp [encodeCommitBody, commitBodyLen, commit.digest.length_eq]

theorem decodeCommitBody_encode {commit : CommitBody} (hlogical : commit.logicalCount < wordLimit)
    (hobject : commit.objectCount < wordLimit) (hroot : commit.rootCount < wordLimit)
    (hbytes : commit.logicalBytes < wordLimit) (offset : Nat) :
    decodeCommitBody (encodeCommitBody commit) offset = .ok commit := by
  unfold decodeCommitBody
  rw [if_neg (by rw [length_encodeCommitBody]; simp)]
  simp [encodeCommitBody, slice_skip, slice_here, slice_all, commit.digest.length_eq]
  rw [ofLe_leBytes commit.sequence.lt, ofLe_leBytes hlogical, ofLe_leBytes hobject,
    ofLe_leBytes hroot, ofLe_leBytes hbytes, commit.sequence.new_value,
    commit.digest.ofBytes_bytes]

/-! ## Object bodies -/

section Bodies

variable {P : Type} {env : WalEnv P} {body : Bytes}

theorem validateLogicalBody_ok (h : body.length ≤ env.maxFrameBytes) (offset : Nat) :
    validateLogicalBody env body offset = .ok body.length := by
  unfold validateLogicalBody
  rw [if_neg (by omega)]

/-- A body that is the canonical frame of a record with the given identity. -/
def CanonicalObject (env : WalEnv P) (id : Digest) (body : Bytes) : Prop :=
  ∃ record, encodeObjectFrame env.scheme id record = some body ∧ env.identify record = id

theorem decodeObjectBody_canonical {id : Digest} (h : CanonicalObject env id body)
    (hfits : body.length < wordLimit) (offset : Nat) :
    decodeObjectBody env body env.scheme offset = .ok (id, body.length) := by
  obtain ⟨_, hencode, hid⟩ := h
  unfold decodeObjectBody
  rw [decodeObjectFrame_encode hencode hfits]
  simp [hencode, hid]

/-- What the code relies on from the compressor. -/
def Lz4RoundTrip (env : WalEnv P) : Prop :=
  ∀ body, env.decompress (env.compress body) body.length = some body

theorem flagsOk_storage (env : WalEnv P) (body : Bytes) :
    FlagsOk .object (encodeObjectStorageBody env body).1 := by
  unfold encodeObjectStorageBody
  split
  · exact .inl rfl
  · exact .inr ⟨rfl, rfl⟩

theorem decodeObjectStorageBody_encode (hlz4 : Lz4RoundTrip env)
    (hbody : body.length ≤ env.maxFrameBytes) (offset : Nat) :
    decodeObjectStorageBody env (encodeObjectStorageBody env body).2
      (encodeObjectStorageBody env body).1 offset = .ok body := by
  have hfits : body.length < 256 ^ 8 := lt_of_le_of_lt hbody env.maxFrameBytes_lt
  unfold encodeObjectStorageBody
  split
  · simp only [decodeObjectStorageBody, if_pos]
    rw [validateLogicalBody_ok hbody]
    rfl
  have hfield : slice (leBytes 8 body.length ++ env.compress body) 0 8 = leBytes 8 body.length :=
    slice_here (length_leBytes 8 _)
  have hflag : objectFlagLz4 ≠ 0 := by decide
  have hdrop : (leBytes 8 body.length ++ env.compress body).drop compressedObjectLengthLen =
      env.compress body := drop_left' (by simp [compressedObjectLengthLen])
  simp only [decodeObjectStorageBody, if_neg hflag]
  rw [if_neg (by simp [compressedObjectLengthLen]), hfield, ofLe_leBytes hfits, hdrop,
    if_neg (by omega), hlz4 body]
  simp

/-! ## Root bodies -/

section

variable (scheme : IdentityScheme)

theorem readBodyIdentity_parses (id : Digest) (offset : Nat) :
    Parses (readBodyIdentity scheme offset) (encodeIdentity scheme id) id := by
  refine (Parses.word _ scheme.algorithm.toNat_lt).bind ?_
  refine (Parses.word _ scheme.construction.toNat_lt).bind ?_
  refine (Parses.word _ (by decide)).bind ?_
  refine (Parses.ensure (by simp [currentDigestBytes]) _).bind_silent ?_
  have htake := Parses.take (bodyErrors offset) id.bytes
  rw [id.length_eq] at htake
  exact htake.bind_last (Parses.accept id.ofBytes_bytes _)

theorem readRootState_parses (root : RootState Digest) (offset : Nat) :
    Parses (readRootState scheme offset) (encodeRootState scheme root) root := by
  refine (Parses.word _ root.generation.toNat_lt).bind ?_
  refine (readBodyIdentity_parses scheme root.commit offset).bind_last ?_
  rw [UInt64.ofNat_toNat]
  exact Parses.pure _

theorem readExpected_parses (expected : Option (RootState Digest)) (offset : Nat) :
    Parses (readExpected scheme offset) (encodeExpected scheme expected)
      expected := by
  cases expected with
  | none => exact (Parses.byte _ 0).bind_last (Parses.pure none)
  | some root =>
    refine (Parses.byte _ 1).bind ?_
    exact (readRootState_parses scheme root offset).bind_last (Parses.pure (some root))

end

/-- An encoded root record decodes to its transition. -/
theorem decodeRootBody_encode {principal : Bytes} {expected : Option (RootState Digest)}
    {replacement : RootState Digest}
    (hencode : encodeRootRecord env.scheme principal expected replacement = some body)
    (hprincipal : validatePrincipal env principal = .ok ())
    (hgeneration : rootGenerationValid expected replacement = true)
    (hfits : body.length < wordLimit) (offset : Nat) :
    decodeRootBody env body env.scheme offset = .ok ⟨principal, expected, replacement⟩ := by
  have hbody := hencode
  unfold encodeRootRecord at hbody
  split at hbody
  next hlen =>
    have hword : principal.length < 256 ^ 8 := lt_of_lt_of_le hlen (by decide)
    have hparse : Parses (readRootBody env env.scheme offset) body
        ⟨principal, expected, replacement⟩ := by
      cases hbody
      refine (Parses.word _ hword).bind ?_
      refine (Parses.take _ _).bind ?_
      refine Parses.bind_silent (a := ()) (fun _ _ _ => by rw [hprincipal]; rfl) ?_
      refine (readExpected_parses env.scheme expected offset).bind ?_
      exact (readRootState_parses env.scheme replacement offset).bind_last (Parses.pure _)
    have hread := hparse 0 [] (by rw [append_nil, zero_add]; exact hfits)
    rw [append_nil] at hread
    unfold decodeRootBody
    rw [hread]
    simp [hgeneration, hencode]
  next => cases hbody

end Bodies

end Astrid
