import Astrid.Lib.Reader
import Astrid.Model.Object

/-!
# Durable object frames and root records

The byte grammar of `engine/durable/format` and of `encode_root_record` in
`engine/durable/roots.rs`: identities tagged with their scheme, canonical object
frames, and the root-transition record shared by the root journal and the WAL.

A length that does not fit a 64-bit field is an encoding error (`none`). The
main result is the round trip `decodeObjectFrame_encode`: an encoded frame is
decoded to the same values.
-/

namespace Astrid

open Std List Reads

/-! ## Digests and schemes -/

/-- A 32-byte digest. -/
structure Digest where
  bytes : Bytes
  length_eq : bytes.length = 32
  deriving DecidableEq

def Digest.ofBytes (bytes : Bytes) : Option Digest :=
  if h : bytes.length = 32 then some ⟨bytes, h⟩ else none

theorem Digest.ofBytes_bytes (d : Digest) : Digest.ofBytes d.bytes = some d := by
  simp [Digest.ofBytes, d.length_eq]

instance : Ord Digest := ⟨compareOn Digest.bytes⟩

instance : TransOrd Digest := inferInstanceAs (TransCmp (compareOn Digest.bytes))

instance : LawfulEqOrd Digest where
  compare_self := ReflOrd.compare_self
  eq_of_compare := by
    intro a b h
    obtain ⟨a, ha⟩ := a
    obtain ⟨b, hb⟩ := b
    obtain rfl : a = b := LawfulEqOrd.eq_of_compare h
    rfl

instance : Key Digest where

/-- Algorithm and construction version carried beside every durable identity. -/
@[ext]
structure IdentityScheme where
  algorithm : UInt16
  construction : UInt16
  algorithm_ne : algorithm ≠ 0
  construction_ne : construction ≠ 0

instance : DecidableEq IdentityScheme := fun _ _ => decidable_of_iff _ IdentityScheme.ext_iff.symm

def IdentityScheme.new (algorithm construction : UInt16) : Option IdentityScheme :=
  if h : algorithm ≠ 0 ∧ construction ≠ 0 then some ⟨algorithm, construction, h.1, h.2⟩
  else none

section

variable (scheme : IdentityScheme)

theorem IdentityScheme.new_eq :
    IdentityScheme.new scheme.algorithm scheme.construction = some scheme := by
  simp [IdentityScheme.new, scheme.algorithm_ne, scheme.construction_ne]

def currentDigestBytes : Nat := 32

def encodeIdentity (id : Digest) : Bytes :=
  leBytes 2 scheme.algorithm.toNat ++ (leBytes 2 scheme.construction.toNat ++
    (leBytes 4 currentDigestBytes ++ id.bytes))

/-! ## Reading frames -/

def sliceErrors : ReaderErrors String where
  overflow _ := "frame length overflow"
  truncated := "truncated frame payload"

/-- A scheme-tagged identity. -/
def readIdentity : Reads String Digest := do
  let algorithm ← word sliceErrors 2
  let construction ← word sliceErrors 2
  let digestLen ← word sliceErrors 4
  ensure (algorithm ≠ 0 ∧ construction ≠ 0 ∧ digestLen ≠ 0)
    "identity tag fields must be non-zero"
  let digest ← take sliceErrors digestLen
  ensure (algorithm = scheme.algorithm.toNat ∧ construction = scheme.construction.toNat)
    "unsupported identity algorithm or construction version"
  accept (Digest.ofBytes digest) "identity digest length does not match the supported scheme"

theorem toNat_ne_zero {x : UInt16} (h : x ≠ 0) : x.toNat ≠ 0 := by
  intro hx
  exact h (UInt16.toNat_inj.1 hx)

theorem readIdentity_parses (id : Digest) :
    Parses (readIdentity scheme) (encodeIdentity scheme id) id := by
  refine (Parses.word _ scheme.algorithm.toNat_lt).bind ?_
  refine (Parses.word _ scheme.construction.toNat_lt).bind ?_
  refine (Parses.word _ (by decide)).bind ?_
  refine (Parses.ensure ?_ _).bind_silent ?_
  · simp [toNat_ne_zero scheme.algorithm_ne, toNat_ne_zero scheme.construction_ne,
      currentDigestBytes]
  have htake := Parses.take sliceErrors id.bytes
  rw [id.length_eq] at htake
  refine htake.bind_last ?_
  refine (Parses.ensure (by simp) _).bind_silent ?_
  exact Parses.accept id.ofBytes_bytes _

/-! ## Object frames -/

def encodeReference (reference : ObjectReference Digest) : Bytes :=
  leBytes 8 reference.label.length ++ (reference.label ++
    (encodeIdentity scheme reference.target ++ [reference.kind.code]))

/-- The fields of a record after its identity. -/
def encodeRecordFields (record : ObjectRecord Digest) : Bytes :=
  leBytes 2 record.kind.code.toNat ++ (leBytes 2 record.formatVersion.value.toNat ++
    ([record.cls.code] ++ (leBytes 8 record.logicalBytes.toNat ++
      (leBytes 8 record.canonicalBytes.length ++ (leBytes 8 record.references.length ++
        (record.canonicalBytes ++ record.references.flatMap (encodeReference scheme)))))))

/-- The canonical frame of an object; `none` when a length does not fit its field. -/
def encodeObjectFrame (id : Digest) (record : ObjectRecord Digest) : Option Bytes :=
  if record.canonicalBytes.length < wordLimit ∧ record.references.length < wordLimit ∧
      (∀ reference ∈ record.references, reference.label.length < wordLimit) then
    some (encodeIdentity scheme id ++ encodeRecordFields scheme record)
  else none

end

/-- Whether a frame starts with the given identity. -/
def objectFrameDeclaresIdentity (frame : Bytes) (scheme : IdentityScheme) (id : Digest) : Bool :=
  40 ≤ frame.length ∧ frame.take 2 = leBytes 2 scheme.algorithm.toNat ∧
    (frame.drop 2).take 2 = leBytes 2 scheme.construction.toNat ∧
    (frame.drop 4).take 4 = leBytes 4 currentDigestBytes ∧
    (frame.drop 8).take 32 = id.bytes

/-- Label length, identity prefix, digest and kind. -/
def minReferenceWireBytes : Nat := 8 + 8 + 32 + 1

section

variable (scheme : IdentityScheme)

def readReference : Reads String (ObjectReference Digest) := do
  let labelLen ← word sliceErrors 8
  let label ← take sliceErrors labelLen
  let target ← readIdentity scheme
  let code ← byte sliceErrors
  let kind ← accept (ReferenceKind.fromCode code) "unknown reference-kind code"
  pure ⟨label, target, kind⟩

/-- The references of a frame, once their count fits the bytes that are left. -/
def readReferences (count : Nat) : Reads String (List (ObjectReference Digest)) := do
  let left ← remaining
  ensure (count ≤ left / minReferenceWireBytes) "reference count exceeds frame capacity"
  many (readReference scheme) count

def readRecordFields : Reads String (ObjectKind × ObjectFormatVersion ×
    ObjectClass × Nat × Bytes × List (ObjectReference Digest)) := do
  let kindCode ← word sliceErrors 2
  let kind ← accept (ObjectKind.fromCode (UInt16.ofNat kindCode)) "unknown object-kind code"
  let versionCode ← word sliceErrors 2
  let version ← accept (ObjectFormatVersion.new (UInt16.ofNat versionCode))
    "object-format version must be non-zero"
  let classCode ← byte sliceErrors
  let cls ← accept (ObjectClass.fromCode classCode) "unknown object-class code"
  let logicalBytes ← word sliceErrors 8
  let canonicalLen ← word sliceErrors 8
  let referenceCount ← word sliceErrors 8
  let canonicalBytes ← take sliceErrors canonicalLen
  let references ← readReferences scheme referenceCount
  pure (kind, version, cls, logicalBytes, canonicalBytes, references)

def readObjectFrame : Reads String (Digest × ObjectRecord Digest) := do
  let id ← readIdentity scheme
  let (kind, version, cls, logicalBytes, canonicalBytes, references) ← readRecordFields scheme
  let left ← remaining
  ensure (left = 0) "trailing object-frame bytes"
  match ObjectRecord.new kind version canonicalBytes references (UInt64.ofNat logicalBytes) cls with
  | .ok record => pure (id, record)
  | .error _ => fun _ => .error "non-canonical object references"

end

def decodeObjectFrame (bytes : Bytes) (scheme : IdentityScheme) :
    Except String (Digest × ObjectRecord Digest) :=
  (readObjectFrame scheme ⟨0, bytes⟩).map Prod.fst

section

variable (scheme : IdentityScheme)

theorem readReference_parses (reference : ObjectReference Digest)
    (hlabel : reference.label.length < wordLimit) :
    Parses (readReference scheme) (encodeReference scheme reference) reference := by
  refine (Parses.word _ hlabel).bind ?_
  refine (Parses.take _ _).bind ?_
  refine (readIdentity_parses scheme reference.target).bind ?_
  refine (Parses.byte _ _).bind_last ?_
  refine (Parses.accept reference.kind.fromCode_code _).bind_silent ?_
  exact Parses.pure _

theorem length_encodeIdentity (id : Digest) : (encodeIdentity scheme id).length = 40 := by
  simp [encodeIdentity, id.length_eq]

theorem minReferenceWireBytes_le (references : List (ObjectReference Digest)) :
    minReferenceWireBytes * references.length ≤
      (references.flatMap (encodeReference scheme)).length := by
  induction references with
  | nil => simp
  | cons reference =>
    have hlen : minReferenceWireBytes ≤ (encodeReference scheme reference).length := by
      simp only [encodeReference, length_append, length_leBytes, length_encodeIdentity,
        length_singleton, minReferenceWireBytes]
      omega
    rw [flatMap_cons, length_append, length_cons, Nat.mul_succ]
    omega

theorem readReferences_parses (references : List (ObjectReference Digest))
    (hlabels : ∀ reference ∈ references, reference.label.length < wordLimit) :
    Parses (readReferences scheme references.length)
      (references.flatMap (encodeReference scheme)) references := by
  intro offset rest hfits
  have hmany : Parses (many (readReference scheme) references.length)
      (references.flatMap (encodeReference scheme)) references :=
    Parses.many fun reference hmem => readReference_parses scheme reference (hlabels reference hmem)
  have hcount : references.length ≤
      (references.flatMap (encodeReference scheme) ++ rest).length / minReferenceWireBytes := by
    rw [Nat.le_div_iff_mul_le (by decide), length_append, mul_comm]
    have := minReferenceWireBytes_le scheme references
    omega
  unfold readReferences
  rw [bind_ok (p := remaining) rfl, bind_ok (ensure_ok (decide_eq_true hcount))]
  exact hmany offset rest hfits

theorem readRecordFields_parses (record : ObjectRecord Digest)
    (hcanonical : record.canonicalBytes.length < wordLimit)
    (hcount : record.references.length < wordLimit)
    (hlabels : ∀ reference ∈ record.references, reference.label.length < wordLimit) :
    Parses (readRecordFields scheme) (encodeRecordFields scheme record)
      (record.kind, record.formatVersion, record.cls, record.logicalBytes.toNat,
        record.canonicalBytes, record.references) := by
  refine (Parses.word _ record.kind.code.toNat_lt).bind ?_
  refine (Parses.accept (a := record.kind) ?_ _).bind_silent ?_
  · rw [UInt16.ofNat_toNat]
    exact record.kind.fromCode_code
  refine (Parses.word _ record.formatVersion.value.toNat_lt).bind ?_
  refine (Parses.accept (a := record.formatVersion) ?_ _).bind_silent ?_
  · simp [ObjectFormatVersion.new, record.formatVersion.ne_zero]
  refine (Parses.byte _ _).bind ?_
  refine (Parses.accept record.cls.fromCode_code _).bind_silent ?_
  refine (Parses.word _ record.logicalBytes.toNat_lt).bind ?_
  refine (Parses.word _ hcanonical).bind ?_
  refine (Parses.word _ hcount).bind ?_
  refine (Parses.take _ _).bind ?_
  refine (readReferences_parses scheme record.references hlabels).bind_last ?_
  exact Parses.pure _

end

/-- An encoded frame decodes to the identity and record it was encoded from. -/
theorem decodeObjectFrame_encode {scheme : IdentityScheme} {id : Digest}
    {record : ObjectRecord Digest} {bytes : Bytes}
    (h : encodeObjectFrame scheme id record = some bytes) (hfits : bytes.length < wordLimit) :
    decodeObjectFrame bytes scheme = .ok (id, record) := by
  unfold encodeObjectFrame at h
  split at h
  next hlengths =>
    cases h
    obtain ⟨hcanonical, hcount, hlabels⟩ := hlengths
    have hid := readIdentity_parses scheme id 0 (encodeRecordFields scheme record)
      (by rw [zero_add]; exact hfits)
    have hfields := readRecordFields_parses scheme record hcanonical hcount hlabels
      (0 + (encodeIdentity scheme id).length) []
      (by rw [append_nil, zero_add, ← length_append]; exact hfits)
    rw [append_nil] at hfields
    unfold decodeObjectFrame readObjectFrame
    rw [Reads.bind_ok hid, Reads.bind_ok hfields]
    simp [Reads.remaining, Reads.ensure, ObjectRecord.new, record.labels, UInt64.ofNat_toNat,
      Except.map, bind, StateT.bind, Except.bind, pure, StateT.pure, Except.pure]
  next => cases h

/-! ## Root records -/

/-- The principal length that marks a journal snapshot instead of a transition. -/
def snapshotSentinel : Nat := wordLimit - 1

variable (scheme : IdentityScheme)

def encodeRootState (root : RootState Digest) : Bytes :=
  leBytes 8 root.generation.toNat ++ encodeIdentity scheme root.commit

def encodeExpected : Option (RootState Digest) → Bytes
  | none => [0]
  | some root => 1 :: encodeRootState scheme root

/-- A root transition; `none` when the principal length is not encodable. -/
def encodeRootRecord (principal : Bytes) (expected : Option (RootState Digest))
    (replacement : RootState Digest) : Option Bytes :=
  if principal.length < snapshotSentinel then
    some (leBytes 8 principal.length ++ (principal ++
      (encodeExpected scheme expected ++ encodeRootState scheme replacement)))
  else none

end Astrid
