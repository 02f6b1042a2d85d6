import Astrid.Lib.Try
import Astrid.Wal.Codec

/-!
# The root journal

`engine/durable/roots.rs`: principal roots are recovered from a journal whose
frames are root transitions, behind an optional snapshot in the first frame. A
journal here is the list of the payloads of its complete frames; what finds them
in the file and drops a torn last one is `scanFramesWithProtectedPrefix`.
-/

namespace Astrid

open Std List Reads

/-- The store files an error can name. -/
inductive StoreFile
  | arena
  | roots
  | wal
  deriving DecidableEq, Repr

/-- The errors of publication and recovery. -/
inductive DurableError
  | model (e : ModelError Digest)
  | recoveryModel (file : StoreFile) (offset : Nat) (source : ModelError Digest)
  | corrupt (file : StoreFile) (offset : Nat) (detail : String)
  | frameTooLarge (file : StoreFile) (offset declared limit : Nat)
  | invalidPrincipal (offset : Nat)
  | invalidCompactionEvidence (detail : String)
  | encodingOverflow
  | io (operation : String)
  deriving DecidableEq

/-- How the store reports a WAL failure. -/
def durableError : WalError → DurableError
  | .frameTooLarge offset declared limit => .frameTooLarge .wal offset declared limit
  | .corrupt offset detail => .corrupt .wal offset detail
  | .interiorCorruption offset detail => .corrupt .wal offset detail
  | .lengthOverflow _ => .encodingOverflow
  | .countOverflow _ => .encodingOverflow
  | .encoding _ => .encodingOverflow
  | .objectIdentityMismatch _ => .corrupt .wal 0 "WAL object identity mismatch"
  | .principalMismatch => .corrupt .wal 0 "WAL principal encoding is not canonical"
  | .identitySchemeMismatch => .corrupt .wal 0 "WAL identity scheme mismatch"
  | _ => .corrupt .wal 0 "WAL transaction violates canonical grammar"

/-- The recovered root of each principal, with the frame it comes from. -/
abbrev RootHistory (P : Type) [Key P] := FMap P (RootState Digest × Nat)

/-! ## Journal records -/

structure DecodedRootRecord where
  principal : Bytes
  expected : Option (RootState Digest)
  replacement : RootState Digest
  deriving DecidableEq

inductive DecodedRootJournalRecord
  | transition (record : DecodedRootRecord)
  | snapshot (entries : List (Bytes × RootState Digest))
  deriving DecidableEq

def snapshotRecord : UInt8 := 1

/-- Strictly ordered principals. -/
def PrincipalsIncrease (entries : List (Bytes × RootState Digest)) : Prop :=
  entries.IsChain fun left right => compare left.1 right.1 = .lt

instance (entries : List (Bytes × RootState Digest)) : Decidable (PrincipalsIncrease entries) :=
  inferInstanceAs (Decidable (entries.IsChain _))

section

variable (scheme : IdentityScheme)

def encodeSnapshotEntry (entry : Bytes × RootState Digest) : Bytes :=
  leBytes 8 entry.1.length ++ (entry.1 ++ encodeRootState scheme entry.2)

def encodeRootSnapshot (entries : List (Bytes × RootState Digest)) : Except DurableError Bytes := do
  require (PrincipalsIncrease entries)
    (.corrupt .roots 0 "root snapshot principals are not strictly ordered")
  require (entries.length < wordLimit ∧ ∀ entry ∈ entries, entry.1.length < wordLimit)
    .encodingOverflow
  pure (leBytes 8 snapshotSentinel ++ ([snapshotRecord] ++ (leBytes 8 entries.length ++
    entries.flatMap (encodeSnapshotEntry scheme))))

def readJournalRoot : Reads String (RootState Digest) := do
  let generation ← word sliceErrors 8
  let commit ← readIdentity scheme
  pure ⟨UInt64.ofNat generation, commit⟩

def readSnapshotEntry : Reads String (Bytes × RootState Digest) := do
  let principalLen ← word sliceErrors 8
  let principal ← take sliceErrors principalLen
  let root ← readJournalRoot scheme
  pure (principal, root)

def readSnapshot : Reads String DecodedRootJournalRecord := do
  let tag ← byte sliceErrors
  ensure (tag = snapshotRecord) "unknown root-journal extension record"
  let count ← word sliceErrors 8
  let entries ← many (readSnapshotEntry scheme) count
  ensure (PrincipalsIncrease entries) "root snapshot principals are not strictly ordered"
  pure (.snapshot entries)

def readJournalExpected : Reads String (Option (RootState Digest)) := do
  let tag ← byte sliceErrors
  if tag = 0 then pure none
  else if tag = 1 then
    let root ← readJournalRoot scheme
    pure (some root)
  else fun _ => .error "invalid expected-root tag"

def readTransition (principalLen : Nat) : Reads String DecodedRootJournalRecord := do
  let principal ← take sliceErrors principalLen
  let expected ← readJournalExpected scheme
  let replacement ← readJournalRoot scheme
  pure (.transition ⟨principal, expected, replacement⟩)

def readJournalRecord : Reads String DecodedRootJournalRecord := do
  let lead ← word sliceErrors 8
  if lead = snapshotSentinel then finished (readSnapshot scheme) "trailing root snapshot bytes"
  else finished (readTransition scheme lead) "trailing root-journal bytes"

end

def decodeRootJournalRecord (bytes : Bytes) (scheme : IdentityScheme) :
    Except String DecodedRootJournalRecord :=
  (readJournalRecord scheme ⟨0, bytes⟩).map Prod.fst

/-! ## Recovery -/

section Recovery

variable {P : Type} [Key P] (env : WalEnv P)

def decodePrincipal (bytes : Bytes) (offset : Nat) : Except DurableError P := do
  let principal ← okOr (env.decodePrincipal bytes) (.invalidPrincipal offset)
  require (env.encodePrincipal principal = bytes) (.invalidPrincipal offset)
  pure principal

def applyTransition (recovered : RootHistory P) (offset : Nat) (record : DecodedRootRecord) :
    Except DurableError (RootHistory P) := do
  let principal ← decodePrincipal env record.principal offset
  let actual := (recovered[principal]?).map Prod.fst
  require (actual = record.expected)
    (.recoveryModel .roots offset (.rootConflict record.expected actual))
  let generation ← okOr (match actual with
      | some root => root.generation.checkedNext
      | none => some RootGeneration.initial)
    (.recoveryModel .roots offset .arithmeticOverflow)
  require (record.replacement.generation = generation)
    (.corrupt .roots offset "replacement generation does not match journal history")
  pure (recovered.insert principal (record.replacement, offset))

/-- Install the entries of a snapshot. -/
def applySnapshot (offset : Nat) : List (Bytes × RootState Digest) → RootHistory P →
    Except DurableError (RootHistory P)
  | [], recovered => .ok recovered
  | entry :: entries, recovered => do
    let principal ← decodePrincipal env entry.1 offset
    require (recovered[principal]? = none)
      (.corrupt .roots offset "root snapshot decodes duplicate principals")
    applySnapshot offset entries (recovered.insert principal (entry.2, offset))

def applyRootJournalRecord (recovered : RootHistory P) (offset : Nat) (payload : Bytes) :
    DecodedRootJournalRecord → Except DurableError (RootHistory P)
  | .transition record => do
    let canonical ← okOr
      (encodeRootRecord env.scheme record.principal record.expected record.replacement)
      .encodingOverflow
    require (canonical = payload) (.corrupt .roots offset "root-journal frame is not canonical")
    applyTransition env recovered offset record
  | .snapshot entries => do
    require (offset = 0 ∧ recovered.isEmpty = true)
      (.corrupt .roots offset "root snapshot must be the first journal frame")
    let canonical ← encodeRootSnapshot env.scheme entries
    require (canonical = payload)
      (.corrupt .roots offset "root snapshot frame is not canonical")
    applySnapshot env offset entries recovered

def frameHeaderLen : Nat := 52

/-- Apply the frames of a journal from position `offset` on. -/
def applyJournal : List Bytes → Nat → RootHistory P → Except DurableError (RootHistory P)
  | [], _, recovered => .ok recovered
  | payload :: rest, offset, recovered => do
    let record ← (decodeRootJournalRecord payload env.scheme).mapError (.corrupt .roots offset)
    let recovered ← applyRootJournalRecord env recovered offset payload record
    applyJournal rest (offset + frameHeaderLen + payload.length) recovered

def recoverRootHistory (journal : List Bytes) : Except DurableError (RootHistory P) :=
  applyJournal env journal 0 ∅

/-- Where the next frame of a journal goes. -/
def journalLength (journal : List Bytes) : Nat :=
  (journal.map fun payload => frameHeaderLen + payload.length).sum

/-- Encoding a principal and decoding it gives the principal back: what recovery relies
on from the codec. -/
def CodecRoundTrip : Prop :=
  ∀ principal, env.decodePrincipal (env.encodePrincipal principal) = some principal

end Recovery

/-! ## Frames read back -/

theorem readJournalRoot_parses (scheme : IdentityScheme) (root : RootState Digest) :
    Parses (readJournalRoot scheme) (encodeRootState scheme root) root := by
  refine (Parses.word _ root.generation.toNat_lt).bind ?_
  refine (readIdentity_parses scheme root.commit).bind_last ?_
  rw [UInt64.ofNat_toNat]
  exact Parses.pure _

theorem readJournalExpected_parses (scheme : IdentityScheme)
    (expected : Option (RootState Digest)) :
    Parses (readJournalExpected scheme) (encodeExpected scheme expected) expected := by
  cases expected with
  | none => exact (Parses.byte _ 0).bind_last (Parses.pure none)
  | some root =>
    refine (Parses.byte _ 1).bind ?_
    exact (readJournalRoot_parses scheme root).bind_last (Parses.pure (some root))

variable {expected : Option (RootState Digest)} {replacement : RootState Digest}

/-- An encoded transition decodes to itself. -/
theorem decodeRootJournalRecord_encode {scheme : IdentityScheme} {principal bytes : Bytes}
    (h : encodeRootRecord scheme principal expected replacement = some bytes)
    (hfits : bytes.length < wordLimit) :
    decodeRootJournalRecord bytes scheme = .ok (.transition
      ⟨principal, expected, replacement⟩) := by
  unfold encodeRootRecord at h
  split at h
  next hlen =>
    cases h
    have hword : principal.length < 256 ^ 8 := Nat.lt_of_lt_of_le hlen (by decide)
    have hbody : Parses (readTransition scheme principal.length)
        (principal ++ (encodeExpected scheme expected ++ encodeRootState scheme replacement))
        (.transition ⟨principal, expected, replacement⟩) := by
      refine (Parses.take _ _).bind ?_
      refine (readJournalExpected_parses scheme expected).bind ?_
      exact (readJournalRoot_parses scheme replacement).bind_last (Parses.pure _)
    have hlead := Parses.word sliceErrors hword 0
      (principal ++ (encodeExpected scheme expected ++ encodeRootState scheme replacement))
      (by rw [zero_add]; exact hfits)
    rw [length_append, length_leBytes] at hfits
    unfold decodeRootJournalRecord readJournalRecord
    rw [bind_ok hlead, if_neg (by omega), length_leBytes, hbody.finished _ (by omega)]
    rfl
  next => cases h

/-! ## Journals that grow -/

section Growth

variable {P : Type} [Key P] {env : WalEnv P}

theorem applyJournal_append (journal more : List Bytes) (offset : Nat) (recovered : RootHistory P) :
    applyJournal env (journal ++ more) offset recovered = applyJournal env journal offset recovered
    >>= applyJournal env more (offset + journalLength journal) := by
  induction journal generalizing offset recovered with
  | nil =>
    rfl
  | cons payload rest ih =>
    have hlength : offset + journalLength (payload :: rest) =
        offset + frameHeaderLen + payload.length + journalLength rest := by
      simp only [journalLength, map_cons, sum_cons]
      omega
    rw [hlength]
    simp only [cons_append, applyJournal, bind_assoc]
    congr 1
    funext record
    congr 1
    funext recovered'
    exact ih _ recovered'

/-- A transition that starts at the recovered root, with the next generation. -/
structure Continues (recovered : RootHistory P) (principal : P)
    (expected : Option (RootState Digest)) (replacement : RootState Digest) : Prop where
  current : (recovered[principal]?).map Prod.fst = expected
  generation : rootGenerationValid expected replacement = true

/-- The frame of a transition that follows on is accepted. -/
theorem applyJournal_transition {recovered : RootHistory P} {principal : P} {payload : Bytes}
    (hcodec : CodecRoundTrip env) (hfits : payload.length < wordLimit)
    (hpayload : encodeRootRecord env.scheme (env.encodePrincipal principal) expected replacement =
      some payload) (h : Continues recovered principal expected replacement) (offset : Nat) :
    applyJournal env [payload] offset recovered =
      .ok (recovered.insert principal (replacement, offset)) := by
  have hprincipal : decodePrincipal env (env.encodePrincipal principal) offset = .ok principal := by
    simp [decodePrincipal, hcodec principal, okOr, require]
  have hgeneration : (match (recovered[principal]?).map Prod.fst with
      | some root => root.generation.checkedNext
      | none => some RootGeneration.initial) = some replacement.generation := by
    have hvalid := h.generation
    rw [h.current]
    unfold rootGenerationValid at hvalid
    cases expected with
    | none => exact congrArg some (of_decide_eq_true hvalid).symm
    | some => simpa using hvalid
  simp only [applyJournal, bind_eq_ok, mapError_eq_ok]
  refine ⟨_, decodeRootJournalRecord_encode hpayload hfits, _, ?_, rfl⟩
  simp only [applyRootJournalRecord, applyTransition, bind_eq_ok, okOr_eq_ok, require_eq_ok]
  exact ⟨payload, hpayload, (), rfl, principal, hprincipal, (), h.current,
    replacement.generation, hgeneration, (), rfl, rfl⟩

end Growth

end Astrid
