import Astrid.Audit.Body

/-!
# Verification of a chain

`astrid-audit`, `entry_v2/verify.rs`: the entries of one storage chain are checked in storage
order, each against the key registry and against the entry stored before it. Every check that
fails adds an issue, and a chain is valid if there is none.

The last section says what a valid chain has been found to be: `V2Checked` for a format-v2 entry
after its predecessor, and the absence of a format-v1 entry after a format-v2 one.
-/

namespace Astrid.Audit

open Option

variable {P : Payloads}

/-- An issue found during chain verification. -/
inductive ChainIssue
  | invalidGenesis (entryId : Uuid)
  | invalidSignature (entryId : Uuid)
  | brokenLink (entryId : Uuid) (expectedPrevious actualPrevious : Digest)
  | sequenceGap (entryId : Uuid) (expected actual : UInt64)
  | unregisteredKey (entryId : Uuid)
  | chainIdMismatch (entryId : Uuid)
  | formatDowngrade (entryId : Uuid)
  | keyEpochRegression (entryId : Uuid)
  | malformedEntry (entryId : Uuid) (reason : String)
  deriving DecidableEq

structure ChainVerificationResult where
  valid : Bool
  entriesVerified : Nat
  issues : List ChainIssue
  deriving DecidableEq

/-- Where a run of entries starts. -/
inductive ChainStart (P : Payloads)
  | genesis
  | after (entry : AuditEntry P)
  | detached

def ChainStart.previous : ChainStart P → Option (AuditEntry P)
  | .after entry => some entry
  | .genesis => none
  | .detached => none

structure ChainVerifier where
  registry : Option KeyRegistry
  registeredV1Keys : Bool

/-- One issue if the condition fails. -/
def issueUnless (ok : Bool) (issue : ChainIssue) : List ChainIssue := if ok then [] else [issue]

/-- The text of an error, as far as the checks report one. -/
def AuditError.text : AuditError → String
  | .serializationError detail => "serialization error: " ++ detail
  | _ => ""

def checkedAddU64 (a b : UInt64) : Option UInt64 :=
  if a.toNat + b.toNat < 2 ^ 64 then some (a + b) else none

namespace ChainVerifier

/-- With a registry, v1 entries must also be signed by a registered key. -/
def new (registry : Option KeyRegistry) : ChainVerifier := ⟨registry, registry.isSome⟩

def requireRegisteredV1Keys (self : ChainVerifier) (required : Bool) : ChainVerifier :=
  { self with registeredV1Keys := required }

section

variable (crypto : Crypto)

section

variable (entry : AuditEntry P)

def checkLink : Option (AuditEntry P) → List ChainIssue
  | some previous => issueUnless (entry.follows crypto previous)
      (.brokenLink entry.id (previous.contentHash crypto) entry.previousHash)
  | none => []

/-- The sequence number that the position in the chain requires; an error if the predecessor has
the last one. -/
def expectedSeq (v2 : EntryV2Seal) :
    Option (AuditEntry P) → Except Unit (Option UInt64)
  | none => .ok (if isZero entry.previousHash then some 1 else none)
  | some previous =>
    match previous.v2 with
    | some previousSeal =>
      if previousSeal.chainId = v2.chainId then
        match checkedAddU64 previousSeal.seq 1 with
        | some next => .ok (some next)
        | none => .error ()
      else .ok (some 1)
    | none => .ok (some 1)

/-- Sequence and key-epoch continuity of a v2 entry. -/
def checkSequence (v2 : EntryV2Seal) (previous : Option (AuditEntry P)) : List ChainIssue :=
  (match previous.bind (·.v2) with
    | some previousSeal =>
      issueUnless (decide (previousSeal.keyEpoch ≤ v2.keyEpoch)) (.keyEpochRegression entry.id)
    | none => []) ++
  match expectedSeq entry v2 previous with
  | .error () =>
    [.malformedEntry entry.id "sequence number overflows after its predecessor"]
  | .ok (some expected) =>
    issueUnless (decide (v2.seq = expected)) (.sequenceGap entry.id expected v2.seq)
  | .ok none => []

end

variable (self : ChainVerifier)

def checkV1 (entry : AuditEntry P) (previous : Option (AuditEntry P)) : List ChainIssue :=
  issueUnless (entry.verifySignature crypto) (.invalidSignature entry.id) ++
  issueUnless (!self.registeredV1Keys || self.registry.any fun registry =>
      registry.wasRegistered .auditV1 entry.runtimeKey) (.unregisteredKey entry.id) ++
  issueUnless (!previous.any fun previous => previous.v2.isSome) (.formatDowngrade entry.id) ++
  checkLink crypto entry previous

def checkRegistry (entry : AuditEntry P) (v2 : EntryV2Seal) : List ChainIssue :=
  match self.registry with
  | none => [.unregisteredKey entry.id]
  | some registry =>
    issueUnless (decide (deriveChainId crypto registry.registryId entry.sessionId entry.principal
      v2.principalUid = v2.chainId)) (.chainIdMismatch entry.id) ++
    issueUnless (registry.isActive .audit entry.runtimeKey v2.keyEpoch) (.unregisteredKey entry.id)

def checkV2 (entry : AuditEntry P) (v2 : EntryV2Seal) (previous : Option (AuditEntry P)) :
    List ChainIssue :=
  issueUnless (timestampNanos entry.timestamp).isSome
    (.malformedEntry entry.id "time is not representable as u64 nanoseconds") ++
  issueUnless (decide (v2.seq ≠ 0)) (.malformedEntry entry.id "sequence numbers start at 1") ++
  (match entry.v2EntryHash crypto v2 with
    | .error error => [.malformedEntry entry.id error.text]
    | .ok _ => []) ++
  self.checkRegistry crypto entry v2 ++
  issueUnless (entry.verifySignature crypto) (.invalidSignature entry.id) ++
  checkSequence entry v2 previous ++
  checkLink crypto entry previous

/-- Check one entry and its link to the entry stored directly before it. -/
def checkEntry (entry : AuditEntry P) (previous : Option (AuditEntry P)) : List ChainIssue :=
  match entry.v2 with
  | none => self.checkV1 crypto entry previous
  | some v2 => self.checkV2 crypto entry v2 previous

end

def checkEntries (crypto : Crypto) (self : ChainVerifier) :
    List (AuditEntry P) → Option (AuditEntry P) → List ChainIssue
  | [], _ => []
  | entry :: entries, previous =>
    self.checkEntry crypto entry previous ++ self.checkEntries crypto entries (some entry)

/-- The genesis of a chain has no predecessor. -/
def checkGenesis (entries : List (AuditEntry P)) (start : ChainStart P) : List ChainIssue :=
  match start, entries with
  | .genesis, entry :: _ => issueUnless (isZero entry.previousHash) (.invalidGenesis entry.id)
  | _, _ => []

/-- Verify a run of consecutive entries of one storage chain. -/
def verify (crypto : Crypto) (self : ChainVerifier) (entries : List (AuditEntry P))
    (start : ChainStart P) : ChainVerificationResult :=
  let issues := checkGenesis entries start ++ self.checkEntries crypto entries start.previous
  ⟨issues.isEmpty, entries.length, issues⟩

/-! ## Valid chains -/

theorem issueUnless_eq_nil {ok : Bool} {issue : ChainIssue} :
    issueUnless ok issue = [] ↔ ok = true := by
  cases ok <;> simp [issueUnless]

/-- What the checks of a v2 entry have established. -/
structure V2Checked (crypto : Crypto) (verifier : ChainVerifier) (entry : AuditEntry P)
    (v2 : EntryV2Seal) (previous : Option (AuditEntry P)) : Prop where
  time : (timestampNanos entry.timestamp).isSome
  seq_ne : v2.seq ≠ 0
  body : ∃ item, entry.bodyItem crypto v2 = .ok item
  registry : ∃ registry, verifier.registry = some registry ∧
    deriveChainId crypto registry.registryId entry.sessionId entry.principal v2.principalUid =
      v2.chainId ∧ registry.isActive .audit entry.runtimeKey v2.keyEpoch = true
  signature : entry.verifySignature crypto = true
  epoch : ∀ before ∈ previous, ∀ seal' ∈ before.v2, seal'.keyEpoch ≤ v2.keyEpoch
  seq : expectedSeq entry v2 previous = .ok none ∨ expectedSeq entry v2 previous = .ok (some v2.seq)
  link : ∀ before ∈ previous, entry.previousHash = before.contentHash crypto

variable {crypto : Crypto} {entry : AuditEntry P} {previous : Option (AuditEntry P)}

theorem checkLink_eq_nil :
    checkLink crypto entry previous = [] ↔
      ∀ before ∈ previous, entry.previousHash = before.contentHash crypto := by
  cases previous with
  | none => simp [checkLink]
  | some => simp [checkLink, issueUnless_eq_nil, AuditEntry.follows]

variable {v2 : EntryV2Seal}

theorem checkSequence_eq_nil (h : checkSequence entry v2 previous = []) :
    (∀ before ∈ previous, ∀ seal' ∈ before.v2, seal'.keyEpoch ≤ v2.keyEpoch) ∧
      (expectedSeq entry v2 previous = .ok none ∨
        expectedSeq entry v2 previous = .ok (some v2.seq)) := by
  unfold checkSequence at h
  rw [List.append_eq_nil_iff] at h
  obtain ⟨hepoch, hseq⟩ := h
  constructor
  · intro before hbefore seal' hseal'
    rw [hbefore, bind_some, hseal'] at hepoch
    exact of_decide_eq_true (issueUnless_eq_nil.mp hepoch)
  · split at hseq
    next => cases hseq
    next expected heq =>
      rw [of_decide_eq_true (issueUnless_eq_nil.mp hseq)]
      exact .inr heq
    next heq => exact .inl heq

variable {self : ChainVerifier}

theorem checkRegistry_eq_nil (h : self.checkRegistry crypto entry v2 = []) :
    ∃ registry, self.registry = some registry ∧
      deriveChainId crypto registry.registryId entry.sessionId entry.principal v2.principalUid =
        v2.chainId ∧ registry.isActive .audit entry.runtimeKey v2.keyEpoch = true := by
  unfold checkRegistry at h
  split at h
  · cases h
  rename_i registry heq
  rw [List.append_eq_nil_iff, issueUnless_eq_nil, issueUnless_eq_nil] at h
  exact ⟨registry, heq, of_decide_eq_true h.1, h.2⟩

theorem checkV2_eq_nil (h : self.checkV2 crypto entry v2 previous = []) :
    V2Checked crypto self entry v2 previous := by
  unfold checkV2 at h
  simp only [List.append_eq_nil_iff, issueUnless_eq_nil] at h
  obtain ⟨⟨⟨⟨⟨⟨htime, hseq_ne⟩, hbody⟩, hregistry⟩, hsignature⟩, hsequence⟩, hlink⟩ := h
  obtain ⟨hepoch, hseq⟩ := checkSequence_eq_nil hsequence
  refine ⟨htime, of_decide_eq_true hseq_ne, ?_, checkRegistry_eq_nil hregistry, hsignature, hepoch,
    hseq, checkLink_eq_nil.mp hlink⟩
  split at hbody
  · cases hbody
  rename_i hash hok
  rw [AuditEntry.v2EntryHash, AuditEntry.bodyBytes] at hok
  cases hitem : entry.bodyItem crypto v2 with
  | error e => rw [hitem] at hok; cases hok
  | ok item => exact ⟨item, rfl⟩

/-- Each entry of a valid chain passed its checks after the entry before it. -/
theorem verify_valid {entries : List (AuditEntry P)} {start : ChainStart P}
    (h : (self.verify crypto entries start).valid = true) :
    checkGenesis entries start = [] ∧ self.checkEntries crypto entries start.previous = [] := by
  unfold verify at h
  rwa [List.isEmpty_iff, List.append_eq_nil_iff] at h

end ChainVerifier

end Astrid.Audit
