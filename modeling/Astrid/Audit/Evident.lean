import Astrid.Audit.Verifier
import Astrid.Audit.RegistryRun

/-!
# The v2 chain is tamper-evident

The hash of the last entry of a verified chain stands for the whole chain: two chains of
format-v2 entries that `ChainVerifier` accepts from their genesis and that end in the same hash
record the same, entry by entry (`sameChain`). The body of an entry contains the hash of its
predecessor, and equal bodies record the same (`contentHash_inj`), so the argument runs backwards
along the links; the chains end together because the zero hash at a genesis is the hash of no
entry.

The same checks give the order of what is accepted (`notBefore_of_checked`): once a chain is in
format v2 it stays there, with key epochs that never decrease, and each entry is signed by the
one key that holds the audit role in its epoch.
-/

namespace Astrid.Audit

open ChainVerifier KeyRegistry List Option

variable {P : Payloads} {crypto : Crypto} {self : ChainVerifier}

/-! ## Runs of checked entries -/

/-- The entry before the ones that follow `entries`. -/
def lastOr (entries : List (AuditEntry P)) (previous : Option (AuditEntry P)) :
    Option (AuditEntry P) := entries.getLast?.or previous

theorem checkEntries_snoc (entry : AuditEntry P) (entries : List (AuditEntry P))
    (previous : Option (AuditEntry P)) :
    self.checkEntries crypto (entries ++ [entry]) previous =
      self.checkEntries crypto entries previous ++
      self.checkEntry crypto entry (lastOr entries previous) := by
  induction entries generalizing previous with
  | nil =>
    rw [nil_append, checkEntries, checkEntries, checkEntries, append_nil,
      nil_append, lastOr, getLast?_nil, none_or]
  | cons _ _ ih =>
    rw [cons_append, checkEntries, checkEntries, ih, append_assoc]
    rw [lastOr, lastOr, getLast?_cons, some_or, or_some]

variable {entry : AuditEntry P} {v2 : EntryV2Seal} {entries : List (AuditEntry P)}
  {previous : Option (AuditEntry P)}

/-- The last entry of a run, after the run before it. -/
theorem checked_snoc (hv2 : entry.v2 = some v2)
    (h : self.checkEntries crypto (entries ++ [entry]) previous = []) :
    self.checkEntries crypto entries previous = [] ∧
      V2Checked crypto self entry v2 (lastOr entries previous) := by
  rw [checkEntries_snoc, append_eq_nil_iff, checkEntry, hv2] at h
  exact ⟨h.1, checkV2_eq_nil h.2⟩

/-! ## The chain behind a hash -/

/-- A format-v2 entry whose texts are in memory. -/
def IsV2 (entry : AuditEntry P) : Prop := ∃ v2, entry.v2 = some v2 ∧ entry.InMemory v2

/-- Two entries are of format v2 and record the same. -/
def Agree (entry entry' : AuditEntry P) : Prop :=
  ∃ v2 v2', entry.v2 = some v2 ∧ entry'.v2 = some v2' ∧ entry.timestamp = entry'.timestamp ∧
    entry.SameRecord v2 entry' v2'

/-- All strings hashed for the entries of a chain. -/
def chainInputs (crypto : Crypto) (entries : List (AuditEntry P)) : List Bytes :=
  entries.flatMap fun entry => (entry.v2.map fun v2 => entry.hashInputs crypto v2).getD []

theorem hashInputs_subset (hentry : entry ∈ entries) (hv2 : entry.v2 = some v2) :
    entry.hashInputs crypto v2 ⊆ chainInputs crypto entries := by
  intro input hinput
  exact mem_flatMap.2 ⟨entry, hentry, by rwa [hv2]⟩

theorem chainInputs_append_subset (xs ys xs' ys' : List (AuditEntry P)) :
    chainInputs crypto xs ++ chainInputs crypto ys ⊆
      chainInputs crypto (xs ++ xs') ++ chainInputs crypto (ys ++ ys') := by
  intro input hinput
  simp only [chainInputs, flatMap_append, mem_append] at hinput ⊢
  exact hinput.imp .inl .inl

theorem timestampNanos_inj {time time' : Int} (h : (timestampNanos time).isSome)
    (h' : (timestampNanos time').isSome)
    (heq : (timestampNanos time).getD 0 = (timestampNanos time').getD 0) : time = time' := by
  unfold timestampNanos at h h' heq
  split at h
  next hrange =>
    split at h'
    next hrange' =>
      have hlow : 0 ≤ time ∧ time < 2 ^ 63 := hrange
      have hlow' : 0 ≤ time' ∧ time' < 2 ^ 63 := hrange'
      rw [if_pos hrange, if_pos hrange', getD_some, getD_some, ← UInt64.toNat_inj,
        UInt64.toNat_ofNat', UInt64.toNat_ofNat'] at heq
      omega
    next => cases h'
  next => cases h

/-- Checked entries with the same hash record the same. -/
theorem agree_of_contentHash (hP : P.Lawful) {entry' : AuditEntry P} {v2' : EntryV2Seal}
    {previous' : Option (AuditEntry P)} (hv2 : entry.v2 = some v2) (hv2' : entry'.v2 = some v2')
    (hmem : entry.InMemory v2) (hmem' : entry'.InMemory v2')
    (h : V2Checked crypto self entry v2 previous) (h' : V2Checked crypto self entry' v2' previous')
    (hfree : CollisionFree crypto (entry.hashInputs crypto v2 ++ entry'.hashInputs crypto v2'))
    (hhash : entry.contentHash crypto = entry'.contentHash crypto) :
    Agree entry entry' ∧ entry.previousHash = entry'.previousHash := by
  obtain ⟨_, hitem⟩ := h.body
  obtain ⟨_, hitem'⟩ := h'.body
  have hsame := AuditEntry.contentHash_inj hP hv2 hv2' hmem hmem' hitem hitem' hfree hhash
  exact ⟨⟨v2, v2', hv2, hv2', timestampNanos_inj h.time h'.time hsame.time, hsame⟩,
    hsame.previousHash⟩

/-- The hash of a checked entry is not zero if no hashed string has the zero hash. -/
theorem contentHash_ne_zero (hv2 : entry.v2 = some v2) (h : V2Checked crypto self entry v2 previous)
    (hzero : ∀ input ∈ entry.hashInputs crypto v2, crypto.sha256 input ≠ zeroHash) :
    entry.contentHash crypto ≠ zeroHash := by
  obtain ⟨_, hitem⟩ := h.body
  rw [AuditEntry.contentHash_eq hv2 hitem]
  exact hzero _ (AuditEntry.encode_mem_hashInputs hitem)

/-- A chain that was checked from its genesis. -/
structure FromGenesis (crypto : Crypto) (verifier : ChainVerifier)
    (entries : List (AuditEntry P)) : Prop where
  isV2 : ∀ entry ∈ entries, IsV2 entry
  first : ∀ entry ∈ entries.head?, entry.previousHash = zeroHash
  checked : verifier.checkEntries crypto entries none = []

section

variable (h : FromGenesis crypto self (entries ++ [entry]))

include h

theorem FromGenesis.init : FromGenesis crypto self entries := by
  refine ⟨(forall_mem_append.1 h.isV2).1, ?_, ?_⟩
  · intro first hfirst
    refine h.first first ?_
    rw [head?_append]
    rw [hfirst]
    rfl
  · have hchecked := h.checked
    rw [checkEntries_snoc, append_eq_nil_iff] at hchecked
    exact hchecked.1

/-- The last entry of a chain: checked after the one before it. -/
theorem FromGenesis.last :
    ∃ v2, entry.v2 = some v2 ∧ entry.InMemory v2 ∧
      V2Checked crypto self entry v2 entries.getLast? := by
  obtain ⟨v2, hv2, hmem⟩ := h.isV2 entry (by simp)
  obtain ⟨_, hchecked⟩ := checked_snoc hv2 h.checked
  rw [lastOr, or_none] at hchecked
  exact ⟨v2, hv2, hmem, hchecked⟩

/-- An entry with a predecessor does not have the previous hash of a genesis. -/
theorem FromGenesis.previousHash_ne (hne : entries ≠ [])
    (hzero : ∀ input ∈ chainInputs crypto (entries ++ [entry]), crypto.sha256 input ≠ zeroHash) :
    entry.previousHash ≠ zeroHash := by
  obtain ⟨entries, before, rfl⟩ := (eq_nil_or_concat' entries).resolve_left hne
  obtain ⟨_, _, _, hlast⟩ := h.last
  obtain ⟨_, hv2', _, hbefore⟩ := h.init.last
  rw [hlast.link before (by simp)]
  exact contentHash_ne_zero hv2' hbefore fun input hinput =>
    hzero input (hashInputs_subset (by simp) hv2' hinput)

end

theorem FromGenesis.previousHash_eq (h : FromGenesis crypto self ([] ++ [entry])) :
    entry.previousHash = zeroHash :=
  h.first entry rfl

/-- Chains from their genesis that end in the same hash record the same. -/
theorem sameChain (hP : P.Lawful) {xs ys : List (AuditEntry P)}
    (hfree : CollisionFree crypto (chainInputs crypto xs ++ chainInputs crypto ys))
    (hzero : ∀ input ∈ chainInputs crypto xs ++ chainInputs crypto ys,
      crypto.sha256 input ≠ zeroHash)
    (hxs : FromGenesis crypto self xs) (hys : FromGenesis crypto self ys)
    {x y : AuditEntry P} (hx : x ∈ xs.getLast?) (hy : y ∈ ys.getLast?)
    (hhash : x.contentHash crypto = y.contentHash crypto) : List.Forall₂ Agree xs ys := by
  induction xs using reverseRecOn generalizing ys x y with
  | nil => cases hx
  | append_singleton xs last ih =>
    obtain ⟨ys, last', rfl⟩ := (eq_nil_or_concat' ys).resolve_left (by
      rintro rfl
      cases hy)
    obtain rfl : last = x := by simpa using hx
    obtain rfl : last' = y := by simpa using hy
    obtain ⟨v2, hv2, hmem, hlast⟩ := hxs.last
    obtain ⟨v2', hv2', hmem', hlast'⟩ := hys.last
    have hsub : last.hashInputs crypto v2 ⊆ chainInputs crypto (xs ++ [last]) :=
      hashInputs_subset (by simp) hv2
    have hsub' : last'.hashInputs crypto v2' ⊆ chainInputs crypto (ys ++ [last']) :=
      hashInputs_subset (by simp) hv2'
    obtain ⟨hagree, hprevious⟩ := agree_of_contentHash hP hv2 hv2' hmem hmem' hlast hlast'
      (hfree.subset (append_subset.2 ⟨subset_append_of_subset_left _ hsub,
        subset_append_of_subset_right _ hsub'⟩)) hhash
    have hzeroXs := (forall_mem_append.1 hzero).1
    have hzeroYs := (forall_mem_append.1 hzero).2
    rcases eq_nil_or_concat' xs with rfl | ⟨init, before, hinit⟩ <;>
      rcases eq_nil_or_concat' ys with rfl | ⟨_, before', hinit'⟩
    · exact .cons hagree .nil
    · -- The predecessor of one is missing, that of the other has a hash.
      refine absurd (hprevious.symm.trans hxs.previousHash_eq) (hys.previousHash_ne ?_ hzeroYs)
      simp [hinit']
    · refine absurd (hprevious.trans hys.previousHash_eq) (hxs.previousHash_ne ?_ hzeroXs)
      simp [hinit]
    · -- Both predecessors have the linked hash.
      have hbefore : before ∈ xs.getLast? := by simp [hinit]
      have hbefore' : before' ∈ ys.getLast? := by simp [hinit']
      have hlink := hlast.link before hbefore
      rw [hprevious, hlast'.link before' hbefore'] at hlink
      have hinner := ih (hfree.subset ?_) ?_ hxs.init hys.init hbefore hbefore' hlink.symm
      · exact rel_append hinner (.cons hagree .nil)
      · exact chainInputs_append_subset xs ys [last] [last']
      · exact fun input hinput =>
          hzero input (chainInputs_append_subset xs ys [last] [last'] hinput)

/-! ## The order of a chain -/

/-- The second entry is of format v2 if the first is, and names no earlier key epoch. -/
def NotBefore (entry later : AuditEntry P) : Prop :=
  ∀ v2 ∈ entry.v2, ∃ v2' ∈ later.v2, v2.keyEpoch ≤ v2'.keyEpoch

instance : IsTrans (AuditEntry P) NotBefore where
  trans := by
    intro a b c hab hbc v2 hv2
    obtain ⟨v2', hv2', hle⟩ := hab v2 hv2
    obtain ⟨v2'', hv2'', hle'⟩ := hbc v2' hv2'
    exact ⟨v2'', hv2'', UInt64.le_trans hle hle'⟩

/-- An entry that passes its checks after another does not go back. -/
theorem notBefore_of_checkEntry {later : AuditEntry P}
    (h : self.checkEntry crypto later (some entry) = []) : NotBefore entry later := by
  intro v2 hv2
  rw [mem_def] at hv2
  unfold checkEntry at h
  split at h
  next =>
    -- A v1 entry here would be a downgrade.
    unfold checkV1 at h
    simp only [append_eq_nil_iff, issueUnless_eq_nil] at h
    have hdowngrade := h.1.2
    simp [hv2] at hdowngrade
  next v2' hv2' => exact ⟨v2', hv2', (checkV2_eq_nil h).epoch entry rfl v2 hv2⟩

theorem notBefore_of_checked {entries : List (AuditEntry P)} {previous : Option (AuditEntry P)}
    (h : self.checkEntries crypto entries previous = []) : entries.Pairwise NotBefore := by
  rw [← isChain_iff_pairwise]
  induction entries generalizing previous with
  | nil => exact .nil
  | cons _ entries ih =>
    rw [checkEntries, append_eq_nil_iff] at h
    refine (ih h.2).cons ?_
    intro later hlater
    cases entries with
    | nil => cases hlater
    | cons first =>
      obtain rfl : first = later := Option.some.inj hlater
      have hfirst := h.2
      rw [checkEntries, append_eq_nil_iff] at hfirst
      exact notBefore_of_checkEntry hfirst.1

theorem exists_checkEntry {entries : List (AuditEntry P)} {previous : Option (AuditEntry P)}
    (h : self.checkEntries crypto entries previous = []) (hmem : entry ∈ entries) :
    ∃ before, self.checkEntry crypto entry before = [] := by
  induction entries generalizing previous with
  | nil =>
    cases hmem
  | cons _ _ ih =>
    rw [checkEntries, append_eq_nil_iff] at h
    rcases mem_cons.1 hmem with rfl | hmem
    · exact ⟨previous, h.1⟩
    · exact ih h.2 hmem

/-- The signer of an accepted v2 entry is the one key that holds the audit role in its epoch. -/
theorem signer_unique {records : List KeyRegistryRecord} {registry : KeyRegistry}
    (hregistry : fromRecords crypto records = .ok registry) {epoch : UInt64} {key : PublicKey}
    (hactive : registry.isActive .audit key epoch = true) (key' : PublicKey) :
    registry.isActive .audit key' epoch = true ↔ key' = key := by
  have hkey := ((isActive_iff_holdersAt hregistry).1 hactive).2
  constructor
  · intro hactive'
    have hkey' := ((isActive_iff_holdersAt hregistry).1 hactive').2
    rw [hkey] at hkey'
    exact (Option.some.inj hkey').symm
  · rintro rfl
    exact hactive

/-- A verified chain of format-v2 entries is determined by its last hash, and every verified
chain is in order. With collision-free hashing of the strings at hand, none of them to the zero
hash, chains accepted from their genesis with the same last hash have the same length and record
the same, entry by entry. In any accepted chain no format-v1 entry follows a format-v2 one, key
epochs never decrease, and each format-v2 entry is signed by the one audit key of its epoch. -/
theorem verify_tamper_evident (hP : P.Lawful) {records : List KeyRegistryRecord}
    {registry : KeyRegistry} (hregistry : fromRecords crypto records = .ok registry)
    {signed : PublicKey → Bytes → Prop}
    (hsigned : ∀ key message signature, crypto.verifyStrict key message signature = true →
      signed key message) (registeredV1Keys : Bool) :
    (∀ xs ys : List (AuditEntry P), (∀ entry ∈ xs ++ ys, IsV2 entry) →
      CollisionFree crypto (chainInputs crypto xs ++ chainInputs crypto ys) →
      (∀ input ∈ chainInputs crypto xs ++ chainInputs crypto ys, crypto.sha256 input ≠ zeroHash) →
      (verify crypto ⟨some registry, registeredV1Keys⟩ xs .genesis).valid = true →
      (verify crypto ⟨some registry, registeredV1Keys⟩ ys .genesis).valid = true →
      ∀ x ∈ xs.getLast?, ∀ y ∈ ys.getLast?, x.contentHash crypto = y.contentHash crypto →
        xs.length = ys.length ∧ List.Forall₂ Agree xs ys) ∧
    ∀ (entries : List (AuditEntry P)) (start : ChainStart P),
      (verify crypto ⟨some registry, registeredV1Keys⟩ entries start).valid = true →
      entries.Pairwise NotBefore ∧ ∀ entry ∈ entries, ∀ v2 ∈ entry.v2,
        (∀ key, registry.isActive .audit key v2.keyEpoch = true ↔ key = entry.runtimeKey) ∧
        signed entry.runtimeKey (signingInput (entry.contentHash crypto)) := by
  constructor
  · intro xs ys hv2 hfree hzero hxs hys x hx y hy hhash
    have hgenesis {entries : List (AuditEntry P)} (hv2 : ∀ entry ∈ entries, IsV2 entry)
        (h : (verify crypto ⟨some registry, registeredV1Keys⟩ entries .genesis).valid = true) :
        FromGenesis crypto ⟨some registry, registeredV1Keys⟩ entries := by
      obtain ⟨hfirst, hchecked⟩ := verify_valid h
      refine ⟨hv2, ?_, hchecked⟩
      intro entry hentry
      cases entries with
      | nil => cases hentry
      | cons first =>
        obtain rfl : first = entry := Option.some.inj hentry
        exact of_decide_eq_true (issueUnless_eq_nil.1 hfirst)
    have hagree := sameChain hP hfree hzero
      (hgenesis (forall_mem_append.1 hv2).1 hxs)
      (hgenesis (forall_mem_append.1 hv2).2 hys) hx hy hhash
    exact ⟨hagree.length_eq, hagree⟩
  · intro entries start h
    obtain ⟨_, hchecked⟩ := verify_valid h
    refine ⟨notBefore_of_checked hchecked, ?_⟩
    intro entry hentry v2 hv2
    obtain ⟨_, hbefore⟩ := exists_checkEntry hchecked hentry
    rw [checkEntry, hv2] at hbefore
    have hok := checkV2_eq_nil hbefore
    obtain ⟨found, hfound, _, hactive⟩ := hok.registry
    obtain rfl : registry = found := Option.some.inj hfound
    refine ⟨signer_unique hregistry hactive, ?_⟩
    have hsignature := hok.signature
    rw [AuditEntry.verifySignature, AuditEntry.signingData, hv2] at hsignature
    rw [AuditEntry.contentHash, hv2]
    exact hsigned _ _ _ hsignature

/-! ## Two short chains -/

/-- A text that exists in memory. -/
abbrev MemoryText := { text : String // (Cbor.utf8 text).length < 2 ^ 64 }

/-- An object whose members are texts. -/
def textObject (members : List (String × String)) : Value :=
  .object (members.map fun member => (member.1, .string member.2))

/-- One variant of each enum with its fields: `McpPromptGet`, `System` and `Failure`. -/
def promptPayloads : Payloads where
  Action := MemoryText × MemoryText
  Authorization := MemoryText
  Outcome := MemoryText
  actionValue prompt := .ok (textObject
    [("name", prompt.1), ("server", prompt.2), ("type", "mcp_prompt_get")])
  authorizationValue reason := .ok (textObject [("reason", reason), ("type", "system")])
  outcomeValue error := .ok (textObject [("error", error), ("status", "failure")])
  actionVec _ := some []
  authorizationVec _ := some []
  isSuccess _ := false

theorem stored_textObject {members : List (String × String)} (keys : List String)
    (hmembers : members.map Prod.fst = keys)
    (hkeys : keys.length < 2 ^ 64 ∧ (∀ key ∈ keys, (Cbor.utf8 key).length < 2 ^ 64) ∧
      keys.Pairwise fun a b => compare (Cbor.utf8 a) (Cbor.utf8 b) = .lt)
    (htexts : ∀ member ∈ members, (Cbor.utf8 member.2).length < 2 ^ 64) :
    Stored (textObject members) := by
  obtain ⟨hlength, hfits, hsorted⟩ := hkeys
  rw [← hmembers] at hlength hfits hsorted
  rw [length_map] at hlength
  rw [List.forall_mem_map] at hfits
  rw [pairwise_map] at hsorted
  refine .object (by rwa [length_map]) (List.forall_mem_map.2 hfits) (pairwise_map.2 hsorted)
    (List.forall_mem_map.2 fun member hmember => .string (htexts member hmember))

theorem promptPayloads_lawful : promptPayloads.Lawful where
  action_stored := by
    rintro ⟨name, server⟩ v ⟨⟩
    refine stored_textObject ["name", "server", "type"] rfl (by decide +kernel) ?_
    simp only [forall_mem_cons]
    exact ⟨name.2, server.2, by decide +kernel, nofun⟩
  action_inj := by
    rintro ⟨name, server⟩ ⟨name', server'⟩ v ⟨⟩ heq
    simp [promptPayloads, textObject, Subtype.val_inj] at heq
    rw [heq.1, heq.2]
  authorization_stored := by
    rintro reason v ⟨⟩
    refine stored_textObject ["reason", "type"] rfl (by decide +kernel) ?_
    simp only [forall_mem_cons]
    exact ⟨reason.2, by decide +kernel, nofun⟩
  authorization_inj := by
    rintro reason reason' v ⟨⟩ heq
    simp [promptPayloads, textObject] at heq
    exact Subtype.ext heq.symm
  outcome_stored := by
    rintro error v ⟨⟩
    refine stored_textObject ["error", "status"] rfl (by decide +kernel) ?_
    simp only [forall_mem_cons]
    exact ⟨error.2, by decide +kernel, nofun⟩
  outcome_inj := by
    rintro error error' v ⟨⟩ heq
    simp [promptPayloads, textObject] at heq
    exact Subtype.ext heq.symm

/-- Two requests, whose fields differ in length and so in their hashes. -/
inductive Prompt
  | short
  | long

def Prompt.text : Prompt → MemoryText
  | .short => ⟨"", by decide +kernel⟩
  | .long => ⟨"aaaa", by decide +kernel⟩

def Prompt.reason : Prompt → MemoryText
  | .short => ⟨"a", by decide +kernel⟩
  | .long => ⟨"aaaaa", by decide +kernel⟩

variable (origin : Nat)

/-- A hash that tells strings apart by their length, counted from `origin`. -/
def lengthHash (input : Bytes) : Digest :=
  ⟨leBytes 32 ((input.length + 2 ^ 64 - origin) % 2 ^ 64), length_leBytes _ _⟩

def lengthCrypto : Crypto where
  sha256 := lengthHash origin
  hmacSha256 _ _ := zeroHash
  blake3 _ := zeroHash
  verify _ _ _ := true
  verifyStrict _ _ _ := true

def auditGenesis : KeyRegistryRecord where
  seq := 0
  prev := zeroHash
  timestamp := 0
  op := .genesis
  add := [⟨.audit, repeatedKey 1⟩]
  retire := []
  signatures := signedBy [repeatedKey 1]

def auditRegistry : KeyRegistry where
  records := [auditGenesis]
  hashes := [auditGenesis.recordHash (lengthCrypto origin)]
  grants := [⟨⟨.audit, repeatedKey 1⟩, 0, none⟩]

theorem fromRecords_audit :
    fromRecords (lengthCrypto origin) [auditGenesis] = .ok (auditRegistry origin) := by
  rfl

/-- An entry of the system chain in session 7. -/
def promptEntry (prompt : Prompt) (id : Uuid) (time : Timestamp) (previousHash : Digest)
    (uid : Option Digest) (seq : UInt64) (saltKey : Digest) : AuditEntry promptPayloads where
  id := id
  timestamp := time
  sessionId := 7
  principal := none
  action := (prompt.text, prompt.text)
  authorization := prompt.reason
  outcome := prompt.text
  previousHash := previousHash
  runtimeKey := repeatedKey 1
  signature := ⟨List.replicate 64 0, Signature.length_zero⟩
  v2 := some
    { chainId := deriveChainId (lengthCrypto origin) (auditRegistry origin).registryId 7 none uid
      seq := seq
      keyEpoch := 0
      principalUid := uid
      actor := none
      saltKey := saltKey }

theorem isV2_promptEntry (prompt : Prompt) (id : Uuid) (time : Timestamp) (previousHash : Digest)
    (uid : Option Digest) (seq : UInt64) (saltKey : Digest) :
    IsV2 (promptEntry origin prompt id time previousHash uid seq saltKey) := by
  refine ⟨_, rfl, ?_, ?_⟩
  · intro text htext
    cases htext
  · intro actor hactor
    cases hactor

/-- A chain of two entries. -/
def twoEntries (saltKey : Digest) : List (AuditEntry promptPayloads) :=
  let first := promptEntry 0 .short 1 0 zeroHash none 1 saltKey
  [first, promptEntry 0 .long 2 1000 (first.contentHash (lengthCrypto 0)) none 2 saltKey]

/-- Two copies of the chain with other salt keys record the same. -/
theorem twoEntries_evident :
    (verify (lengthCrypto 0) ⟨some (auditRegistry 0), true⟩ (twoEntries zeroHash)
      .genesis).valid = true ∧
    (verify (lengthCrypto 0) ⟨some (auditRegistry 0), true⟩ (twoEntries (repeatedKey 5))
      .genesis).valid = true ∧
    List.Forall₂ Agree (twoEntries zeroHash) (twoEntries (repeatedKey 5)) ∧
    (twoEntries zeroHash).Pairwise NotBefore := by
  have hvalid : (verify (lengthCrypto 0) ⟨some (auditRegistry 0), true⟩ (twoEntries zeroHash)
      .genesis).valid = true := by
    decide +kernel
  have hvalid' : (verify (lengthCrypto 0) ⟨some (auditRegistry 0), true⟩
      (twoEntries (repeatedKey 5)) .genesis).valid = true := by
    decide +kernel
  have h := @verify_tamper_evident promptPayloads (lengthCrypto 0) promptPayloads_lawful _ _
    (fromRecords_audit 0) (fun _ _ => True) (fun _ _ _ _ => trivial) true
  refine ⟨hvalid, hvalid', ?_, (h.2 _ _ hvalid).1⟩
  refine (h.1 _ _ ?_ ?_ ?_ hvalid hvalid' _ rfl _ rfl ?_).2
  · intro entry hentry
    simp only [twoEntries, mem_append, mem_cons, not_mem_nil, or_false] at hentry
    rcases hentry with (rfl | rfl) | (rfl | rfl) <;> exact isV2_promptEntry ..
  · unfold CollisionFree
    decide +kernel
  · decide +kernel
  · decide +kernel

/-- An entry whose body has the length that the hash counts from. -/
def zeroHashed : AuditEntry promptPayloads :=
  promptEntry 397 .short 1 0 zeroHash (some (repeatedKey 9)) 1 zeroHash

/-- An entry without a predecessor, or after one with the zero hash. -/
def afterZero : AuditEntry promptPayloads := promptEntry 397 .long 2 0 zeroHash none 1 zeroHash

/-- A hash without collisions that takes the zero value: the chain after an entry with the zero
hash is accepted, and so is the chain without that entry. -/
theorem zeroHash_hides_entry :
    fromRecords (lengthCrypto 397) [auditGenesis] = .ok (auditRegistry 397) ∧
    CollisionFree (lengthCrypto 397) (chainInputs (lengthCrypto 397) [afterZero] ++
      chainInputs (lengthCrypto 397) [zeroHashed, afterZero]) ∧
    (∀ entry ∈ [afterZero] ++ [zeroHashed, afterZero], IsV2 entry) ∧
    (verify (lengthCrypto 397) (new (some (auditRegistry 397))) [afterZero]
      .genesis).valid = true ∧
    (verify (lengthCrypto 397) (new (some (auditRegistry 397))) [zeroHashed, afterZero]
      .genesis).valid = true := by
  refine ⟨fromRecords_audit 397, ?_, ?_, ?_, ?_⟩
  · unfold CollisionFree
    decide +kernel
  · intro entry hentry
    simp only [mem_append, mem_cons, not_mem_nil, or_false] at hentry
    rcases hentry with rfl | rfl | rfl <;> exact isV2_promptEntry ..
  · decide +kernel
  · decide +kernel

end Astrid.Audit
