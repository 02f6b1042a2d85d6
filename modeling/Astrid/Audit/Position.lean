import Astrid.Audit.Sign
import Astrid.Audit.Evident

/-!
# Positions in a v2 chain

A format-v2 entry names its chain and its number in that chain, and the commitments of its fields
are bound to both. The log derives the number from the head of the storage chain alone
(`nextSeq`), and the verifier checks the same rule (`Positioned`), while the chain id of an entry
contains the UID that the resolver has for the principal at that moment. A storage chain is
therefore a succession of stretches with one chain id each, and every stretch counts from 1.

So the entries of a chain id are numbered `1, 2, …, n` in storage order if and only if no chain
id is taken up again after another one was in use (`numbered_iff_noReopen`). This holds of what
any run of the log stores and of what the verifier accepts. A resolver that answers with a UID,
fails once and answers with the UID again makes the log open the first chain twice.
-/

namespace Astrid.Audit

open List Option

variable {P : Payloads} {crypto : Crypto}

/-! ## Numbers in storage order -/

/-- The chain id of a v2 entry. -/
def chainIdOf (entry : AuditEntry P) : Option Digest := entry.v2.map (·.chainId)

/-- The sequence numbers of the entries with one chain id. -/
def seqs (chainId : Digest) (entries : List (AuditEntry P)) : List Nat :=
  entries.filterMap fun entry =>
    (entry.v2.filter fun v2 => decide (v2.chainId = chainId)).map fun v2 => v2.seq.toNat

section

variable (entries : List (AuditEntry P))

/-- The entries with one chain id are numbered from 1. -/
def Numbered : Prop :=
  ∀ chainId, seqs chainId entries = List.range' 1 (seqs chainId entries).length

/-- Every chain id is in use for one stretch of the entries only. -/
def NoReopen : Prop :=
  ∀ before entry after, entries = before ++ entry :: after →
    ∀ chainId, chainIdOf entry = some chainId → before.getLast?.bind chainIdOf = some chainId ∨
      ∀ earlier ∈ before, chainIdOf earlier ≠ some chainId

/-- Each v2 entry has the number after the head of the chain before it. -/
def Positioned : Prop :=
  ∀ before entry after, entries = before ++ entry :: after → ∀ v2, entry.v2 = some v2 →
    nextSeq (headPosition before.getLast?) v2.chainId = .ok v2.seq

end

theorem seqs_append (chainId : Digest) (xs ys : List (AuditEntry P)) :
    seqs chainId (xs ++ ys) = seqs chainId xs ++ seqs chainId ys := filterMap_append

variable {chainId : Digest} {entries : List (AuditEntry P)}

theorem seqs_eq_nil :
    seqs chainId entries = [] ↔ ∀ entry ∈ entries, chainIdOf entry ≠ some chainId := by
  rw [seqs, filterMap_eq_nil_iff]
  refine forall₂_congr fun entry _ => ?_
  rw [chainIdOf]
  cases entry.v2 with
  | none | some => simp

variable {entry : AuditEntry P} {v2 : EntryV2Seal}

theorem seqs_singleton_of (hv2 : entry.v2 = some v2) (h : v2.chainId = chainId) :
    seqs chainId [entry] = [v2.seq.toNat] := by
  simp [seqs, hv2, h]

/-- A property of every way to cut a list at an element, for a list that grows at its end. -/
theorem forall_cut_snoc {α : Type} {entries : List α} {last : α} {R : List α → α → Prop} :
    (∀ before entry after, entries ++ [last] = before ++ entry :: after → R before entry) ↔
      (∀ before entry after, entries = before ++ entry :: after → R before entry) ∧
        R entries last := by
  constructor
  · intro h
    refine ⟨fun before entry after heq => h before entry (after ++ [last]) ?_, h _ _ [] rfl⟩
    rw [heq, append_assoc, cons_append]
  · rintro ⟨hinit, hlast⟩ before entry after heq
    rcases eq_nil_or_concat after with rfl | ⟨init, _, rfl⟩
    · obtain ⟨rfl, hentry⟩ := append_inj' heq rfl
      cases hentry
      exact hlast
    · rw [concat_eq_append, ← cons_append, ← append_assoc] at heq
      exact hinit before entry init (append_inj' heq rfl).1

theorem noReopen_snoc :
    NoReopen (entries ++ [entry]) ↔ NoReopen entries ∧ ∀ chainId, chainIdOf entry = some chainId →
      entries.getLast?.bind chainIdOf = some chainId ∨
        ∀ earlier ∈ entries, chainIdOf earlier ≠ some chainId := forall_cut_snoc

theorem positioned_snoc :
    Positioned (entries ++ [entry]) ↔ Positioned entries ∧ ∀ v2, entry.v2 = some v2 →
      nextSeq (headPosition entries.getLast?) v2.chainId = .ok v2.seq := forall_cut_snoc

theorem numbered_snoc_v1 (hv2 : entry.v2 = none) :
    Numbered (entries ++ [entry]) ↔ Numbered entries := by
  have heq (chainId : Digest) : seqs chainId (entries ++ [entry]) = seqs chainId entries := by
    simp [seqs, hv2]
  simp only [Numbered, heq]

/-- A new entry keeps the numbering if it takes the next number of its chain id. -/
theorem numbered_snoc (hv2 : entry.v2 = some v2) :
    Numbered (entries ++ [entry]) ↔
      Numbered entries ∧ v2.seq.toNat = (seqs v2.chainId entries).length + 1 := by
  have hother {chainId : Digest} (hne : v2.chainId ≠ chainId) :
      seqs chainId (entries ++ [entry]) = seqs chainId entries := by
    simp [seqs, hv2, hne]
  have hown : seqs v2.chainId (entries ++ [entry]) = seqs v2.chainId entries ++ [v2.seq.toNat] := by
    rw [seqs_append, seqs_singleton_of hv2 rfl]
  have hgrow : (seqs v2.chainId (entries ++ [entry]) =
      range' 1 (seqs v2.chainId (entries ++ [entry])).length) ↔
      seqs v2.chainId entries = range' 1 (seqs v2.chainId entries).length ∧
        v2.seq.toNat = (seqs v2.chainId entries).length + 1 := by
    rw [hown, length_append, length_singleton, range'_concat]
    constructor
    · intro h
      obtain ⟨hinit, hlast⟩ := append_inj' h rfl
      refine ⟨hinit, ?_⟩
      have := singleton_inj.1 hlast
      omega
    · rintro ⟨hinit, hlast⟩
      congr 2
      omega
  constructor
  · intro h
    obtain ⟨hinit, hlast⟩ := hgrow.1 (h v2.chainId)
    refine ⟨fun chainId => ?_, hlast⟩
    by_cases hne : v2.chainId = chainId
    · rwa [← hne]
    · rw [← hother hne]
      exact h chainId
  · rintro ⟨hinit, hlast⟩ chainId
    by_cases hne : v2.chainId = chainId
    · rw [← hne]
      exact hgrow.2 ⟨hinit v2.chainId, hlast⟩
    · rw [hother hne]
      exact hinit chainId

/-- In a numbered list that ends in a chain id, the last number is how many entries have it. -/
theorem length_seqs_of_last {last : AuditEntry P} (h : Numbered entries)
    (hlast : entries.getLast? = some last) (hv2 : last.v2 = some v2) :
    v2.seq.toNat = (seqs v2.chainId entries).length := by
  obtain ⟨_, rfl⟩ := getLast?_eq_some_iff.1 hlast
  rw [((numbered_snoc hv2).1 h).2, seqs_append, length_append, seqs_singleton_of hv2 rfl,
    length_singleton]

theorem checkedAddU64_eq_some {a b c : UInt64} (h : checkedAddU64 a b = some c) :
    c.toNat = a.toNat + b.toNat := by
  unfold checkedAddU64 at h
  split at h
  next hlt =>
    cases h
    rw [UInt64.toNat_add, Nat.mod_eq_of_lt hlt]
  next => cases h

/-- After a head in the same chain the number goes up by one. -/
theorem nextSeq_of_last {seq : UInt64} (hcont : entries.getLast?.bind chainIdOf = some chainId)
    (h : nextSeq (headPosition entries.getLast?) chainId = .ok seq) :
    ∃ last v2, entries.getLast? = some last ∧ last.v2 = some v2 ∧ v2.chainId = chainId ∧
      seq.toNat = v2.seq.toNat + 1 := by
  obtain ⟨last, hlast, hchain⟩ := bind_eq_some_iff.1 hcont
  obtain ⟨v2, hv2, rfl⟩ := map_eq_some_iff.1 hchain
  rw [hlast, headPosition, bind_some, V2Position.of, hv2, map_some, nextSeq, if_pos rfl] at h
  exact ⟨last, v2, hlast, hv2, rfl, checkedAddU64_eq_some (okOr_eq_ok.1 h)⟩

/-- After any other head the numbers start over. -/
theorem nextSeq_of_other {head : Option (AuditEntry P)} {seq : UInt64}
    (hother : head.bind chainIdOf ≠ some chainId)
    (h : nextSeq (headPosition head) chainId = .ok seq) : seq = 1 := by
  cases head with
  | none => exact (Except.ok.inj h).symm
  | some last =>
    rw [headPosition, bind_some, V2Position.of] at h
    rw [bind_some, chainIdOf] at hother
    cases hv2 : last.v2 with
    | none =>
      rw [hv2] at h
      exact (Except.ok.inj h).symm
    | some =>
      rw [hv2] at hother
      rw [hv2, map_some, nextSeq, if_neg fun heq => hother (congrArg some heq)] at h
      exact (Except.ok.inj h).symm

/-- The rule of the log numbers the entries of every chain id from 1 exactly if no chain id is
opened again. -/
theorem numbered_iff_noReopen (h : Positioned entries) : Numbered entries ↔ NoReopen entries := by
  -- The induction takes entries off the end: the rule speaks of the head before an entry.
  induction entries using reverseRecOn with
  | nil =>
    refine ⟨fun _ before entry after heq => ?_, fun _ _ => rfl⟩
    exact absurd heq.symm (by simp)
  | append_singleton entries entry ih =>
    obtain ⟨hinit, hrule⟩ := positioned_snoc.1 h
    specialize ih hinit
    rw [noReopen_snoc]
    cases hv2 : entry.v2 with
    | none =>
      rw [numbered_snoc_v1 hv2, ih]
      refine ⟨fun h => ⟨h, fun chainId hchain => ?_⟩, fun h => h.1⟩
      rw [chainIdOf, hv2] at hchain
      cases hchain
    | some v2 =>
      rw [numbered_snoc hv2, ih]
      refine and_congr_right fun hno => ?_
      have hnext := hrule v2 hv2
      have hchain : ∀ chainId, chainIdOf entry = some chainId ↔ v2.chainId = chainId := by
        intro chainId
        rw [chainIdOf, hv2, map_some, some_inj]
      simp only [hchain, forall_eq']
      by_cases hcont : entries.getLast?.bind chainIdOf = some v2.chainId
      · -- The stretch goes on.
        obtain ⟨_, _, hlast, hv2', hsame, hseq⟩ := nextSeq_of_last hcont hnext
        refine iff_of_true ?_ (.inl hcont)
        rw [hseq, length_seqs_of_last (ih.2 hno) hlast hv2', hsame]
      -- A new stretch: its first number is right if the chain id is new.
      rw [nextSeq_of_other hcont hnext, or_iff_right hcont, ← seqs_eq_nil, ← length_eq_zero_iff]
      show 1 = _ + 1 ↔ _
      omega

theorem Numbered.left {xs : List (AuditEntry P)} : ∀ {ys : List (AuditEntry P)},
    Numbered (xs ++ ys) → Numbered xs := by
  intro ys
  induction ys using reverseRecOn with
  | nil =>
    intro h
    rwa [append_nil] at h
  | append_singleton _ y ih =>
    intro h
    rw [← append_assoc] at h
    cases hv2 : y.v2 with
    | none => exact ih ((numbered_snoc_v1 hv2).1 h)
    | some => exact ih ((numbered_snoc hv2).1 h).1

variable {i : Nat}

theorem take_succ_of (hi : entries[i]? = some entry) :
    entries.take (i + 1) = entries.take i ++ [entry] := by
  rw [take_add_one, hi]
  rfl

/-- In a numbered list an entry has the number of its chain id's entries before it, plus one. -/
theorem Numbered.seq_eq (h : Numbered entries) (hi : entries[i]? = some entry)
    (hv2 : entry.v2 = some v2) : v2.seq.toNat = (seqs v2.chainId (entries.take i)).length + 1 := by
  rw [← take_append_drop (i + 1) entries] at h
  have hleft := h.left
  rw [take_succ_of hi] at hleft
  exact ((numbered_snoc hv2).1 hleft).2

/-- Different entries of a numbered list have different positions. -/
theorem Numbered.position_inj (h : Numbered entries) {j : Nat} {entry' : AuditEntry P}
    {v2' : EntryV2Seal} (hi : entries[i]? = some entry) (hj : entries[j]? = some entry')
    (hv2 : entry.v2 = some v2) (hv2' : entry'.v2 = some v2') (hchain : v2.chainId = v2'.chainId)
    (hseq : v2.seq = v2'.seq) : i = j := by
  -- Up to an entry that comes later there is at least one more entry with the chain id.
  have hlt {i j : Nat} {entry : AuditEntry P} {v2 : EntryV2Seal} (hi : entries[i]? = some entry)
      (hv2 : entry.v2 = some v2) (hij : i < j) :
      (seqs v2.chainId (entries.take i)).length < (seqs v2.chainId (entries.take j)).length := by
    obtain ⟨_, hrest⟩ : entries.take (i + 1) <+: entries.take j :=
      take_isPrefix_take.2 (.inl hij)
    rw [← hrest, take_succ_of hi, seqs_append, seqs_append, seqs_singleton_of hv2 rfl,
      length_append, length_append, length_singleton]
    omega
  have hnumber := h.seq_eq hi hv2
  have hnumber' := h.seq_eq hj hv2'
  rw [← hseq, ← hchain] at hnumber'
  rcases lt_trichotomy i j with hij | rfl | hij
  · have := hlt hi hv2 hij
    omega
  · rfl
  · have := hlt hj hv2' hij
    rw [← hchain] at this
    omega

/-! ## Runs of the log -/

/-- The stored key registry, the signer of the running log, and the entries of each storage
chain, which belongs to a session and a principal. -/
structure LogState (P : Payloads) (crypto : Crypto) where
  records : List KeyRegistryRecord
  signer : Option (V2Signer crypto)
  chains : Uuid × Option String → List (AuditEntry P)

namespace LogState

def empty : LogState P crypto := ⟨[], none, fun _ => []⟩

section

variable (s : LogState P crypto)

def recordExists (seq : UInt64) : Bool :=
  decide (seq.toNat < s.records.length)

def append (entry : AuditEntry P) : LogState P crypto :=
  let key := (entry.sessionId, entry.principal)
  { s with chains := Function.update s.chains key (s.chains key ++ [entry]) }

/-- Sign the next entry of the chain that a request belongs to. -/
def signNext (runtimeKey : KeyPair crypto) (request : EntryRequest P) (draw : Draw) :
    AuditResult (AuditEntry P) :=
  let head := (s.chains (request.sessionId, request.principal)).getLast?
  signEntry crypto runtimeKey s.signer request draw (headHash crypto head) (headPosition head)

end

/-- Sign the entries of a batch, each against the head that those before it leave. -/
def buildSignedBatch (runtimeKey : KeyPair crypto) :
    List (EntryRequest P × Draw) → LogState P crypto → AuditResult (List (AuditEntry P))
  | [], _ => .ok []
  | (request, draw) :: rest, s => do
    let entry ← s.signNext runtimeKey request draw
    let entries ← buildSignedBatch runtimeKey rest (s.append entry)
    .ok (entry :: entries)

end LogState

/-- One call of the log, or a restart. -/
inductive LogStep (runtimeKey : KeyPair crypto) : LogState P crypto → LogState P crypto → Prop
  | create (s : LogState P crypto) {key roles timestamp genesis registry}
      (hnone : s.records = [])
      (hgenesis : KeyRegistry.genesisRecord crypto timestamp ((.audit, key) :: roles) = .ok genesis)
      (hregistry : KeyRegistry.fromRecords crypto [genesis] = .ok registry)
      (hactive : registry.activeKey .audit registry.headSeq = some key.exportPublicKey) :
      LogStep runtimeKey s { s with records := [genesis], signer := some ⟨key, registry⟩ }
  | enable (s : LogState P crypto) {key registry}
      (hregistry : KeyRegistry.fromRecords crypto s.records = .ok registry)
      (hactive : registry.activeKey .audit registry.headSeq = some key.exportPublicKey) :
      LogStep runtimeKey s { s with signer := some ⟨key, registry⟩ }
  | rotate (s : LogState P crypto) {signer new timestamp record registry}
      (hsigner : s.signer = some signer)
      (hrecord : signer.registry.rotationRecord crypto .audit signer.key new timestamp = .ok record)
      (hpush : (KeyRegistry.push crypto record).run signer.registry = (.ok (), registry))
      (habsent : record.seq.toNat = s.records.length) :
      LogStep runtimeKey s
        { s with records := s.records ++ [record], signer := some ⟨new, registry⟩ }
  | restart (s : LogState P crypto) : LogStep runtimeKey s { s with signer := none }
  | append (s : LogState P crypto) {request draw entry}
      (hfits : ∀ principal ∈ request.principal, TextFits principal)
      (hsign : s.signNext runtimeKey request draw = .ok entry)
      (hregistry : checkRegistryState s.recordExists [entry] = .ok ()) :
      LogStep runtimeKey s (s.append entry)
  | batch (s : LogState P crypto) {requests entries} (committed : Nat)
      (hfits : ∀ request ∈ requests, ∀ principal ∈ request.1.principal, TextFits principal)
      (hsign : LogState.buildSignedBatch runtimeKey requests s = .ok entries)
      (hregistry : checkRegistryState s.recordExists (entries.take committed) = .ok ()) :
      LogStep runtimeKey s ((entries.take committed).foldl LogState.append s)

/-- The states that calls of a log reach, from an empty store. -/
def LogRun (runtimeKey : KeyPair crypto) (s : LogState P crypto) : Prop :=
  Relation.ReflTransGen (LogStep runtimeKey) LogState.empty s

namespace LogState

/-- The id of the stored registry. -/
def storedRegistryId (s : LogState P crypto) : Digest :=
  (s.records.head?.map (KeyRegistryRecord.recordHash crypto)).getD zeroHash

/-- What holds of the stored entries after any run. -/
structure Inv (s : LogState P crypto) : Prop where
  signer : ∀ signer ∈ s.signer, s.records ≠ [] ∧
    signer.registry.hashes.head? = s.records.head?.map (KeyRegistryRecord.recordHash crypto)
  positioned : ∀ key, Positioned (s.chains key)
  owned : ∀ key, ∀ entry ∈ s.chains key, (entry.sessionId, entry.principal) = key
  fits : ∀ key, ∀ entry ∈ s.chains key, ∀ principal ∈ entry.principal, TextFits principal
  derived : ∀ key, ∀ entry ∈ s.chains key, ∀ v2 ∈ entry.v2, s.records ≠ [] ∧
    v2.chainId = deriveChainId crypto s.storedRegistryId entry.sessionId entry.principal
      v2.principalUid

theorem inv_empty : (empty : LogState P crypto).Inv where
  signer := nofun
  positioned := fun _ before entry after heq => by simp [empty] at heq
  owned := nofun
  fits := nofun
  derived := nofun

/-- Only the chain of the entry changes, and it grows by the entry. -/
theorem chains_append (s : LogState P crypto) (entry : AuditEntry P) (key : Uuid × Option String) :
    (s.append entry).chains key =
      if key = (entry.sessionId, entry.principal) then s.chains key ++ [entry]
      else s.chains key := by
  rw [LogState.append]
  dsimp only
  rw [Function.update_apply]
  split
  next heq => rw [heq]
  next => rfl

variable {s : LogState P crypto}

theorem mem_chains_append {entry stored : AuditEntry P} {key : Uuid × Option String}
    (h : stored ∈ (s.append entry).chains key) :
    stored ∈ s.chains key ∨ stored = entry ∧ key = (entry.sessionId, entry.principal) := by
  rw [chains_append] at h
  split at h
  next heq =>
    rw [mem_append, mem_singleton] at h
    exact h.imp_right fun hstored => ⟨hstored, heq⟩
  next => exact .inl h

variable {runtimeKey : KeyPair crypto}

/-- An entry signed against the head of its chain keeps the invariant. -/
theorem Inv.append (h : s.Inv) {request : EntryRequest P} {draw : Draw} {entry : AuditEntry P}
    (hfits : ∀ principal ∈ request.principal, TextFits principal)
    (hsign : s.signNext runtimeKey request draw = .ok entry) : (s.append entry).Inv := by
  obtain ⟨_, hsession, hprincipal, _⟩ := signEntry_fields hsign
  have hkey : (request.sessionId, request.principal) = (entry.sessionId, entry.principal) := by
    rw [hsession, hprincipal]
  refine ⟨h.signer, ?_, ?_, ?_, ?_⟩
  · intro key
    rw [chains_append]
    split
    next heq =>
      refine positioned_snoc.2 ⟨h.positioned key, fun v2 hv2 => ?_⟩
      obtain ⟨_, _, hseq, _⟩ := signEntry_v2 hsign hv2
      rw [heq, ← hkey]
      exact hseq
    next => exact h.positioned key
  · intro key stored hstored
    rcases mem_chains_append hstored with hold | ⟨rfl, rfl⟩
    · exact h.owned key stored hold
    · rfl
  · intro key stored hstored
    rcases mem_chains_append hstored with hold | ⟨rfl, rfl⟩
    · exact h.fits key stored hold
    · rwa [hprincipal]
  · intro key stored hstored v2 hv2
    rcases mem_chains_append hstored with hold | ⟨rfl, rfl⟩
    · exact h.derived key stored hold v2 hv2
    obtain ⟨found, hfound, _, _, _, hchain⟩ := signEntry_v2 hsign hv2
    obtain ⟨hne, hhashes⟩ := h.signer found hfound
    refine ⟨hne, ?_⟩
    rw [hchain, KeyRegistry.registryId, hhashes]
    rfl

/-- So does a batch, of which any number of entries may have been committed. -/
theorem Inv.batch {requests : List (EntryRequest P × Draw)} {s : LogState P crypto}
    {entries : List (AuditEntry P)} (committed : Nat) (h : s.Inv)
    (hfits : ∀ request ∈ requests, ∀ principal ∈ request.1.principal, TextFits principal)
    (hsign : buildSignedBatch runtimeKey requests s = .ok entries) :
    ((entries.take committed).foldl LogState.append s).Inv := by
  induction requests generalizing s entries committed with
  | nil =>
    cases hsign
    rwa [take_nil]
  | cons request _ ih =>
    obtain ⟨_, hentry, hsign⟩ := bind_eq_ok.1 hsign
    obtain ⟨_, hlater, hsign⟩ := bind_eq_ok.1 hsign
    cases hsign
    cases committed with
    | zero => exact h
    | succ committed =>
      have hnext := h.append (hfits request mem_cons_self) hentry
      exact ih committed hnext (forall_mem_cons.1 hfits).2
        hlater

/-- A change of the signer and the registry keeps the invariant if the genesis record stays. -/
theorem Inv.install (h : s.Inv) {records : List KeyRegistryRecord}
    {signer : Option (V2Signer crypto)} (hkeep : s.records ≠ [] → records.head? = s.records.head?)
    (hsigner : ∀ found ∈ signer, records ≠ [] ∧
      found.registry.hashes.head? = records.head?.map (KeyRegistryRecord.recordHash crypto)) :
    LogState.Inv ⟨records, signer, s.chains⟩ := by
  refine ⟨hsigner, h.positioned, h.owned, h.fits, ?_⟩
  intro key entry hentry v2 hv2
  obtain ⟨hne, hchain⟩ := h.derived key entry hentry v2 hv2
  refine ⟨fun hnil => ?_, ?_⟩
  · have hhead := hkeep hne
    rw [show records = [] from hnil] at hhead
    exact hne (head?_eq_none_iff.1 hhead.symm)
  · rw [hchain, storedRegistryId, storedRegistryId, hkeep hne]

theorem Inv.step {s' : LogState P crypto} (h : s.Inv) (hstep : LogStep runtimeKey s s') :
    s'.Inv := by
  cases hstep with
  | create hnone _ hregistry =>
    refine h.install (fun hne => absurd hnone hne) fun found hfound => ?_
    obtain rfl := Option.some.inj hfound
    exact ⟨cons_ne_nil _ _, by rw [KeyRegistry.fromRecords_hashes hregistry]; rfl⟩
  | enable hregistry =>
    refine h.install (fun _ => rfl) fun found hfound => ?_
    obtain rfl := Option.some.inj hfound
    obtain ⟨_, _, hhistory⟩ := KeyRegistry.fromRecords_models hregistry
    refine ⟨hhistory.ne_nil, ?_⟩
    rw [KeyRegistry.fromRecords_hashes hregistry, head?_map]
  | @rotate signer _ _ record registry hsigner _ hpush =>
    obtain ⟨hne, hhashes⟩ := h.signer signer hsigner
    obtain ⟨genesis, _, hrecords⟩ := exists_cons_of_ne_nil hne
    have hhead : s.records.head? = some genesis := by
      rw [hrecords]
      rfl
    have hkeep : (s.records ++ [record]).head? = s.records.head? := by
      rw [head?_append, hhead, some_or]
    refine h.install (fun _ => hkeep) fun found hfound => ?_
    obtain rfl := Option.some.inj hfound
    refine ⟨by simp, ?_⟩
    obtain ⟨_, rfl⟩ := KeyRegistry.push_eq_ok.1 hpush
    rw [hkeep]
    show (signer.registry.hashes ++ _).head? = _
    rw [head?_append, hhashes, hhead, map_some, some_or]
  | restart => exact h.install (fun _ => rfl) fun found hfound => by cases hfound
  | append hfits hsign => exact h.append hfits hsign
  | batch committed hfits hsign =>
    exact Inv.batch committed h hfits hsign

theorem inv_of_run (h : LogRun runtimeKey s) : s.Inv := by
  induction h with
  | refl => exact inv_empty
  | tail _ hstep ih => exact ih.step hstep

end LogState

/-! ## What the verifier accepts -/

/-- The number that the verifier expects is the one that the signer takes. -/
theorem nextSeq_of_expectedSeq {previous : Option (AuditEntry P)}
    (hfirst : previous = none → isZero entry.previousHash = true)
    (h : ChainVerifier.expectedSeq entry v2 previous = .ok none ∨
      ChainVerifier.expectedSeq entry v2 previous = .ok (some v2.seq)) :
    nextSeq (headPosition previous) v2.chainId = .ok v2.seq := by
  cases previous with
  | none =>
    rw [ChainVerifier.expectedSeq, if_pos (hfirst rfl)] at h
    have hseq : (1 : UInt64) = v2.seq := by simpa using h
    rw [← hseq]
    rfl
  | some before =>
    rw [headPosition, bind_some, V2Position.of]
    rw [ChainVerifier.expectedSeq] at h
    cases hbefore : before.v2 with
    | none =>
      rw [hbefore] at h
      have hseq : (1 : UInt64) = v2.seq := by simpa using h
      rw [← hseq]
      rfl
    | some =>
      rw [hbefore] at h
      rw [map_some, nextSeq]
      dsimp only at h ⊢
      split at h
      next hsame =>
        rw [if_pos hsame]
        split at h
        next next hnext =>
          rw [hnext]
          have hseq : next = v2.seq := by simpa using h
          rw [hseq]
          rfl
        next => simp at h
      next hother =>
        have hseq : (1 : UInt64) = v2.seq := by simpa using h
        rw [if_neg hother, hseq]

theorem positioned_of_checked {verifier : ChainVerifier}
    (hgenesis : ChainVerifier.checkGenesis entries .genesis = [])
    (h : verifier.checkEntries crypto entries none = []) : Positioned entries := by
  induction entries using reverseRecOn with
  | nil =>
    intro before entry after heq
    exact absurd heq.symm (by simp)
  | append_singleton entries _ ih =>
    have hinit : ChainVerifier.checkGenesis entries .genesis = [] := by
      cases entries with
      | nil => rfl
      | cons => exact hgenesis
    have hchecked : verifier.checkEntries crypto entries none = [] := by
      rw [checkEntries_snoc, append_eq_nil_iff] at h
      exact h.1
    refine positioned_snoc.2 ⟨ih hinit hchecked, fun v2 hv2 => ?_⟩
    have hlast := (checked_snoc hv2 h).2
    rw [lastOr, or_none] at hlast
    refine nextSeq_of_expectedSeq (fun hnone => ?_) hlast.seq
    rw [getLast?_eq_none_iff] at hnone
    rw [hnone, nil_append] at hgenesis
    exact ChainVerifier.issueUnless_eq_nil.1 hgenesis

/-! ## Positions as names -/

/-- A position is the position of one entry of the chain at most. -/
def Named (entries : List (AuditEntry P)) : Prop :=
  ∀ (i j : Nat) (entry entry' : AuditEntry P) (v2 v2' : EntryV2Seal), entries[i]? = some entry →
    entries[j]? = some entry' → entry.v2 = some v2 → entry'.v2 = some v2' →
    v2.chainId = v2'.chainId → v2.seq = v2'.seq → i = j

namespace LogState

/-- A position is the position of one stored entry at most. -/
def Named (s : LogState P crypto) : Prop :=
  ∀ key key' (i j : Nat) (entry entry' : AuditEntry P) (v2 v2' : EntryV2Seal),
    (s.chains key)[i]? = some entry → (s.chains key')[j]? = some entry' → entry.v2 = some v2 →
    entry'.v2 = some v2' → v2.chainId = v2'.chainId → v2.seq = v2'.seq → key = key' ∧ i = j

/-- The strings that the chain ids of the stored entries are hashes of. -/
def ChainIdInput (s : LogState P crypto) (input : Bytes) : Prop :=
  ∃ key, ∃ entry ∈ s.chains key, ∃ v2 ∈ entry.v2,
    input = chainIdInput s.storedRegistryId entry.sessionId entry.principal v2.principalUid

end LogState

/-- The string that is hashed for a chain id tells the session and the principal. -/
theorem chainIdInput_inj {registryId registryId' : Digest} {session session' : Uuid}
    {principal principal' : Option String} {uid uid' : Option Digest}
    (hfits : ∀ text ∈ principal, TextFits text) (hfits' : ∀ text ∈ principal', TextFits text)
    (h : chainIdInput registryId session principal uid =
      chainIdInput registryId' session' principal' uid') :
    session = session' ∧ principal = principal' := by
  have harray {registryId : Digest} {session : Uuid} {principal : Option String}
      {uid : Option Digest} (hfits : ∀ text ∈ principal, TextFits text) :
      (Cbor.array [.text chainIdTag, .bytes registryId.bytes, .bytes session.asBytes,
        principalItem principal uid]).Fits := by
    refine .array (by decide : 4 < 2 ^ 64) ?_
    simp only [forall_mem_cons, not_mem_nil, false_imp_iff, implies_true, and_true]
    exact ⟨.text (by decide +kernel), fits_digest _, fits_uuid _, principalItem_fits uid hfits⟩
  have hitems := Cbor.Same.array_inj (harray hfits) (harray hfits') h
  simp only [forall₂_cons, List.Forall₂.nil, and_true] at hitems
  exact ⟨asBytes_inj hitems.2.2.1.bytes_inj, (principalItem_inj (principalItem_fits uid hfits)
    (principalItem_fits uid' hfits') hitems.2.2.2).1⟩

/-- Numbered chains have no position in common, as long as the hash has no collision among the
strings that chain ids are made of. -/
theorem named_of_numbered {s : LogState P crypto} (h : s.Inv)
    (hfree : ∀ x y, s.ChainIdInput x → s.ChainIdInput y → crypto.sha256 x = crypto.sha256 y → x = y)
    (hnumbered : ∀ key, Numbered (s.chains key)) : s.Named := by
  intro key key' i j entry entry' v2 v2' hi hj hv2 hv2' hchain hseq
  have hmem := mem_of_getElem? hi
  have hmem' := mem_of_getElem? hj
  have hinput := hfree _ _ ⟨key, entry, hmem, v2, hv2, rfl⟩ ⟨key', entry', hmem', v2', hv2', rfl⟩
    (by
      show deriveChainId .. = deriveChainId ..
      rw [← (h.derived key entry hmem v2 hv2).2, ← (h.derived key' entry' hmem' v2' hv2').2,
        hchain])
  obtain ⟨hsession, hprincipal⟩ := chainIdInput_inj (h.fits key entry hmem)
    (h.fits key' entry' hmem') hinput
  obtain rfl : key = key' := by
    rw [← h.owned key entry hmem, ← h.owned key' entry' hmem', hsession, hprincipal]
  exact ⟨rfl, (hnumbered key).position_inj hi hj hv2 hv2' hchain hseq⟩

/-- What a run of the log stores and what the verifier accepts has positions that count from 1
and name one entry each exactly if no storage chain takes up a chain id again after it used
another. -/
theorem v2_position_names_entry {runtimeKey : KeyPair crypto} {s : LogState P crypto}
    (hrun : LogRun runtimeKey s)
    (hfree : ∀ x y, s.ChainIdInput x → s.ChainIdInput y →
      crypto.sha256 x = crypto.sha256 y → x = y) :
    ((∀ key, Numbered (s.chains key)) ∧ s.Named ↔ ∀ key, NoReopen (s.chains key)) ∧
    ∀ (verifier : ChainVerifier) (entries : List (AuditEntry P)),
      (verifier.verify crypto entries .genesis).valid = true →
      (Numbered entries ∧ Named entries ↔ NoReopen entries) := by
  have hinv := LogState.inv_of_run hrun
  constructor
  · constructor
    · rintro ⟨hnumbered, _⟩ key
      exact (numbered_iff_noReopen (hinv.positioned key)).1 (hnumbered key)
    · intro hopen
      have hnumbered : ∀ key, Numbered (s.chains key) := fun key =>
        (numbered_iff_noReopen (hinv.positioned key)).2 (hopen key)
      exact ⟨hnumbered, named_of_numbered hinv hfree hnumbered⟩
  · intro verifier entries hvalid
    obtain ⟨hgenesis, hchecked⟩ := ChainVerifier.verify_valid hvalid
    rw [← numbered_iff_noReopen (positioned_of_checked hgenesis hchecked)]
    refine ⟨And.left, fun hnumbered => ⟨hnumbered, ?_⟩⟩
    intro i j entry entry' v2 v2' hi hj hv2 hv2' hchain hseq
    exact hnumbered.position_inj hi hj hv2 hv2' hchain hseq

/-! ## A resolver that fails once -/

def lengthPair : KeyPair (lengthCrypto 0) :=
  ⟨KeyRegistry.repeatedKey 1, fun _ => zeroSignature, fun _ => rfl, fun _ => rfl⟩

/-- A request of one principal in session 7. -/
def aliceRequest : EntryRequest promptPayloads := ⟨7, some "alice", none,
  (Prompt.short.text, Prompt.short.text), Prompt.short.reason, Prompt.short.text⟩

/-- The UID of the principal. -/
def uid9 : Digest := KeyRegistry.repeatedKey 9

def aliceDraw (id : Uuid) (uid : Option Digest) : Draw := ⟨id, 0, zeroHash, uid⟩

def aliceEntry (id : Uuid) (previousHash : Digest) (uid : Option Digest) :
    AuditEntry promptPayloads :=
  { promptEntry 0 .short id 0 previousHash uid 1 zeroHash with
    principal := some "alice"
    v2 := some
      { chainId := deriveChainId (lengthCrypto 0) (auditRegistry 0).registryId 7 (some "alice") uid
        seq := 1
        keyEpoch := 0
        principalUid := uid
        actor := none
        saltKey := zeroHash } }

/-- The resolver has a UID, then none, then the UID again. -/
def aliceChain : List (AuditEntry promptPayloads) :=
  let first := aliceEntry 1 zeroHash (some uid9)
  let second := aliceEntry 2 (first.contentHash (lengthCrypto 0)) none
  [first, second, aliceEntry 3 (second.contentHash (lengthCrypto 0)) (some uid9)]

/-- The log after the first `n` of the entries. -/
def aliceState (n : Nat) : LogState promptPayloads (lengthCrypto 0) :=
  (aliceChain.take n).foldl LogState.append
    ⟨[auditGenesis], some ⟨lengthPair, auditRegistry 0⟩, fun _ => []⟩

theorem aliceRequest_fits : ∀ principal ∈ aliceRequest.principal, TextFits principal := by
  intro principal hprincipal
  obtain rfl : "alice" = principal := Option.some.inj hprincipal
  unfold TextFits
  decide +kernel

set_option maxRecDepth 8000 in
theorem aliceState_signs : ∀ n < 3, (aliceState n).signNext lengthPair aliceRequest
      (aliceDraw (BitVec.ofNat 128 (n + 1)) (if n = 1 then none else some uid9)) =
    .ok (aliceChain.getD n (aliceEntry 1 zeroHash none)) := by
  intro n hn
  match n, hn with
  | 0, _ => rfl
  | 1, _ => rfl
  | 2, _ => rfl

theorem aliceState_run : ∀ n ≤ 3, LogRun lengthPair (aliceState n) := by
  intro n
  induction n with
  | zero =>
    intro _
    have hgenesis : KeyRegistry.genesisRecord (lengthCrypto 0) 0 [(.audit, lengthPair)] =
        .ok auditGenesis := rfl
    exact .tail .refl (.create LogState.empty rfl hgenesis (fromRecords_audit 0)
      (by decide +kernel))
  | succ n ih =>
    intro hn
    refine .tail (ih (by omega)) ?_
    have hstep : aliceState (n + 1) =
        (aliceState n).append (aliceChain.getD n (aliceEntry 1 zeroHash none)) := by
      match n, hn with
      | 0, _ => rfl
      | 1, _ => rfl
      | 2, _ => rfl
    rw [hstep]
    refine .append (aliceState n) aliceRequest_fits (aliceState_signs n (by omega)) ?_
    match n, hn with
    | 0, _ => rfl
    | 1, _ => rfl
    | 2, _ => rfl

theorem LogState.records_foldl_append (entries : List (AuditEntry P)) :
    ∀ s : LogState P crypto, (entries.foldl LogState.append s).records = s.records := by
  induction entries with
  | nil =>
    intro s
    rfl
  | cons entry _ ih =>
    intro s
    exact ih (s.append entry)

/-- Entries of one chain, appended one after the other. -/
theorem LogState.chains_foldl_append {own : Uuid × Option String} {entries : List (AuditEntry P)}
    (s : LogState P crypto) (hown : ∀ entry ∈ entries, (entry.sessionId, entry.principal) = own) :
    ∀ key, (entries.foldl LogState.append s).chains key =
      if key = own then s.chains key ++ entries else s.chains key := by
  induction entries generalizing s with
  | nil =>
    intro key
    rw [append_nil, ite_self]
    rfl
  | cons entry _ ih =>
    intro key
    rw [foldl_cons, ih _ (forall_mem_cons.1 hown).2,
      LogState.chains_append, hown entry mem_cons_self]
    split
    next => rw [append_assoc, singleton_append]
    next => rfl

/-- All entries are in the chain of the principal. -/
theorem aliceState_chains (n : Nat) (key : Uuid × Option String) :
    (aliceState n).chains key = if key = (7, some "alice") then aliceChain.take n else [] := by
  have hown : ∀ entry ∈ aliceChain, (entry.sessionId, entry.principal) = (7, some "alice") := by
    intro entry hentry
    simp only [aliceChain, mem_cons, not_mem_nil, or_false] at hentry
    rcases hentry with rfl | rfl | rfl <;> rfl
  rw [aliceState, LogState.chains_foldl_append _ fun entry hentry =>
    hown entry (mem_of_mem_take hentry)]
  rfl

/-- The chain ids of the entries come from strings with different hashes. -/
theorem aliceState_free (n : Nat) (x y : Bytes) (hx : (aliceState n).ChainIdInput x)
    (hy : (aliceState n).ChainIdInput y)
    (h : (lengthCrypto 0).sha256 x = (lengthCrypto 0).sha256 y) : x = y := by
  have hinput {x : Bytes} (hx : (aliceState n).ChainIdInput x) :
      ∃ uid ∈ [none, some uid9], x = chainIdInput (auditRegistry 0).registryId 7 (some "alice")
        uid := by
    obtain ⟨_, _, hentry, _, hv2, rfl⟩ := hx
    rw [aliceState_chains] at hentry
    have hstored : (aliceState n).storedRegistryId = (auditRegistry 0).registryId := by
      rw [LogState.storedRegistryId, aliceState, LogState.records_foldl_append]
      rfl
    rw [hstored]
    split at hentry
    next =>
      have hentry := mem_of_mem_take hentry
      simp only [aliceChain, mem_cons, not_mem_nil, or_false] at hentry
      rcases hentry with rfl | rfl | rfl <;> cases hv2
      · exact ⟨some uid9, by simp, rfl⟩
      · exact ⟨none, by simp, rfl⟩
      · exact ⟨some uid9, by simp, rfl⟩
    next => cases hentry
  obtain ⟨uid, huid, rfl⟩ := hinput hx
  obtain ⟨uid', huid', rfl⟩ := hinput hy
  have hdecide : ∀ uid ∈ [none, some uid9], ∀ uid' ∈ [none, some uid9],
      (lengthCrypto 0).sha256 (chainIdInput (auditRegistry 0).registryId 7 (some "alice") uid) =
        (lengthCrypto 0).sha256 (chainIdInput (auditRegistry 0).registryId 7 (some "alice") uid') →
      uid = uid' := by
    decide +kernel
  rw [hdecide uid huid uid' huid' h]

/-- With one change of the answer, every position names one entry. -/
theorem aliceState_named :
    (∀ key, Numbered ((aliceState 2).chains key)) ∧ (aliceState 2).Named := by
  refine (v2_position_names_entry (aliceState_run 2 (by omega)) (aliceState_free 2)).1.2 ?_
  intro key
  rw [aliceState_chains]
  split
  next =>
    obtain ⟨first, second, hchain, hne⟩ : ∃ first second, aliceChain.take 2 = [first, second] ∧
        chainIdOf first ≠ chainIdOf second := ⟨_, _, rfl, by decide +kernel⟩
    rw [hchain, ← singleton_append, noReopen_snoc, ← nil_append [first], noReopen_snoc]
    refine ⟨⟨fun before entry after heq => absurd heq.symm (by simp), ?_⟩, ?_⟩
    · intro chainId _
      exact .inr fun earlier hearlier => by cases hearlier
    · intro chainId hsecond
      refine .inr fun earlier hearlier heq => hne ?_
      rw [nil_append, mem_singleton] at hearlier
      rw [← hearlier, heq, hsecond]
  next =>
    intro before entry after heq
    exact absurd heq.symm (by simp)

/-- When the answer changes back, the log opens the first chain again: two entries have its first
position, and the verifier accepts them. -/
theorem resolver_reopens_chain :
    LogRun lengthPair (aliceState 3) ∧
    (∀ x y, (aliceState 3).ChainIdInput x → (aliceState 3).ChainIdInput y →
      (lengthCrypto 0).sha256 x = (lengthCrypto 0).sha256 y → x = y) ∧
    ((ChainVerifier.new (some (auditRegistry 0))).verify (lengthCrypto 0)
      ((aliceState 3).chains (7, some "alice")) .genesis).valid = true ∧
    ¬ Numbered ((aliceState 3).chains (7, some "alice")) ∧
    ¬ Named ((aliceState 3).chains (7, some "alice")) := by
  rw [aliceState_chains, if_pos rfl]
  refine ⟨aliceState_run 3 (by omega), aliceState_free 3, by decide +kernel, ?_, ?_⟩
  · intro h
    have hseqs := h (deriveChainId (lengthCrypto 0) (auditRegistry 0).registryId 7 (some "alice")
      (some uid9))
    revert hseqs
    decide +kernel
  · intro h
    have hsame := h 0 2 _ _ _ _ rfl rfl rfl rfl rfl rfl
    cases hsame

end Astrid.Audit
