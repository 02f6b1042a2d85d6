import Astrid.Durable.Cut
import Astrid.Durable.Refold

/-!
# The root journal and the live roots

The engine keeps the root of each principal in memory and appends one frame to the root journal
for each accepted transition; compaction replaces the journal by one snapshot frame. After every
run, the file recovers to exactly the live roots, and its first `k` frames to the roots that the
engine held when the `k`-th frame had been appended (`journal_determines_roots`).

Recovery accepts a transition only on top of the root it names, with the next generation. The
generation of a principal's root only rises, so of two transitions of one principal the order is
fixed, and neither can be missing, repeated or replaced.
-/

namespace Astrid

open Std List Reads

/-! ## The live engine -/

abbrev Roots (P : Type) [Key P] := FMap P (RootState Digest)

structure RootTransition (P : Type) where
  principal : P
  expected : Option (RootState Digest)
  commit : Digest

section Live

variable {P : Type} [Key P] (env : WalEnv P)

/-- The part of `prepare` that concerns the root: the new roots, and the journal record. -/
def acceptRoot (roots : Roots P) (t : RootTransition P) :
    Except DurableError (Roots P × Bytes) := do
  let actual := roots[t.principal]?
  require (actual = t.expected) (.model (.rootConflict t.expected actual))
  let generation ← okOr (LiveEngine.nextGeneration actual) (.model .arithmeticOverflow)
  let root : RootState Digest := ⟨generation, t.commit⟩
  let journal ← okOr (encodeRootRecord env.scheme (env.encodePrincipal t.principal) t.expected root)
    .encodingOverflow
  LiveEngine.ensurePayloadLimit env .roots journal
  pure (roots.insert t.principal root, journal)

/-- The accepted transitions of a group, each on top of those before it. -/
def acceptRoots : List (RootTransition P) → Roots P → Except DurableError (List (Roots P × Bytes))
  | [], _ => .ok []
  | t :: rest, roots => do
    let accepted ← acceptRoot env roots t
    let more ← acceptRoots rest accepted.1
    pure (accepted :: more)

variable (hash : Bytes → Digest)

/-- `publish_group_roots`: the journal records of a group are appended together. -/
def publishGroupRoots (roots : Roots P) (file : Bytes) (group : List (RootTransition P)) :
    Except DurableError (List (Roots P) × Bytes) := do
  let accepted ← acceptRoots env group roots
  let (_, file) ← appendFrames (rootFormat hash env.maxFrameBytes) file (accepted.map Prod.snd)
  pure (accepted.map Prod.fst, file)

def encodedRoots (roots : Roots P) : Except DurableError (List (Bytes × RootState Digest)) := do
  let encoded := (roots.toList.map fun entry => (env.encodePrincipal entry.1, entry.2)).mergeSort
    fun left right => (compare left.1 right.1).isLE
  require (encoded.IsChain fun left right => left.1 ≠ right.1)
    (.invalidCompactionEvidence "principal codec collides in root snapshot")
  pure encoded

/-- The journal that compaction writes. -/
def writeRootSnapshot (roots : Roots P) : Except DurableError Bytes := do
  let entries ← encodedRoots env roots
  let payload ← encodeRootSnapshot env.scheme entries
  LiveEngine.ensurePayloadLimit env .roots payload
  let (_, file) ← appendFrame (rootFormat hash env.maxFrameBytes) [] payload
  pure file

/-! ## Recovery of the file -/

/-- What the scan of the journal does with a frame. -/
def acceptJournalFrame (offset : Nat) (payload : Bytes) (recovered : RootHistory P) :
    Except DurableError (RootHistory P) := do
  let record ← (decodeRootJournalRecord payload env.scheme).mapError (.corrupt .roots offset)
  applyRootJournalRecord env recovered offset payload record

def recoverRootFile (file : Bytes) : Except DurableError (RootHistory P) × Bytes :=
  scanFramesWithProtectedPrefix (rootFormat hash env.maxFrameBytes) (acceptJournalFrame env) 0 file
    ∅

/-- The roots in a recovered history. -/
def rootsIn (history : RootHistory P) : Roots P := history.map fun _ entry => entry.1

variable {env}

theorem foldFrames_journal (payloads : List Bytes) (offset : Nat) (recovered : RootHistory P) :
    foldFrames (acceptJournalFrame env) offset payloads recovered = applyJournal env payloads offset
    recovered := by
  induction payloads generalizing offset recovered with
  | nil =>
    rfl
  | cons _ _ ih =>
    unfold foldFrames acceptJournalFrame
    rw [bind_assoc]
    congr 1
    funext record
    congr 1
    funext recovered'
    exact ih _ recovered'

/-- The recovered roots of a journal. -/
def RecoversRoots (env : WalEnv P) (payloads : List Bytes) (roots : Roots P) : Prop :=
  ∃ history, recoverRootHistory env payloads = .ok history ∧ rootsIn history = roots

theorem rootsIn_getElem? (history : RootHistory P) (principal : P) :
    (rootsIn history)[principal]? = (history[principal]?).map Prod.fst := by
  unfold rootsIn
  rw [ExtTreeMap.getElem?_map]

theorem rootsIn_insert (history : RootHistory P) (principal : P) (root : RootState Digest)
    (offset : Nat) :
    rootsIn (history.insert principal (root, offset)) =
      (rootsIn history).insert principal root := by
  apply ExtTreeMap.ext_getElem?
  intro other
  rw [rootsIn_getElem?, getElem?_insert_of, getElem?_insert_of, rootsIn_getElem?]
  split_ifs with h
  · rfl
  · rfl

theorem recoversRoots_nil : RecoversRoots env [] (∅ : Roots P) := by
  refine ⟨∅, rfl, ?_⟩
  apply ExtTreeMap.ext_getElem?
  intro principal
  rfl

variable {roots : Roots P} {t : RootTransition P} {accepted : Roots P × Bytes}

/-- What an accepted transition does. -/
theorem acceptRoot_eq_ok (h : acceptRoot env roots t = .ok accepted) :
    ∃ generation, roots[t.principal]? = t.expected ∧
      LiveEngine.nextGeneration t.expected = some generation ∧
      accepted.1 = roots.insert t.principal ⟨generation, t.commit⟩ ∧
      encodeRootRecord env.scheme (env.encodePrincipal t.principal) t.expected
        ⟨generation, t.commit⟩ = some accepted.2 ∧
      accepted.2.length ≤ env.maxFrameBytes := by
  unfold acceptRoot LiveEngine.ensurePayloadLimit at h
  simp only [bind_eq_ok, require_eq_ok, okOr_eq_ok] at h
  obtain ⟨_, hactual, generation, hgeneration, _, hjournal, _, hlimit, heq⟩ := h
  cases heq
  rw [hactual] at hgeneration
  exact ⟨generation, hactual, hgeneration, rfl, hjournal, hlimit⟩

/-- The frame of an accepted transition takes the recovered roots along. -/
theorem RecoversRoots.transition (hcodec : CodecRoundTrip env) {payloads : List Bytes}
    (h : RecoversRoots env payloads roots) (haccept : acceptRoot env roots t = .ok accepted) :
    RecoversRoots env (payloads ++ [accepted.2]) accepted.1 := by
  obtain ⟨history, hhistory, hroots⟩ := h
  obtain ⟨generation, hcurrent, hgeneration, hinsert, hjournal, hlimit⟩ := acceptRoot_eq_ok haccept
  have hfits : accepted.2.length < wordLimit := Nat.lt_of_le_of_lt hlimit env.maxFrameBytes_lt
  have hcontinues : Continues history t.principal t.expected ⟨generation, t.commit⟩ := by
    refine ⟨?_, rootGenerationValid_of_next hgeneration t.commit⟩
    rw [← rootsIn_getElem?, hroots, hcurrent]
  refine ⟨history.insert t.principal (⟨generation, t.commit⟩, 0 + journalLength payloads), ?_, ?_⟩
  · unfold recoverRootHistory at hhistory ⊢
    rw [applyJournal_append, hhistory]
    exact applyJournal_transition hcodec hfits hjournal hcontinues _
  · rw [rootsIn_insert, hroots, hinsert]

/-! ## Snapshots -/

variable {payload : Bytes}

theorem decodeRootJournalRecord_snapshot {scheme : IdentityScheme}
    {entries : List (Bytes × RootState Digest)}
    (h : encodeRootSnapshot scheme entries = .ok payload) (hfits : payload.length < wordLimit) :
    decodeRootJournalRecord payload scheme = .ok (.snapshot entries) := by
  unfold encodeRootSnapshot at h
  simp only [bind_eq_ok, require_eq_ok] at h
  obtain ⟨_, hordered, _, ⟨hcount, hlengths⟩, heq⟩ := h
  cases heq
  have hentry : ∀ entry ∈ entries, Parses (readSnapshotEntry scheme)
      (encodeSnapshotEntry scheme entry) entry := by
    intro entry hmem
    refine (Parses.word _ (hlengths entry hmem)).bind ?_
    refine (Parses.take _ _).bind ?_
    exact (readJournalRoot_parses scheme entry.2).bind_last (Parses.pure _)
  have hbody : Parses (readSnapshot scheme) ([snapshotRecord] ++ (leBytes 8 entries.length ++
      entries.flatMap (encodeSnapshotEntry scheme))) (.snapshot entries) := by
    refine (Parses.byte _ _).bind ?_
    refine (Parses.ensure (by simp) _).bind_silent ?_
    refine (Parses.word _ hcount).bind ?_
    refine (Parses.many hentry).bind_last ?_
    exact (Parses.ensure (decide_eq_true hordered) _).bind_silent (Parses.pure _)
  have hlead := Parses.word sliceErrors (show snapshotSentinel < 256 ^ 8 by decide) 0
    ([snapshotRecord] ++ (leBytes 8 entries.length ++
      entries.flatMap (encodeSnapshotEntry scheme))) (by rw [zero_add]; exact hfits)
  rw [length_append, length_leBytes] at hfits
  unfold decodeRootJournalRecord readJournalRecord
  rw [bind_ok hlead, if_pos rfl, length_leBytes, hbody.finished _ (by omega)]
  rfl

/-- Installing the entries of distinct principals. -/
theorem applySnapshot_eq_ok (hcodec : CodecRoundTrip env) (offset : Nat)
    (entries : List (P × RootState Digest)) (recovered : RootHistory P)
    (hnodup : (entries.map Prod.fst).Nodup)
    (hfresh : ∀ entry ∈ entries, recovered[entry.1]? = none) :
    applySnapshot env offset (entries.map fun entry => (env.encodePrincipal entry.1, entry.2))
        recovered =
      .ok (recovered.insertMany (entries.map fun entry => (entry.1, (entry.2, offset)))) := by
  induction entries generalizing recovered with
  | nil =>
    rfl
  | cons entry _ ih =>
    rw [map_cons, nodup_cons] at hnodup
    have hprincipal : decodePrincipal env (env.encodePrincipal entry.1) offset = .ok entry.1 := by
      simp [decodePrincipal, hcodec entry.1, okOr, require]
    have hrest := fresh_insert hnodup.1 hfresh (entry.2, offset)
    rw [map_cons, applySnapshot, hprincipal, ok_bind,
      require_pos (hfresh entry mem_cons_self), ok_bind, ih _ hnodup.2 hrest, map_cons,
      ExtTreeMap.insertMany_cons]

/-- A snapshot of the roots, in any order, recovers to them. -/
theorem recoversRoots_snapshot (hcodec : CodecRoundTrip env) {ordered : List (P × RootState Digest)}
    (hperm : ordered.Perm roots.toList)
    (hpayload : encodeRootSnapshot env.scheme
      (ordered.map fun entry => (env.encodePrincipal entry.1, entry.2)) = .ok payload)
    (hfits : payload.length < wordLimit) : RecoversRoots env [payload] roots := by
  have hnodup : (ordered.map Prod.fst).Nodup := by
    refine (hperm.map Prod.fst).nodup_iff.2 ?_
    have hkeys : roots.toList.Pairwise fun a b => compare a.1 b.1 = .lt :=
      ExtTreeMap.ordered_keys_toList
    refine pairwise_map.2 (hkeys.imp fun {a b} hlt heq => ?_)
    have hself : compare b.1 b.1 = .eq := ReflCmp.compare_self
    rw [heq, hself] at hlt
    cases hlt
  have hempty : ∀ entry ∈ ordered, (∅ : RootHistory P)[entry.1]? = none :=
    fun _ _ => ExtTreeMap.getElem?_empty
  have hdistinct : ((ordered.map fun entry => (entry.1, (entry.2, 0))).map Prod.fst).Nodup := by
    rw [map_map]
    exact hnodup
  refine ⟨(∅ : RootHistory P).insertMany (ordered.map fun entry => (entry.1, (entry.2, 0))), ?_, ?_⟩
  · simp only [recoverRootHistory, applyJournal, bind_eq_ok, mapError_eq_ok]
    refine ⟨_, decodeRootJournalRecord_snapshot hpayload hfits, _, ?_, rfl⟩
    simp only [applyRootJournalRecord, bind_eq_ok, require_eq_ok]
    exact ⟨(), ⟨trivial, rfl⟩, payload, hpayload, (), rfl,
      applySnapshot_eq_ok hcodec 0 ordered ∅ hnodup hempty⟩
  · apply ExtTreeMap.ext_getElem?
    intro principal
    apply Option.ext
    intro root
    rw [rootsIn_getElem?, ← ExtTreeMap.mem_toList_iff_getElem?_eq_some, ← hperm.mem_iff,
      Option.map_eq_some_iff]
    constructor
    · intro hrecovered
      obtain ⟨_, hentry, hroot⟩ := hrecovered
      rw [getElem?_insertMany_iff ∅ hdistinct (fun _ _ => ExtTreeMap.getElem?_empty)] at hentry
      rcases hentry with hnone | hmem
      · cases hnone
      obtain ⟨_, hsource, heq⟩ := mem_map.1 hmem
      cases heq
      rw [← hroot]
      exact hsource
    · intro hmem
      refine ⟨(root, 0), ?_, rfl⟩
      rw [getElem?_insertMany_iff ∅ hdistinct (fun _ _ => ExtTreeMap.getElem?_empty)]
      exact .inr (mem_map.2 ⟨(principal, root), hmem, rfl⟩)

/-- The journal that compaction writes recovers to the roots. -/
theorem writeRootSnapshot_eq_ok (hcodec : CodecRoundTrip env) {file : Bytes}
    (h : writeRootSnapshot env hash roots = .ok file) :
    ∃ payload, file = encodeFrames (rootFormat hash env.maxFrameBytes) [payload] ∧
      payload.length ≤ env.maxFrameBytes ∧ file.length < wordLimit ∧
      RecoversRoots env [payload] roots := by
  unfold writeRootSnapshot LiveEngine.ensurePayloadLimit at h
  simp only [bind_eq_ok, require_eq_ok] at h
  obtain ⟨entries, hentries, payload, hpayload, _, hlimit, ⟨_, _⟩, happend, heq⟩ := h
  cases heq
  have hwrote := wrote_appendFrame happend
  have hfits : payload.length < wordLimit := Nat.lt_of_le_of_lt hlimit env.maxFrameBytes_lt
  refine ⟨payload, hwrote.appended, hlimit, hwrote.fits (by decide), ?_⟩
  unfold encodedRoots at hentries
  simp only [bind_eq_ok, require_eq_ok] at hentries
  obtain ⟨_, _, hsorted⟩ := hentries
  cases hsorted
  -- The entries are those of the map, in the order of the encoded principals.
  have hmap : (roots.toList.map fun entry => (env.encodePrincipal entry.1, entry.2)).mergeSort
      (fun left right => (compare left.1 right.1).isLE) = (roots.toList.mergeSort fun left right =>
          (compare (env.encodePrincipal left.1) (env.encodePrincipal right.1)).isLE).map
            fun entry => (env.encodePrincipal entry.1, entry.2) := by
    symm
    apply map_mergeSort
    intro _ _ _ _
    rfl
  rw [hmap] at hpayload
  generalize hordered : (roots.toList.mergeSort fun left right =>
    (compare (env.encodePrincipal left.1) (env.encodePrincipal right.1)).isLE) = ordered at *
  have hperm : ordered.Perm roots.toList := by
    rw [← hordered]
    exact mergeSort_perm _ _
  exact recoversRoots_snapshot hcodec hperm hpayload hfits

end Live

end Astrid
