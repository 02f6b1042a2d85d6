import Astrid.Durable.Journal

/-!
# Runs of the root journal

Whole runs of publications and compactions, and journals that no run writes. The invariant of a
run is that the first `k` frames recover to the roots that were held after the `k`-th of them.

Where recovery is strict, it is strict for one principal at a time. Transitions of different
principals do not depend on each other: their order, and a principal's last transition, leave no
trace in the rest of the journal.
-/

namespace Astrid

open Std List ExtTreeMap

variable {P : Type} [Key P] {env : WalEnv P} {hash : Bytes → Digest}

/-! ## Runs -/

/-- Runs of the engine: all roots it ever held, those it held after each frame of the journal,
the current roots and the journal. -/
inductive JournalRun (env : WalEnv P) (hash : Bytes → Digest) :
    List (Roots P) → List (Roots P) → Roots P → Bytes → Prop
  | start : JournalRun env hash [∅] [] ∅ []
  | publish {history held states : List (Roots P)} {roots : Roots P} {file file' : Bytes}
      {group : List (RootTransition P)} (h : JournalRun env hash history held roots file)
      (hgroup : publishGroupRoots env hash roots file group = .ok (states, file')) :
      JournalRun env hash (history ++ states) (held ++ states) (states.getLast?.getD roots) file'
  | compact {history held : List (Roots P)} {roots : Roots P} {file file' : Bytes}
      (h : JournalRun env hash history held roots file)
      (hsnapshot : writeRootSnapshot env hash roots = .ok file') :
      JournalRun env hash history [roots] roots file'

/-- One principal moves on to its next generation. -/
def Advances (roots roots' : Roots P) : Prop :=
  ∃ principal root, roots' = roots.insert principal root ∧
    LiveEngine.nextGeneration roots[principal]? = some root.generation

/-- What a run keeps between the roots and the frames of the journal. -/
structure JournalInv (env : WalEnv P) (hash : Bytes → Digest) (history held : List (Roots P))
    (roots : Roots P) (file : Bytes) (payloads : List Bytes) : Prop where
  file_eq : file = encodeFrames (rootFormat hash env.maxFrameBytes) payloads
  fits : file.length < wordLimit
  limits : ∀ payload ∈ payloads, payload.length ≤ env.maxFrameBytes
  length_eq : payloads.length = held.length
  recovers : ∀ k roots', (∅ :: held)[k]? = some roots' → RecoversRoots env (payloads.take k) roots'
  current : (∅ :: held).getLast? = some roots
  newest : history.getLast? = some roots
  suffix : held <:+ history
  advances : history.IsChain Advances

/-- The accepted transitions of a group take the roots and what the journal recovers to along. -/
theorem acceptRoots_recovers (hcodec : CodecRoundTrip env) {group : List (RootTransition P)}
    {roots : Roots P} {accepted : List (Roots P × Bytes)} {before : List Bytes}
    (h : acceptRoots env group roots = .ok accepted) (hrecovers : RecoversRoots env before roots) :
    (∀ payload ∈ accepted.map Prod.snd, payload.length ≤ env.maxFrameBytes) ∧
      (∀ k roots', (roots :: accepted.map Prod.fst)[k]? = some roots' →
      RecoversRoots env (before ++ (accepted.map Prod.snd).take k) roots') ∧
      (roots :: accepted.map Prod.fst).IsChain Advances := by
  induction group generalizing roots accepted before with
  | nil =>
    cases h
    refine ⟨fun _ h => absurd h not_mem_nil, fun k roots' hk => ?_, isChain_singleton _⟩
    cases k with
    | zero =>
      cases hk
      rw [take_zero, append_nil]
      exact hrecovers
    | succ => cases hk
  | cons t _ ih =>
    unfold acceptRoots at h
    simp only [bind_eq_ok] at h
    obtain ⟨_, hfirst, _, hmore, heq⟩ := h
    cases heq
    obtain ⟨generation, hcurrent, hgeneration, hinsert, _, hlimit⟩ := acceptRoot_eq_ok hfirst
    obtain ⟨hlimits, hboundaries, hchain⟩ := ih hmore (hrecovers.transition hcodec hfirst)
    refine ⟨fun payload hpayload => ?_, fun k roots' hk => ?_, ?_⟩
    · rcases mem_cons.1 hpayload with heq | hrest
      · rw [heq]
        exact hlimit
      · exact hlimits payload hrest
    · cases k with
      | zero =>
        cases hk
        rw [take_zero, append_nil]
        exact hrecovers
      | succ k =>
        have hstep := hboundaries k roots' hk
        rwa [append_assoc] at hstep
    · refine List.IsChain.cons_cons ⟨t.principal, ⟨generation, t.commit⟩, hinsert, ?_⟩ hchain
      rw [hcurrent]
      exact hgeneration

theorem getLast?_append_getD {α : Type} (xs ys : List α) {x : α} (h : xs.getLast? = some x) :
    (xs ++ ys).getLast? = some (ys.getLast?.getD x) := by
  rw [getLast?_append, h]
  cases ys.getLast? with
  | none | some => rfl

variable {held : List (Roots P)} {file : Bytes} {history : List (Roots P)} {roots : Roots P}
  {payloads : List Bytes}

section

variable (hcodec : CodecRoundTrip env) (h : JournalInv env hash history held roots file payloads)

include hcodec h

/-- A run that goes on keeps the invariant. -/
theorem JournalInv.publish {states : List (Roots P)} {file' : Bytes}
    {group : List (RootTransition P)}
    (hgroup : publishGroupRoots env hash roots file group = .ok (states, file')) :
    ∃ payloads', JournalInv env hash (history ++ states) (held ++ states)
      (states.getLast?.getD roots) file' payloads' := by
  unfold publishGroupRoots at hgroup
  simp only [bind_eq_ok] at hgroup
  obtain ⟨accepted, haccepted, ⟨_, _⟩, happend, heq⟩ := hgroup
  cases heq
  have hwrote := wrote_appendFrames happend
  have hall : RecoversRoots env payloads roots := by
    have hlast := h.recovers held.length roots ?_
    · rwa [← h.length_eq, take_length] at hlast
    · rw [← h.current, getLast?_eq_getElem?, length_cons, Nat.add_sub_cancel]
  obtain ⟨hlimits, hboundaries, hchain⟩ := acceptRoots_recovers hcodec haccepted hall
  refine ⟨payloads ++ accepted.map Prod.snd, ?_⟩
  exact {
    file_eq := by rw [hwrote.appended, h.file_eq, encodeFrames_append]
    fits := hwrote.fits h.fits
    limits := forall_mem_append.2 ⟨h.limits, hlimits⟩
    length_eq := by rw [length_append, length_append, h.length_eq, length_map, length_map]
    recovers := by
      intro k roots' hk
      rw [← cons_append] at hk
      by_cases hinside : k ≤ payloads.length
      · rw [take_append_of_le_length hinside]
        apply h.recovers
        rwa [getElem?_append_left (by rw [length_cons, ← h.length_eq]; omega)] at hk
      -- Past the old frames, position `j` among the new ones.
      obtain ⟨_, rfl⟩ := Nat.exists_eq_add_of_lt (Nat.lt_of_not_le hinside)
      rw [add_assoc, take_length_add_append]
      apply hboundaries
      rw [getElem?_append_right (by rw [length_cons, ← h.length_eq]; omega)] at hk
      rw [getElem?_cons_succ, ← hk]
      congr 1
      rw [length_cons, ← h.length_eq]
      omega
    current := by
      exact getLast?_append_getD _ _ h.current
    newest := getLast?_append_getD _ _ h.newest
    suffix := by
      obtain ⟨before, hbefore⟩ := h.suffix
      exact ⟨before, by rw [← hbefore, append_assoc]⟩
    advances := by
      refine List.IsChain.append h.advances (List.IsChain.tail hchain)
        fun last hlast next hnext => ?_
      have hroots : last = roots := Option.some.inj (hlast.symm.trans h.newest)
      rw [hroots]
      exact (isChain_cons.1 hchain).1 next hnext }

theorem JournalInv.compact {file' : Bytes}
    (hsnapshot : writeRootSnapshot env hash roots = .ok file') :
    ∃ payloads', JournalInv env hash history [roots] roots file' payloads' := by
  obtain ⟨payload, hfile, hlimit, hfits, hrecovers⟩ := writeRootSnapshot_eq_ok hash hcodec hsnapshot
  refine ⟨[payload], ?_⟩
  exact {
    file_eq := hfile
    fits := hfits
    limits := by
      intro other hother
      rw [mem_singleton.1 hother]
      exact hlimit
    length_eq := rfl
    recovers := by
      intro k roots' hk
      match k, hk with
      | 0, hk =>
        cases hk
        exact recoversRoots_nil
      | 1, hk =>
        cases hk
        exact hrecovers
    current := rfl
    newest := h.newest
    suffix := by
      obtain ⟨init, hinit⟩ := getLast?_eq_some_iff.1 h.newest
      exact ⟨init, hinit.symm⟩
    advances := h.advances }

end

theorem journalRun_inv (hcodec : CodecRoundTrip env)
    (h : JournalRun env hash history held roots file) :
    ∃ payloads, JournalInv env hash history held roots file payloads := by
  induction h with
  | start =>
    refine ⟨[], ⟨rfl, by decide, fun _ h => absurd h not_mem_nil, rfl, fun k roots' hk => ?_,
      rfl, rfl, nil_suffix, isChain_singleton _⟩⟩
    cases k with
    | zero =>
      cases hk
      exact recoversRoots_nil
    | succ => cases hk
  | publish _ hgroup ih =>
    obtain ⟨payloads, hinv⟩ := ih
    exact hinv.publish hcodec hgroup
  | compact _ hsnapshot ih =>
    obtain ⟨_, hinv⟩ := ih
    exact hinv.compact hcodec hsnapshot

/-! ## Journals that no run writes -/

section Strict

variable {offset : Nat}

omit [Key P] in
theorem decodePrincipal_eq_ok {bytes : Bytes} {principal : P} :
    decodePrincipal env bytes offset = .ok principal ↔
      env.decodePrincipal bytes = some principal ∧ env.encodePrincipal principal = bytes := by
  simp only [decodePrincipal, bind_eq_ok, okOr_eq_ok, require_eq_ok]
  constructor
  · intro h
    obtain ⟨_, hdecoded, _, hencoded, heq⟩ := h
    cases heq
    exact ⟨hdecoded, hencoded⟩
  · intro h
    exact ⟨principal, h.1, (), h.2, rfl⟩

/-- The root of a principal in a recovered history. -/
abbrev rootIn (recovered : RootHistory P) (principal : P) : Option (RootState Digest) :=
  (recovered[principal]?).map Prod.fst

/-- What recovery has checked when it accepts a transition. -/
structure Applied (env : WalEnv P) (recovered : RootHistory P) (record : DecodedRootRecord)
    (principal : P) : Prop where
  decoded : env.decodePrincipal record.principal = some principal
  current : rootIn recovered principal = record.expected
  rises : rootRank record.expected < rootRank (some record.replacement)

variable {rest : List Bytes} {recovered recovered' : RootHistory P} {payload : Bytes}

theorem applyJournal_cons_transition {record : DecodedRootRecord}
    (hrecord : decodeRootJournalRecord payload env.scheme = .ok (.transition record))
    (h : applyJournal env (payload :: rest) offset recovered = .ok recovered') :
    ∃ principal, Applied env recovered record principal ∧
      applyJournal env rest (offset + frameHeaderLen + payload.length)
        (recovered.insert principal (record.replacement, offset)) = .ok recovered' := by
  simp only [applyJournal, bind_eq_ok, mapError_eq_ok, hrecord] at h
  obtain ⟨_, hdecoded, _, happlied, hrest⟩ := h
  cases hdecoded
  simp only [applyRootJournalRecord, applyTransition, bind_eq_ok, okOr_eq_ok, require_eq_ok,
    decodePrincipal_eq_ok] at happlied
  obtain ⟨_, _, _, _, principal, ⟨hprincipal, _⟩, _, hcurrent, generation, hgeneration, _, hnext,
    heq⟩ := happlied
  cases heq
  refine ⟨principal, ⟨hprincipal, hcurrent, ?_⟩, hrest⟩
  apply rootRank_lt
  have hvalid : LiveEngine.nextGeneration record.expected = some record.replacement.generation := by
    rw [← hcurrent, hnext]
    exact hgeneration
  exact rootGenerationValid_of_next hvalid record.replacement.commit

theorem applyJournal_cons_snapshot {entries : List (Bytes × RootState Digest)}
    (hrecord : decodeRootJournalRecord payload env.scheme = .ok (.snapshot entries))
    (h : applyJournal env (payload :: rest) offset recovered = .ok recovered') :
    offset = 0 ∧ recovered.isEmpty = true := by
  simp only [applyJournal, bind_eq_ok, mapError_eq_ok, hrecord] at h
  obtain ⟨_, hdecoded, _, happlied, _⟩ := h
  cases hdecoded
  simp only [applyRootJournalRecord, bind_eq_ok, require_eq_ok] at happlied
  obtain ⟨_, hfirst, _⟩ := happlied
  exact hfirst

theorem applyJournal_cons_decodes
    (h : applyJournal env (payload :: rest) offset recovered = .ok recovered') :
    ∃ record, decodeRootJournalRecord payload env.scheme = .ok record := by
  simp only [applyJournal, bind_eq_ok, mapError_eq_ok] at h
  obtain ⟨record, hrecord, _⟩ := h
  exact ⟨record, hrecord⟩

theorem rootIn_insert (recovered : RootHistory P) (principal other : P) (root : RootState Digest)
    (offset : Nat) : rootIn (recovered.insert principal (root, offset)) other =
      if principal = other then some root else rootIn recovered other := by
  unfold rootIn
  rw [getElem?_insert_of]
  split
  · rfl
  · rfl

theorem rootIn_of_isEmpty (h : recovered.isEmpty = true) (principal : P) :
    rootIn recovered principal = none := by
  rw [isEmpty_iff.1 h]
  rfl

/-- No generation ever falls. -/
theorem applyJournal_rank_le (principal : P) {payloads : List Bytes} {offset : Nat}
    {recovered recovered' : RootHistory P}
    (h : applyJournal env payloads offset recovered = .ok recovered') :
    rootRank (rootIn recovered principal) ≤ rootRank (rootIn recovered' principal) := by
  induction payloads generalizing offset recovered recovered' with
  | nil =>
    cases h
    exact le_rfl
  | cons _ _ ih =>
    obtain ⟨record, hrecord⟩ := applyJournal_cons_decodes h
    cases record with
    | snapshot =>
      -- A snapshot is only read into an empty history.
      rw [rootIn_of_isEmpty (applyJournal_cons_snapshot hrecord h).2]
      exact Nat.zero_le _
    | transition =>
      obtain ⟨_, happlied, hrest⟩ := applyJournal_cons_transition hrecord h
      refine Nat.le_trans ?_ (ih hrest)
      rw [rootIn_insert]
      split_ifs with hmoved
      · rw [← hmoved, happlied.current]
        exact Nat.le_of_lt happlied.rises
      · rfl

variable {after : List Bytes}

/-- Two transitions of one principal in an accepted journal: the second starts no earlier than
where the first ends. -/
theorem applyJournal_between {p q : Bytes} {r r' : DecodedRootRecord} {between : List Bytes}
    (hp : decodeRootJournalRecord p env.scheme = .ok (.transition r))
    (hq : decodeRootJournalRecord q env.scheme = .ok (.transition r'))
    (hsame : r.principal = r'.principal)
    (h : applyJournal env (p :: (between ++ q :: after)) offset recovered = .ok recovered') :
    rootRank (some r.replacement) ≤ rootRank r'.expected := by
  obtain ⟨principal, happlied, hrest⟩ := applyJournal_cons_transition hp h
  rw [applyJournal_append, bind_eq_ok] at hrest
  obtain ⟨_, hmiddle, hlast⟩ := hrest
  obtain ⟨principal', happlied', _⟩ := applyJournal_cons_transition hq hlast
  have hprincipal : principal' = principal := by
    have hdecoded := happlied'.decoded
    rw [← hsame, happlied.decoded] at hdecoded
    exact (Option.some.inj hdecoded).symm
  have hrank := applyJournal_rank_le principal hmiddle
  rw [rootIn_insert, if_pos rfl] at hrank
  rwa [← happlied'.current, hprincipal]

/-- A journal suffix with a transition of a principal is accepted only on one root of it. -/
theorem applyJournal_agree {q : Bytes} {r : DecodedRootRecord} {principal : P}
    (hq : decodeRootJournalRecord q env.scheme = .ok (.transition r))
    (hprincipal : env.decodePrincipal r.principal = some principal) {between : List Bytes}
    {offset offset' : Nat} {left right left' right' : RootHistory P} (hne : left.isEmpty = false)
    (hleft : applyJournal env (between ++ q :: after) offset left = .ok left')
    (hright : applyJournal env (between ++ q :: after) offset' right = .ok right') :
    rootIn left principal = rootIn right principal := by
  induction between generalizing offset offset' left right left' right' with
  | nil =>
    obtain ⟨p₁, h₁, _⟩ := applyJournal_cons_transition hq hleft
    obtain ⟨p₂, h₂, _⟩ := applyJournal_cons_transition hq hright
    have e₁ : p₁ = principal := Option.some.inj (h₁.decoded.symm.trans hprincipal)
    have e₂ : p₂ = principal := Option.some.inj (h₂.decoded.symm.trans hprincipal)
    rw [← e₁, h₁.current, e₁, ← e₂, h₂.current]
  | cons _ _ ih =>
    obtain ⟨record, hrecord⟩ := applyJournal_cons_decodes hleft
    cases record with
    | snapshot =>
      rw [(applyJournal_cons_snapshot hrecord hleft).2] at hne
      cases hne
    | transition =>
      obtain ⟨p₁, h₁, hrest₁⟩ := applyJournal_cons_transition hrecord hleft
      obtain ⟨p₂, h₂, hrest₂⟩ := applyJournal_cons_transition hrecord hright
      have hmoved : p₂ = p₁ := Option.some.inj (h₂.decoded.symm.trans h₁.decoded)
      by_cases hhere : p₁ = principal
      · rw [← hhere, h₁.current, ← hmoved, h₂.current]
      · have hnext := ih (by simp) hrest₁ hrest₂
        rwa [rootIn_insert, rootIn_insert, if_neg hhere, hmoved, if_neg hhere] at hnext

/-- Journals that recovery rejects. -/
structure StrictJournal (env : WalEnv P) : Prop where
  /-- A snapshot that is not first. -/
  snapshotFirst : ∀ (before after : List Bytes) (payload : Bytes)
    (entries : List (Bytes × RootState Digest)), before ≠ [] →
    decodeRootJournalRecord payload env.scheme = .ok (.snapshot entries) →
    ∃ e, recoverRootHistory env (before ++ payload :: after) = .error e
  /-- The same transition twice. -/
  repeated : ∀ (before between after : List Bytes) (p : Bytes) (r : DecodedRootRecord),
    decodeRootJournalRecord p env.scheme = .ok (.transition r) →
    ∃ e, recoverRootHistory env (before ++ p :: (between ++ p :: after)) = .error e
  /-- Two transitions of a principal from one root. -/
  forked : ∀ (before between after : List Bytes) (p q : Bytes) (r r' : DecodedRootRecord),
    decodeRootJournalRecord p env.scheme = .ok (.transition r) →
    decodeRootJournalRecord q env.scheme = .ok (.transition r') →
    r.principal = r'.principal → r.expected = r'.expected →
    ∃ e, recoverRootHistory env (before ++ p :: (between ++ q :: after)) = .error e
  /-- Two transitions of a principal the other way round. -/
  reordered : ∀ (before between after before' between' after' : List Bytes) (p q : Bytes)
    (r r' : DecodedRootRecord) (recovered : RootHistory P),
    decodeRootJournalRecord p env.scheme = .ok (.transition r) →
    decodeRootJournalRecord q env.scheme = .ok (.transition r') → r.principal = r'.principal →
    recoverRootHistory env (before ++ p :: (between ++ q :: after)) = .ok recovered →
    ∃ e, recoverRootHistory env (before' ++ q :: (between' ++ p :: after')) = .error e
  /-- A transition missing before a later one of its principal. -/
  skipped : ∀ (before between after : List Bytes) (p q : Bytes) (r r' : DecodedRootRecord)
    (recovered : RootHistory P),
    decodeRootJournalRecord p env.scheme = .ok (.transition r) →
    decodeRootJournalRecord q env.scheme = .ok (.transition r') → r.principal = r'.principal →
    recoverRootHistory env (before ++ p :: (between ++ q :: after)) = .ok recovered →
    ∃ e, recoverRootHistory env (before ++ (between ++ q :: after)) = .error e

/-- What is not accepted is rejected. -/
theorem rejected_of_not_ok {ε α : Type} {outcome : Except ε α}
    (h : ∀ a, outcome = .ok a → False) : ∃ e, outcome = .error e := by
  cases outcome with
  | ok a => exact absurd rfl (h a)
  | error e => exact ⟨e, rfl⟩

/-- The part of an accepted journal from a frame on. -/
theorem recoverRootHistory_split {before : List Bytes}
    (h : recoverRootHistory env (before ++ after) = .ok recovered) :
    ∃ middle, recoverRootHistory env before = .ok middle ∧
      applyJournal env after (journalLength before) middle = .ok recovered := by
  unfold recoverRootHistory at h ⊢
  rw [applyJournal_append, bind_eq_ok, zero_add] at h
  exact h

theorem strictJournal : StrictJournal env := by
  have hforked : ∀ (before between after : List Bytes) (p q : Bytes) (r r' : DecodedRootRecord),
      decodeRootJournalRecord p env.scheme = .ok (.transition r) →
      decodeRootJournalRecord q env.scheme = .ok (.transition r') →
      r.principal = r'.principal → r.expected = r'.expected →
      ∃ e, recoverRootHistory env (before ++ p :: (between ++ q :: after)) = .error e := by
    intro before between after p q r r' hp hq hsame hexpected
    refine rejected_of_not_ok fun recovered h => ?_
    obtain ⟨middle, _, hrest⟩ := recoverRootHistory_split h
    have hle := applyJournal_between hp hq hsame hrest
    obtain ⟨_, happlied, _⟩ := applyJournal_cons_transition hp hrest
    have hrises := happlied.rises
    rw [hexpected] at hrises
    omega
  refine ⟨?_, fun before between after p r hp => ?_, hforked, ?_, ?_⟩
  · intro before after payload entries hne hpayload
    refine rejected_of_not_ok fun recovered h => ?_
    obtain ⟨middle, _, hrest⟩ := recoverRootHistory_split h
    have hzero := (applyJournal_cons_snapshot hpayload hrest).1
    cases before with
    | nil => exact hne rfl
    | cons =>
      simp only [journalLength, map_cons, sum_cons, frameHeaderLen] at hzero
      omega
  · exact hforked before between after p p r r hp hp rfl rfl
  · intro before between after before' between' after' p q r r' recovered hp hq hsame haccepted
    refine rejected_of_not_ok fun recovered' h => ?_
    obtain ⟨_, _, hrest⟩ := recoverRootHistory_split haccepted
    obtain ⟨_, _, hrest'⟩ := recoverRootHistory_split h
    -- Each would have to end before the other starts.
    have hle := applyJournal_between hp hq hsame hrest
    have hle' := applyJournal_between hq hp hsame.symm hrest'
    obtain ⟨_, happlied, _⟩ := applyJournal_cons_transition hp hrest
    obtain ⟨_, happlied', _⟩ := applyJournal_cons_transition hq hrest'
    have hrises := happlied.rises
    have hrises' := happlied'.rises
    omega
  · intro before between after p q r r' recovered hp hq hsame haccepted
    refine rejected_of_not_ok fun recovered' h => ?_
    obtain ⟨_, hmiddle, hrest⟩ := recoverRootHistory_split haccepted
    obtain ⟨_, hmiddle', hrest'⟩ := recoverRootHistory_split h
    rw [hmiddle] at hmiddle'
    cases hmiddle'
    obtain ⟨principal, happlied, hnext⟩ := applyJournal_cons_transition hp hrest
    have hprincipal : env.decodePrincipal r'.principal = some principal := by
      rw [← hsame]
      exact happlied.decoded
    have hagree := applyJournal_agree hq hprincipal (by simp) hnext hrest'
    rw [rootIn_insert, if_pos rfl, happlied.current] at hagree
    have hrises := happlied.rises
    rw [← hagree] at hrises
    exact lt_irrefl _ hrises

end Strict

/-! ## The journal determines the roots -/

/-- The frames of the journal after a run, and what they recover to. -/
structure JournalHolds (env : WalEnv P) (hash : Bytes → Digest) (history held : List (Roots P))
    (roots : Roots P) (file : Bytes) (payloads : List Bytes) : Prop where
  file_eq : file = encodeFrames (rootFormat hash env.maxFrameBytes) payloads
  /-- The whole file recovers to the live roots. -/
  recovered : ∃ recovered, recoverRootFile env hash file = (.ok recovered, file) ∧
    rootsIn recovered = roots
  /-- The first frames recover to what was held after the last of them. -/
  boundaries : ∀ k roots', (∅ :: held)[k]? = some roots' → ∃ recovered,
    recoverRootFile env hash (encodeFrames (rootFormat hash env.maxFrameBytes) (payloads.take k)) =
      (.ok recovered, encodeFrames (rootFormat hash env.maxFrameBytes) (payloads.take k)) ∧
    rootsIn recovered = roots'
  /-- There is one state for each frame, and each was held by the live engine. -/
  length_eq : payloads.length = held.length
  suffix : held <:+ history
  newest : history.getLast? = some roots
  /-- Generations rise by one. -/
  advances : history.IsChain Advances

theorem recoverRootFile_of_recovers (h : RecoversRoots env payloads roots)
    (hlimits : ∀ payload ∈ payloads, payload.length ≤ env.maxFrameBytes)
    (hfits : (encodeFrames (rootFormat hash env.maxFrameBytes) payloads).length < wordLimit) :
    ∃ recovered,
      recoverRootFile env hash (encodeFrames (rootFormat hash env.maxFrameBytes) payloads) =
      (.ok recovered, encodeFrames (rootFormat hash env.maxFrameBytes) payloads) ∧
      rootsIn recovered = roots := by
  obtain ⟨history, hhistory, hroots⟩ := h
  refine ⟨history, ?_, hroots⟩
  unfold recoverRootFile
  rw [scan_whole hlimits hfits (Nat.zero_le _), foldFrames_journal]
  unfold recoverRootHistory at hhistory
  rw [hhistory]

/-- The first commit of principal 1. -/
def firstTransition : RootTransition UInt8 := ⟨1, none, (contentRoot .initial 7).commit⟩

/-- The second commit of principal 1, and the first of principal 2. -/
def laterTransitions : List (RootTransition UInt8) :=
  [⟨1, some (contentRoot .initial 7), (contentRoot .initial 8).commit⟩,
    ⟨2, none, (contentRoot .initial 9).commit⟩]

theorem encodedRoots_first :
    encodedRoots WalEnv.byContent ((∅ : Roots UInt8).insert 1 (contentRoot .initial 7)) =
      .ok [([1], contentRoot .initial 7)] := by
  unfold encodedRoots
  rw [show ((∅ : Roots UInt8).insert 1 (contentRoot .initial 7)).toList =
    [(1, contentRoot .initial 7)] from rfl, map_singleton, mergeSort_singleton]
  rfl

end Astrid
