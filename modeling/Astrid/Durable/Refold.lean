import Astrid.Durable.Recover

/-!
# Folding a WAL twice

A checkpoint appends the journal frames of the WAL's transactions and then empties
the WAL. After a crash in between, recovery replays the complete WAL over a journal
that already holds the first `k` of these frames. Replay accepts a transition whose
outcome is already the root, but not one that a later frame has overtaken: the
recovery succeeds exactly if the first `k` transactions are of different principals.
-/

namespace Astrid

open Std List

variable {P : Type} [Key P] {env : WalEnv P}

/-! ## Runs of publications -/

/-- The publications between two states of a live engine. -/
inductive Publishes (env : WalEnv P) : LiveEngine P → List (Recorded P) → LiveEngine P → Prop
  | nil (e : LiveEngine P) : Publishes env e [] e
  | cons {e e' e'' : LiveEngine P} {r : Recorded P} {rs : List (Recorded P)}
      (head : Published env e e' r) (tail : Publishes env e' rs e'') :
      Publishes env e (r :: rs) e''

/-- The transactions a live engine accepts are publications. -/
theorem publishAll_ok (hlz4 : Lz4RoundTrip env) :
    ∀ {transactions : List (RootTransaction P)} {e e' : LiveEngine P}, Live env e →
      e.publishAll env transactions = .ok e' →
      ∃ rs, Publishes env e rs e' ∧ Live env e' ∧
        rs.map (fun r => r.root.principal) = transactions.map RootTransaction.principal := by
  intro transactions
  induction transactions with
  | nil =>
    intro e e' h hpublish
    cases hpublish
    exact ⟨[], .nil e, h, rfl⟩
  | cons _ _ ih =>
    intro e e'' h hpublish
    simp only [LiveEngine.publishAll, bind_eq_ok] at hpublish
    obtain ⟨_, hfirst, hrest⟩ := hpublish
    obtain ⟨r, hr, h', hprincipal⟩ := publish_ok hlz4 h hfirst
    obtain ⟨rs, hrs, h'', hprincipals⟩ := ih h' hrest
    refine ⟨r :: rs, .cons hr hrs, h'', ?_⟩
    rw [map_cons, map_cons, hprincipal, hprincipals]

namespace Publishes

variable {e e' : LiveEngine P} {rs : List (Recorded P)}

/-- Nothing stored is lost. -/
theorem visible_mono (h : Publishes env e rs e') :
    ∀ id record, e.visible id = some record → e'.visible id = some record := by
  induction h with
  | nil => exact fun _ _ hrecord => hrecord
  | cons head _ ih => exact fun id record hrecord => ih _ _ ((head.visible _ _).2 (.inl hrecord))

/-- The WAL only grows. -/
theorem wal_grows (h : Publishes env e rs e') :
    (∃ more, e'.wal.writer.sink = e.wal.writer.sink ++ more) ∧
      ∃ events, e'.wal.events = e.wal.events ++ events := by
  induction h with
  | nil => exact ⟨⟨[], by simp⟩, ⟨[], by simp⟩⟩
  | cons head _ ih =>
    obtain ⟨⟨more, hmore⟩, events, hevents⟩ := ih
    obtain ⟨first, hfirst⟩ := head.written.sink
    obtain ⟨_, _, _, _, _, _, _, _, hfirstEvents⟩ := head.written.events
    refine ⟨⟨first ++ more, ?_⟩, ?_⟩
    · rw [hmore, hfirst, append_assoc]
    · rw [hevents, hfirstEvents, append_assoc]
      exact ⟨_, rfl⟩

theorem pendingRoots_eq (h : Publishes env e rs e') :
    e'.pendingRoots = e.pendingRoots ++ rs.map Recorded.root := by
  induction h with
  | nil => simp
  | cons head _ ih => rw [ih, head.pendingRoots, append_assoc, map_cons, singleton_append]

theorem split {rs' : List (Recorded P)} (h : Publishes env e (rs ++ rs') e') :
    ∃ middle, Publishes env e rs middle ∧ Publishes env middle rs' e' := by
  induction rs generalizing e with
  | nil => exact ⟨e, .nil e, h⟩
  | cons _ _ ih =>
    cases h with
    | cons head tail =>
      obtain ⟨middle, hfirst, hsecond⟩ := ih tail
      exact ⟨middle, .cons head hfirst, hsecond⟩

end Publishes

/-! ## Generations -/

/-- Generations rise along the roots of a principal, from no root on. -/
def rootRank : Option (RootState Digest) → Nat
  | none => 0
  | some root => root.generation.toNat + 1

theorem rootRank_lt {expected : Option (RootState Digest)} {replacement : RootState Digest}
    (h : rootGenerationValid expected replacement = true) :
    rootRank expected < rootRank (some replacement) := by
  cases expected with
  | none => exact Nat.succ_pos _
  | some root =>
    have hnext : root.generation.checkedNext = some replacement.generation := of_decide_eq_true h
    have hgeneration := RootGeneration.checkedNext_toNat hnext
    show root.generation.toNat + 1 < replacement.generation.toNat + 1
    omega

/-- The roots of a live engine. -/
def LiveEngine.roots (e : LiveEngine P) (principal : P) : Option (RootState Digest) :=
  e.rootsByPrincipal[principal]?

variable {e e' : LiveEngine P}

theorem Published.roots_eq {r : Recorded P} (h : Published env e e' r) :
    e'.roots = r.swap.install e.roots := by
  funext principal
  unfold LiveEngine.roots
  rw [h.roots, getElem?_insert_of]
  split_ifs with hkey
  · rw [← hkey]
    exact (Swap.install_self r.swap _).symm
  · rw [Swap.install_of_ne (Ne.symm hkey)]

variable {rs : List (Recorded P)}

/-- The root swaps of a run follow on one another. -/
theorem Publishes.chained (h : Publishes env e rs e') :
    Swap.Chained rootRank e.roots (rs.map Recorded.swap) := by
  induction h with
  | nil => trivial
  | @cons _ _ _ _ _ head _ ih =>
    refine ⟨head.expected, rootRank_lt head.generation, ?_⟩
    rw [← head.roots_eq]
    exact ih

/-! ## Opening -/

/-- An opened engine has the roots of its journal, an empty WAL and complete closures. -/
theorem openStore_ok {arena : FMap Digest (ObjectRecord Digest)} {journal : List Bytes}
    (h : LiveEngine.openStore env arena journal = .ok e) :
    ∃ history, recoverRootHistory env journal = .ok history ∧ e.roots = rootsOf history ∧
      (∀ id, e.visible id = arena[id]?) ∧ e.pendingRoots = [] ∧ e.wal = .new ∧ Live env e := by
  simp only [LiveEngine.openStore, bind_eq_ok] at h
  obtain ⟨history, hhistory, validated, hvalidated, hout⟩ := h
  cases hout
  have hvisible : ∀ id, (⟨arena, journal, history.map fun _ entry => entry.1, validated, ∅, [],
      .new⟩ : LiveEngine P).visible id = arena[id]? := by
    intro id
    rfl
  refine ⟨history, hhistory, ?_, hvisible, rfl, rfl, follows_new, rfl, ?_⟩
  · funext principal
    exact ExtTreeMap.getElem?_map
  · intro id hid
    exact (materializeRoots_validated hvalidated).1 id hid

/-! ## Journals -/

/-- The frames of a run, applied to a journal's roots. -/
theorem Publishes.applyJournal_ok (hcodec : CodecRoundTrip env) (h : Publishes env e rs e') :
    ∀ (offset : Nat) (history : RootHistory P), rootsOf history = e.roots →
      ∃ history', applyJournal env (rs.map fun r => r.root.journal) offset history = .ok history' ∧
        rootsOf history' = Swap.installAll (rs.map Recorded.swap) e.roots := by
  induction h with
  | nil => exact fun offset history hroots => ⟨history, rfl, hroots⟩
  | @cons _ e' _ r _ head _ ih =>
    intro offset history hroots
    have hcontinues : Continues history r.root.principal r.root.expected r.root.replacement :=
      ⟨(congrFun hroots _).trans head.expected, head.generation⟩
    have hfirst := applyJournal_transition hcodec head.journal_fits head.journal hcontinues offset
    have hnext : rootsOf (history.insert r.root.principal (r.root.replacement, offset)) =
        e'.roots := by
      rw [head.roots_eq, ← hroots]
      exact rootsOf_insert history r.swap offset
    obtain ⟨history', hrest, hroots'⟩ := ih (offset + journalLength [r.root.journal]) _ hnext
    refine ⟨history', ?_, ?_⟩
    · rw [map_cons, ← singleton_append, applyJournal_append, hfirst]
      exact hrest
    · rw [hroots', head.roots_eq]
      rfl

/-! ## Replaying a run -/

/-- Replaying the transactions of a run redoes their root swaps. -/
theorem Publishes.replayEvents_redo (hcodec : CodecRoundTrip env) (h : Publishes env e rs e')
    (start : Option PendingBuilding × CanonicalStore P) :
    ∀ store : CanonicalStore P, Covering e e' store.arena →
      replayEvents env e'.wal.writer.sink e.wal.events start = .ok (none, store) →
      match Swap.redoAll (rs.map Recorded.swap) (rootsOf store.history) with
      | some roots => ∃ store',
          replayEvents env e'.wal.writer.sink e'.wal.events start = .ok (none, store') ∧
            rootsOf store'.history = roots
      | none => ∃ expected actual, replayEvents env e'.wal.writer.sink e'.wal.events start =
            .error (.model (.rootConflict expected actual)) := by
  induction h with
  | nil => exact fun store _ hstore => ⟨store, hstore, rfl⟩
  | @cons _ e' e'' r rs head tail ih =>
    intro store hs hstore
    obtain ⟨⟨more, hmore⟩, events, hevents⟩ := tail.wal_grows
    have hredo := replayTransaction_redo hcodec head tail.visible_mono more hs
    rw [← hmore] at hredo
    have hfirst : replayEvents env e''.wal.writer.sink e'.wal.events start =
        replayTransaction env e''.wal.writer.sink r.pending store >>= fun next =>
          .ok (none, next) := by
      rw [head.written.replayEvents_eq, hstore]
      rfl
    have hrest : Swap.redoAll ((r :: rs).map Recorded.swap) (rootsOf store.history) =
        r.swap.redo (rootsOf store.history) >>= Swap.redoAll (rs.map Recorded.swap) := rfl
    rw [hrest]
    cases hroots : r.swap.redo (rootsOf store.history) with
    | none =>
      -- A conflict ends the recovery; later events are not looked at.
      rw [hroots] at hredo
      obtain ⟨expected, actual, hconflict⟩ := hredo
      refine ⟨expected, actual, ?_⟩
      rw [hevents, replayEvents_append, hfirst, hconflict]
      rfl
    | some =>
      rw [hroots] at hredo
      obtain ⟨next, hnext, hnextRoots, hcovering⟩ := hredo
      rw [hnext] at hfirst
      rw [← hnextRoots]
      exact ih next hcovering hfirst

/-! ## Reopening -/

/-- The root of a principal after published transitions: that of its last one. -/
def lastPublished (before : FMap P (RootState Digest)) (published : List (PendingWalRoot P))
    (principal : P) : Option (RootState Digest) :=
  match published.reverse.find? (fun root => decide (root.principal = principal)) with
  | some root => some root.replacement
  | none => before[principal]?

theorem lastPublished_eq (e : LiveEngine P) (rs : List (Recorded P)) (principal : P) :
    lastPublished e.rootsByPrincipal (rs.map Recorded.root) principal =
      Swap.installAll (rs.map Recorded.swap) e.roots principal := by
  rw [Swap.installAll_eq_find]
  unfold lastPublished
  rw [← map_reverse, ← map_reverse, find?_map, find?_map]
  have hsame : (fun swap : Swap P (RootState Digest) => decide (swap.key = principal)) ∘
      Recorded.swap = (fun root => decide (root.principal = principal)) ∘ Recorded.root := rfl
  rw [hsame]
  cases find? _ rs.reverse <;> rfl

/-- Reopening succeeds, with the last published root of every principal. -/
def Reopens (env : WalEnv P) (wal : Bytes) (arena : FMap Digest (ObjectRecord Digest))
    (journal : List Bytes) (before : FMap P (RootState Digest))
    (published : List (PendingWalRoot P)) : Prop :=
  ∃ store scanner, replayTransactionWal env wal arena journal = .ok (store, scanner) ∧
    ∀ principal, (store.history[principal]?).map Prod.fst = lastPublished before published principal

/-- Reopening over the first `k` folded frames and the complete WAL works exactly if
these `k` frames are of different principals. -/
theorem refold_reopens_iff (hlz4 : Lz4RoundTrip env) (hcodec : CodecRoundTrip env)
    {arena arena' : FMap Digest (ObjectRecord Digest)} {journal : List Bytes}
    {opened e : LiveEngine P} {transactions : List (RootTransaction P)} {k : Nat}
    (hopen : LiveEngine.openStore env arena journal = .ok opened)
    (hpublish : opened.publishAll env transactions = .ok e)
    (hkept : ∀ (id : Digest) record, arena[id]? = some record → arena'[id]? = some record)
    (hfolded : ∀ (id : Digest) record, arena'[id]? = some record → e.visible id = some record) :
    Reopens env e.wal.writer.sink arena'
        (journal ++ (e.pendingRoots.take k).map PendingWalRoot.journal)
        opened.rootsByPrincipal e.pendingRoots ↔
      ((transactions.take k).map RootTransaction.principal).Nodup := by
  obtain ⟨history, hhistory, hroots, hvisible, hnoRoots, hnew, hlive⟩ := openStore_ok hopen
  obtain ⟨rs, hrs, hlive', hprincipals⟩ := publishAll_ok hlz4 hlive hpublish
  have hpending : e.pendingRoots = rs.map Recorded.root := by
    rw [hrs.pendingRoots_eq, hnoRoots, nil_append]
  have hchained := hrs.chained
  have hall := hrs
  rw [← take_append_drop k rs] at hchained hall
  rw [map_append] at hchained
  obtain ⟨_, hdone, _⟩ := hall.split
  -- The surviving frames bring the journal's roots to those after `k` transactions.
  obtain ⟨history', happly, hroots'⟩ :=
    hdone.applyJournal_ok hcodec (0 + journalLength journal) history hroots.symm
  have hframes : (e.pendingRoots.take k).map PendingWalRoot.journal =
      (rs.take k).map fun r => r.root.journal := by
    rw [hpending, ← map_take, map_map]
    rfl
  have hrecover : recoverRootHistory env
      (journal ++ (e.pendingRoots.take k).map PendingWalRoot.journal) = .ok history' := by
    unfold recoverRootHistory at hhistory ⊢
    rw [hframes, applyJournal_append, hhistory, ok_bind, happly]
  have hcovering : Covering opened e arena' := by
    refine ⟨fun id record hrecord => hkept id record ?_, hfolded⟩
    rw [← hvisible]
    exact hrecord
  have hnodup : ((rs.take k).map Recorded.swap).map Swap.key =
      (transactions.take k).map RootTransaction.principal := by
    rw [map_map, map_take, map_take, ← hprincipals]
    rfl
  have hredo := hrs.replayEvents_redo hcodec
    (none, ⟨arena', journal ++ (e.pendingRoots.take k).map PendingWalRoot.journal, ∅, history'⟩)
    _ hcovering (by rw [hnew]; rfl)
  rw [hroots', ← take_append_drop k rs, map_append, take_append_drop,
    hchained.redoAll_part, hnodup] at hredo
  unfold Reopens replayTransactionWal
  rw [hrecover, ok_bind, recoverWal_follows hlive'.follows hlive'.inactive]
  split_ifs at hredo with hdistinct
  · obtain ⟨store, hstore, hstoreRoots⟩ := hredo
    refine iff_of_true ⟨store, ⟨e.wal.writer.sink.length, e.wal.writer.lastSequence, none, true,
      some e.wal.writer.sink.length⟩, ?_, ?_⟩ hdistinct
    · rw [hstore]
      rfl
    · intro principal
      rw [hpending, lastPublished_eq, ← take_append_drop k rs, map_append]
      exact congrFun hstoreRoots principal
  · obtain ⟨_, _, hconflict⟩ := hredo
    refine iff_of_false ?_ hdistinct
    rintro ⟨store, scanner, hreopened, _⟩
    rw [hconflict] at hreopened
    cases hreopened

/-! ## Two commits of one principal -/

/-- An instance in which the first content bytes identify an object. -/
def WalEnv.byContent : WalEnv UInt8 :=
  { WalEnv.plain with
    identify := fun record => ⟨(record.canonicalBytes ++ List.replicate 32 0).take 32, by simp⟩ }

def contentCommit (content : UInt8) : ObjectRecord Digest where
  kind := .commit
  formatVersion := .v1
  canonicalBytes := [content]
  references := []
  logicalBytes := 1
  cls := .metadata
  labels := labelsIncrease_nil

/-- Publish the commit with the given content. -/
def contentTransaction (principal content : UInt8) (expected : Option (RootState Digest)) :
    RootTransaction UInt8 :=
  ⟨principal, expected, WalEnv.byContent.identify (contentCommit content),
    [(WalEnv.byContent.identify (contentCommit content), contentCommit content)]⟩

def contentRoot (generation : RootGeneration) (content : UInt8) : RootState Digest :=
  ⟨generation, WalEnv.byContent.identify (contentCommit content)⟩

/-- The engine after transactions over an empty store. -/
def publishedFrom (transactions : List (RootTransaction UInt8)) :
    Except DurableError (LiveEngine UInt8) := do
  let opened ← LiveEngine.openStore .byContent ∅ []
  opened.publishAll .byContent transactions

/-- The arena once a checkpoint has folded every object of the overlay. -/
def LiveEngine.foldedArena (e : LiveEngine P) : FMap Digest (ObjectRecord Digest) :=
  e.arena ∪ e.pendingObjects.map fun _ object => object.2

theorem LiveEngine.foldedArena_getElem? (e : LiveEngine P) (id : Digest) :
    e.foldedArena[id]? = e.visible id := by
  unfold foldedArena visible
  rw [ExtTreeMap.getElem?_union, ExtTreeMap.getElem?_map]

/-- Commits of two principals, all folded before the crash, are recovered. -/
theorem refold_reopens_iff_two_principals :
    ∃ opened e, LiveEngine.openStore .byContent ∅ [] = .ok opened ∧
      opened.publishAll .byContent [contentTransaction 1 7 none, contentTransaction 2 8 none] =
        .ok e ∧
      Reopens .byContent e.wal.writer.sink e.foldedArena
        ([] ++ (e.pendingRoots.take 2).map PendingWalRoot.journal) opened.rootsByPrincipal
        e.pendingRoots := by
  have hrun : (publishedFrom [contentTransaction 1 7 none, contentTransaction 2 8 none]).map
      (fun _ => ()) = .ok () := by
    decide +kernel
  cases hpublished :
      publishedFrom [contentTransaction 1 7 none, contentTransaction 2 8 none] with
  | error =>
    rw [hpublished] at hrun
    cases hrun
  | ok e =>
    simp only [publishedFrom, bind_eq_ok] at hpublished
    obtain ⟨opened, hopen, hpublish⟩ := hpublished
    refine ⟨opened, e, hopen, hpublish, ?_⟩
    refine (refold_reopens_iff (fun _ => rfl) (fun _ => rfl) hopen hpublish ?_ ?_).2 ?_
    · intro id record hrecord
      rw [ExtTreeMap.getElem?_empty] at hrecord
      cases hrecord
    · intro id record hrecord
      rw [← LiveEngine.foldedArena_getElem?]
      exact hrecord
    · decide

/-- Two commits of one principal, all folded before the crash: the store does not open
again. -/
theorem refold_root_conflict :
    ∃ opened e, LiveEngine.openStore .byContent ∅ [] = .ok opened ∧ opened.publishAll .byContent
        [contentTransaction 1 7 none, contentTransaction 1 8 (some (contentRoot 0 7))] = .ok e ∧
      replayTransactionWal .byContent e.wal.writer.sink e.foldedArena
        (e.pendingRoots.map PendingWalRoot.journal) =
          .error (.model (.rootConflict none (some (contentRoot 1 8)))) := by
  have hrun : (publishedFrom
      [contentTransaction 1 7 none, contentTransaction 1 8 (some (contentRoot 0 7))]).map
        (fun e => (replayTransactionWal .byContent e.wal.writer.sink e.foldedArena
          (e.pendingRoots.map PendingWalRoot.journal)).map fun _ => ()) =
      .ok (.error (.model (.rootConflict none (some (contentRoot 1 8))))) := by
    decide +kernel
  cases hpublished : publishedFrom
      [contentTransaction 1 7 none, contentTransaction 1 8 (some (contentRoot 0 7))] with
  | error =>
    rw [hpublished] at hrun
    cases hrun
  | ok e =>
    rw [hpublished] at hrun
    simp only [publishedFrom, bind_eq_ok] at hpublished
    obtain ⟨opened, hopen, hpublish⟩ := hpublished
    refine ⟨opened, e, hopen, hpublish, ?_⟩
    have hreplay := Except.ok.inj hrun
    dsimp only at hreplay
    cases hresult : replayTransactionWal .byContent e.wal.writer.sink e.foldedArena
        (e.pendingRoots.map PendingWalRoot.journal) with
    | ok =>
      rw [hresult] at hreplay
      cases hreplay
    | error =>
      rw [hresult] at hreplay
      injection hreplay with herr
      rw [herr]

end Astrid
