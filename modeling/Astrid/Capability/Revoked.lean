import Astrid.Capability.Persist
import Astrid.Capability.Effects

/-!
# Is revocation final?

`revoke` stores the id, remembers it and takes the token out of all sessions; a lookup by id
and the lookup among persistent tokens consult the revoked ids. `add` does not, and neither
does the lookup among session tokens. So a revoked token that is added to a session again, or
whose addition was under way, is found and authorizes. As long as no step puts the token back
into a session, revocation is final, across restarts too.
-/

namespace Astrid.Capability

open Std Calls List ExtTreeMap

variable {globs : Globset}

/-- Whether a call has succeeded with a token of this id. -/
def Answer.Gives (id : TokenId) : Answer globs → Prop
  | .got (.ok (some token)) => token.id = id
  | .found (some token) => token.id = id
  | .used (.ok token) => token.id = id
  | .authorized (some token) => token.id = id
  | _ => False

/-- A step that, once the id is revoked, puts no token with it into a session. -/
def KeepsOut (id : TokenId) (s s' : StoreState globs) : Prop :=
  id ∈ s.revoked → NoSession id s → NoSession id s'

theorem admissible_keepsOut (id : TokenId) :
    Admissible (KeepsOut id : StoreState globs → StoreState globs → Prop) where
  refl _ _ h := h
  trans hrevoked h h' hid hnone := h' (hrevoked id hid) (h hid hnone)
  ticks h _ hnone := by
    obtain ⟨_, rfl⟩ := h
    exact hnone

/-- The id is revoked, in memory and storage, and no session has the token. -/
structure Revoked (id : TokenId) (s : StoreState globs) : Prop where
  memory : id ∈ s.revoked
  kv : s.kv.isSome = true → KvRevoked s id
  session : NoSession id s

section Run

variable {origin : Origin globs} {id : TokenId} {s s' : StoreState globs}

theorem Revoked.grows (h : Revoked id s) (hs : Grows origin (KeepsOut id) s s') :
    Revoked id s' where
  memory := hs.revoked id h.memory
  kv hkv := by
    rw [hs.kv] at hkv
    exact hs.kvRevoked id (h.kv hkv)
  session := hs.extra h.memory h.session

theorem noSession_empty (h : s.session = ∅) : NoSession id s := by
  intro principal tokens htokens
  rw [h, getElem?_empty] at htokens
  cases htokens

theorem Revoked.restart (h : Revoked id s) (hs : Restarts s s') : Revoked id s' := by
  obtain ⟨kv, hkv, rfl⟩ := hs
  obtain ⟨_, hkv', hid⟩ := h.kv (by rw [hkv]; rfl)
  rw [hkv] at hkv'
  cases hkv'
  exact ⟨hid, fun _ => ⟨kv, rfl, hid⟩, noSession_empty rfl⟩

theorem RevokedSince.revoked (h : RevokedSince origin (KeepsOut id) id s) : Revoked id s := by
  obtain ⟨_, hgrows, hid, hnone⟩ := h.session
  exact ⟨h.memory, h.kv, hgrows.extra hid hnone⟩

/-- What a lookup by capability finds is not the revoked token. -/
theorem Found.ne_revoked {principal : PrincipalId} {resource : Text} {permission : Permission}
    {token : CapabilityToken globs} (hrevoked : Revoked id s)
    (h : Found origin (KeepsOut id) s principal resource permission token) : token.id ≠ id := by
  intro hid
  rcases h.listed with hnot | ⟨_, hs', hheld⟩
  · rw [hid] at hnot
    exact hnot hrevoked.memory
  · rw [hid] at hheld
    exact hheld (hrevoked.grows hs').session

theorem Outcomes.not_gives {n : Nat} {op : Op globs} {a : Answer globs} (hrevoked : Revoked id s)
    (h : Outcomes origin (KeepsOut id) n s op a s') : ¬ a.Gives id := by
  intro hgives
  cases a with
  | done | removed => exact hgives
  | got result =>
    cases result with
    | error => exact hgives
    | ok found =>
      cases found with
      | none => exact hgives
      | some token =>
        cases op with
        | get =>
          obtain ⟨hid, hnot⟩ := h.2 token rfl
          rw [← hid, show token.id = id from hgives] at hnot
          exact hnot hrevoked.memory
        | _ => exact h
  | found result =>
    cases result with
    | none => exact hgives
    | some token =>
      cases op with
      | findCapability | hasCapability =>
        exact (h.2 token rfl).1.ne_revoked hrevoked hgives
      | _ => exact h
  | used result =>
    cases result with
    | error => exact hgives
    | ok token =>
      cases op with
      | useToken =>
        obtain ⟨_, hid, hnot, _⟩ := h
        rw [← hid, show token.id = id from hgives] at hnot
        exact hnot hrevoked.memory
      | _ => exact h
  | authorized result =>
    cases result with
    | none => exact hgives
    | some token =>
      cases op with
      | check =>
        exact (h.2 token rfl).1.ne_revoked hrevoked hgives
      | _ => exact h

/-! ## Runs -/

/-- A revocation that succeeded is complete, and stays so. -/
theorem sound_revoked (verify : Verify) :
    Sound (store verify (KeepsOut id)) (Relied origin (KeepsOut id)) (StoreInv origin)
      (Unstarted origin) fun _ op a s =>
        op = .revoke id → a = .done (.ok ()) → Revoked id s := by
  refine sound (admissible_keepsOut id) (fun h => h) (fun hs h => hs.inv h)
    (fun hs h => h.restart hs)
    ?_ ?_ ?_
  · exact fun n op a s s' hs h hop ha => (h hop ha).grows hs.grows
  · exact fun n op a s s' hs _ h hop ha => (h hop ha).restart hs
  · intro n op a s s' _ _ houtcome hop ha
    subst hop ha
    exact (houtcome.2 rfl).revoked

/-- From then on no call that is made gives the token. -/
theorem sound_final (verify : Verify) :
    Sound (store verify (KeepsOut id)) (Relied origin (KeepsOut id))
      (fun s => StoreInv origin s ∧ Revoked id s) (Unstarted origin) fun _ _ a _ =>
        ¬ a.Gives id := by
  refine sound (admissible_keepsOut id) (fun h => h.1) (fun hs h => ⟨hs.inv h.1, h.2.grows hs⟩)
    (fun hs h => ⟨h.1.restart hs, h.2.restart hs⟩) ?_ ?_ ?_
  · exact fun n op a s s' _ h => h
  · exact fun n op a s s' _ _ h => h
  · exact fun n op a s s' hJ _ houtcome => houtcome.not_gives hJ.2

/-- In every run, from any stored tokens, that puts no revoked token back into a session: once
`revoke` has returned success, no later call succeeds with the token. -/
theorem revocation_final (verify : Verify) (id : TokenId) {kv : Option Kv}
    (hkv : ∀ kv', kv = some kv' → WellKeyed kv') (now : Int)
    {before after : List (Event (Op globs) (Answer globs))}
    {sys : System (StoreState globs) (Op globs) (Answer globs)} {n : Nat}
    (h : Run (store verify (KeepsOut id)) ⟨opened globs kv now, fun _ => none, 0⟩
      (before ++ .returned n (.revoke id) (.done (.ok ())) :: after) sys)
    {m : Nat} {op : Op globs} {a : Answer globs} (hcalled : .called m op ∈ after)
    (hreturned : .returned m op a ∈ after) : ¬ a.Gives id := by
  obtain ⟨ops, hops, _⟩ := h.exists_ops .clearSession
  obtain ⟨_, hfront, hback⟩ := h.split rfl
  have hnumbered : System.Numbered (⟨opened globs kv now, fun _ => none, 0⟩ :
      System (StoreState globs) (Op globs) (Answer globs)) := numbered_none
  have hunstarted : ∀ k op', ops k = op' →
      Unstarted ⟨(kv.map Kv.used).getD ∅, ops⟩ k op' (opened globs kv now) :=
    fun k op' hop' => ⟨hop', fun id hid => by cases hid⟩
  have hfrontCalled : ∀ k op', .called k op' ∈ before ++
    [.returned n (.revoke id) (.done (.ok ()))] →
      ops k = op' := by
    intro k op' hk
    rcases mem_append.1 hk with hold | hnew
    · exact hops k op' (mem_append_left _ hold)
    · cases mem_singleton.1 hnew
  have hbackCalled : ∀ k op', .called k op' ∈ after → ops k = op' := fun k op' hk =>
    hops k op' (mem_append_right _ (mem_cons_of_mem _ hk))
  obtain ⟨hinv, hlater, hflight, hresults⟩ := hfront.returned (sound_revoked verify) hnumbered
    (storeInv_opened hkv now ops) (fun k op' hk => hunstarted k op' (hfrontCalled k op' hk))
    inFlight_none
  obtain ⟨hrevoked, _⟩ := hresults n (.revoke id) (.done (.ok ())) (Nat.zero_le _)
    (mem_append_right _ (mem_singleton_self _))
  obtain ⟨_, _, _, hfinal⟩ := hback.returned (sound_final verify) (hfront.numbered hnumbered)
    ⟨hinv, hrevoked rfl rfl⟩
    (fun k op' hk => hlater k op' (hback.called_fresh hk) (hunstarted k op' (hbackCalled k op' hk)))
    (hflight.mono fun _ _ _ _ _ => trivial)
  exact (hfinal m op a (hback.called_fresh hcalled) hreturned).1

end Run

/-! ## A token, revoked and added again -/

/-- Signatures where every message is its own signature. -/
def selfSigned : Verify := fun _ message signature => signature == message

def notePattern : ResourcePattern starGlobs where
  pattern := ['n', 'o', 't', 'e']
  isGlob := false
  no_traversal := by decide
  compiles h := by cases h

def alice : PrincipalId := ⟨['a', 'l', 'i', 'c', 'e'], by decide⟩

def noteFields (scope : TokenScope) (singleUse : Bool) : TokenFields :=
  ⟨7, [.read], 0, none, scope, [], [], 0, singleUse, alice, []⟩

/-- A signed token to read a note. -/
def noteToken (scope : TokenScope) (singleUse : Bool) : CapabilityToken starGlobs :=
  ⟨{ noteFields scope singleUse with
      signature := signingData (noteFields scope singleUse) notePattern.pattern }, notePattern⟩

def emptyKv : Kv := ⟨∅, ∅, ∅, ∅, ∅⟩

theorem wellKeyed_emptyKv : WellKeyed emptyKv := by
  refine ⟨fun principal id stored hstored => ?_, fun id stored hstored => ?_⟩
  · rw [show emptyKv.tokens = ∅ from rfl, getElem?_empty] at hstored
    cases hstored
  · rw [show emptyKv.legacy = ∅ from rfl, getElem?_empty] at hstored
    cases hstored

def readNote : Op starGlobs := .findCapability alice notePattern.pattern .read

/-- A persistent token that is revoked and added again is not found. -/
theorem revocation_final_persistent :
    (∃ sys, Run (store selfSigned (KeepsOut 7)) ⟨opened starGlobs (some emptyKv) 0, fun _ => none,
      0⟩
      ([.called 0 (.revoke 7)] ++ .returned 0 (.revoke 7) (.done (.ok ())) ::
        [.called 1 (.add (noteToken .persistent false)),
          .returned 1 (.add (noteToken .persistent false)) (.done (.ok ())),
          .called 2 readNote, .returned 2 readNote (.found none)]) sys) ∧
      ¬ Answer.Gives 7 (.found none : Answer starGlobs) := by
  have hallowed : ∀ s s' : StoreState starGlobs, s'.session.isEmpty = true → KeepsOut 7 s s' :=
    fun s s' hempty _ _ => noSession_empty (isEmpty_iff.1 hempty)
  rw [← exists_and_right]
  refine Run.exists_of_events (fun s => s.session.isEmpty) hallowed
    [(.revoke 7, [1, 1, 1, 1]), (.add (noteToken .persistent false), [1, 1]),
      (readNote, [0, 1, 1])] rfl fun sys hrun => ?_
  refine revocation_final selfSigned 7 ?_ 0 hrun
    (mem_cons_of_mem _ (mem_cons_of_mem _ mem_cons_self))
    (mem_cons_of_mem _ (mem_cons_of_mem _
      (mem_cons_of_mem _ mem_cons_self)))
  intro kv hkv
  cases hkv
  exact wellKeyed_emptyKv

/-- A session token that is revoked and added again is found. -/
theorem revoked_found_again :
    (∃ sys, Run (store selfSigned fun _ _ => True) ⟨opened starGlobs none 0, fun _ => none, 0⟩
      ([.called 0 (.revoke 7)] ++ .returned 0 (.revoke 7) (.done (.ok ())) ::
        [.called 1 (.add (noteToken .session false)),
          .returned 1 (.add (noteToken .session false)) (.done (.ok ())),
          .called 2 readNote, .returned 2 readNote (.found (some (noteToken .session false)))])
      sys) ∧ Answer.Gives 7 (.found (some (noteToken .session false))) := by
  rw [← exists_and_right]
  exact Run.exists_of_events (fun _ => true) (fun _ _ _ => trivial)
    [(.revoke 7, []), (.add (noteToken .session false), []), (readNote, [])] rfl fun _ _ => rfl

end Astrid.Capability
