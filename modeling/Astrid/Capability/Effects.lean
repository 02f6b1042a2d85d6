import Astrid.Capability.Results

/-!
# What calls change in the capability store

Removal and retirement keep the guarantee. A revocation that succeeds has stored the id,
remembered it and taken the token out of all sessions, in this order. A use that succeeds is
in the log under the number of its call, and a use that fails is not, even if the key-value store
has taken it: `mark_used` holds the lock of the used ids from the check to the end, so no other
call uses an id meanwhile.
`program_valid` puts all calls together.
-/

namespace Astrid.Capability

open Std Calls List ExtTreeMap Option

section Effects

variable {globs : Globset} {origin : Origin globs}
  {E : StoreState globs → StoreState globs → Prop} {verify : Verify} {n : Nat}
  {start : StoreState globs}

/-! ## Removal and retirement -/

theorem deleteRows_ensures (hE : Admissible E) (id : TokenId) :
    Ensures origin E verify n start (deleteRows id) fun _ => True := by
  refine .bind hE (.kvGet_true hE _) fun owner _ => ?_
  have hrows : Ensures origin E verify n start
      (do
        tryPut fun kv => { kv with index := kv.index.erase id }
        tryPut fun kv => { kv with legacy := kv.legacy.erase id }) fun _ => True :=
    .bind hE (.tryPut hE (kvKeeps_index fun index => index.erase id)) fun _ _ =>
      .tryPut hE (kvKeeps_eraseLegacy id)
  split
  next principal => exact .bind hE (.tryPut hE (kvKeeps_erase (principal, id))) fun _ _ => hrows
  next => exact hrows

theorem getElem?_dropSession (id : TokenId)
    (session : FMap PrincipalId (FMap TokenId (CapabilityToken globs))) (principal : PrincipalId)
    {tokens : FMap TokenId (CapabilityToken globs)}
    (h : (dropSession id session)[principal]? = some tokens) :
    ∃ held, session[principal]? = some held ∧ tokens = held.erase id := by
  unfold dropSession at h
  rw [ExtTreeMap.getElem?_filter, ExtTreeMap.getElem?_map] at h
  obtain ⟨hmapped, _⟩ := Option.pfilter_eq_some_iff.1 h
  obtain ⟨held, hheld, rfl⟩ := map_eq_some_iff.1 hmapped
  exact ⟨held, hheld, rfl⟩

theorem dropSession_ids (hinv : StoreInv origin start) (id : TokenId) (principal : PrincipalId)
    (tokens : FMap TokenId (CapabilityToken globs)) (id' : TokenId)
    (token : CapabilityToken globs)
    (htokens : (dropSession id start.session)[principal]? = some tokens)
    (htoken : tokens[id']? = some token) : token.id = id' := by
  obtain ⟨_, hheld, rfl⟩ := getElem?_dropSession id _ principal htokens
  exact hinv.session _ _ _ _ hheld (getElem?_of_erase htoken)

section

variable (hE : Admissible E)

include hE

theorem clearSession_ensures :
    Ensures origin E verify n start (clearSession : Call globs _) fun _ => True := by
  have hclear : Ensures origin E verify n start
      (.modify fun s : StoreState globs => { s with session := ∅ }) fun _ => True := by
    refine .modify hE (fun s _ hextra => grows_session ?_ hextra) (fun _ => rfl) (fun _ => rfl)
      fun _ => rfl
    intro _ principal tokens id token htokens _
    cases htokens
  exact .bind hE hclear fun _ _ => .pure hE trivial

variable (principal : PrincipalId)

theorem clearSessionFor_ensures :
    Ensures origin E verify n start (clearSessionFor principal : Call globs _)
      fun _ => True := by
  have hclear : Ensures origin E verify n start
      (.modify fun s : StoreState globs => { s with session := s.session.erase principal })
      fun _ => True := by
    refine .modify hE (fun s _ hextra => grows_session ?_ hextra) (fun _ => rfl) (fun _ => rfl)
      fun _ => rfl
    intro hinv other tokens id token htokens htoken
    exact hinv.session _ _ _ _ (getElem?_of_erase htokens) htoken
  exact .bind hE hclear fun _ _ => .pure hE trivial

theorem ownedIds_ensures (ids : List TokenId) :
    Ensures origin E verify n start (ownedIds principal ids) fun _ => True := by
  induction ids with
  | nil => exact .pure hE trivial
  | cons _ _ ih =>
    refine .andThen hE (.kvGet_true hE _) (fun owner _ => ?_) fun _ _ => trivial
    exact .andThen hE ih (fun _ _ => .pure hE trivial) fun _ _ => trivial

theorem deleteAll_ensures {κ : Type} {delete : κ → Kv → Kv} (hdelete : ∀ key, KvKeeps (delete key))
    (keys : List κ) : Ensures origin E verify n start (deleteAll delete keys) fun _ => True := by
  induction keys with
  | nil => exact .pure hE trivial
  | cons key _ ih =>
    exact .bind hE (.kvPut hE (hdelete key)) fun _ _ => .bind hE ih fun _ _ => .pure hE trivial

theorem purgePrincipal_ensures :
    Ensures origin E verify n start (purgePrincipal principal) fun _ => True := by
  refine .andThen hE (clearSessionFor_ensures hE principal) (fun _ _ => ?_) fun _ _ => trivial
  refine .bind hE (Ensures.hasKv hE) fun kv _ => ?_
  cases kv with
  | false => exact .pure hE trivial
  | true =>
    refine .andThen hE (.kvGet_true hE _) (fun keys _ => ?_) fun _ _ => trivial
    refine .andThen hE (.kvGet_true hE _) (fun indexed _ => ?_) fun _ _ => trivial
    refine .andThen hE (ownedIds_ensures hE principal indexed) (fun owned _ => ?_)
      fun _ _ => trivial
    refine .bind hE (deleteAll_ensures hE kvKeeps_erase _) fun _ _ => ?_
    refine .bind hE (deleteAll_ensures hE (fun id => kvKeeps_index fun index => index.erase id) _)
      fun _ _ => ?_
    exact .pure hE trivial

theorem cleanupRow_ensures (read : Kv → Option StoredToken) {delete : Kv → Kv}
    (hdelete : KvKeeps delete) :
    Ensures origin E verify n start (cleanupRow read delete) fun _ => True := by
  refine .bind hE (.kvGet_true hE _) fun stored _ => ?_
  split
  next stored =>
    split
    next token _ =>
      refine .bind hE (.read_true hE _) fun expired _ => ?_
      cases expired with
      | false => exact .pure hE trivial
      | true =>
        refine .bind hE (.tryPut hE hdelete) fun _ _ => ?_
        exact .bind hE (.tryPut hE (kvKeeps_index fun index => index.erase token.id)) fun _ _ =>
          .pure hE trivial
    next => exact .pure hE trivial
  next => exact .pure hE trivial

theorem cleanupRows_ensures (rows : List (Call globs Nat))
    (h : ∀ row ∈ rows, Ensures origin E verify n start row fun _ => True) :
    Ensures origin E verify n start (cleanupRows rows) fun _ => True := by
  induction rows with
  | nil => exact .pure hE trivial
  | cons row _ ih =>
    refine .bind hE (h row mem_cons_self) fun _ _ => ?_
    exact .bind hE (ih fun row' hrow' => h row' (mem_cons_of_mem _ hrow')) fun _ _ =>
      .pure hE trivial

theorem cleanupExpired_ensures :
    Ensures origin E verify n start (cleanupExpired : Call globs _) fun _ => True := by
  refine .bind hE (Ensures.hasKv hE) fun kv _ => ?_
  cases kv with
  | false => exact .pure hE trivial
  | true =>
    refine .andThen hE (.kvGet_true hE _) (fun keys _ => ?_) fun _ _ => trivial
    refine .bind hE (cleanupRows_ensures hE _ fun row hrow => ?_) fun _ _ => ?_
    · obtain ⟨key, _, rfl⟩ := mem_map.1 hrow
      exact cleanupRow_ensures hE _ (kvKeeps_erase key)
    refine .bind hE (cleanupRows_ensures hE _ fun row hrow => ?_) fun _ _ => .pure hE trivial
    obtain ⟨id, _, rfl⟩ := mem_map.1 hrow
    exact cleanupRow_ensures hE _ (kvKeeps_eraseLegacy id)

theorem retirement_ensures (f : FSet PrincipalId → FSet PrincipalId) :
    Ensures origin E verify n start
      (do
        .whenReady (fun s : StoreState globs => s.readers.isEmpty) fun s =>
          ((), { s with retiring := f s.retiring })
        pure (.ok ()) : Call globs (Outcome Unit)) fun _ => True := by
  have hchange : Ensures origin E verify n start
      (.whenReady (fun s : StoreState globs => s.readers.isEmpty) fun s =>
        ((), { s with retiring := f s.retiring })) fun _ => True :=
    .quiet hE (fun s _ hextra => grows_of_same hextra) (fun _ => rfl) (fun _ => rfl)
      (fun _ => rfl) fun _ _ => trivial
  exact .bind hE hchange fun _ _ => .pure hE trivial

end

/-! ## Revoking -/

variable (origin E) in
/-- An id whose revocation is complete. -/
structure RevokedSince (id : TokenId) (s : StoreState globs) : Prop where
  memory : id ∈ s.revoked
  kv : s.kv.isSome = true → KvRevoked s id
  session : ∃ s₀, Grows origin E s₀ s ∧ id ∈ s₀.revoked ∧ NoSession id s₀

theorem grows_revoke (s : StoreState globs) (id : TokenId)
    (hextra : E s { s with revoked := s.revoked.insert id }) :
    Grows origin E s { s with revoked := s.revoked.insert id } :=
  ⟨rfl, fun _ h => h, fun _ h => h, fun _ h => mem_insert_set.2 (.inr h), fun _ h => h,
    fun _ h => h,
    fun h => ⟨h.session, h.keyed, h.unique, h.stored, h.settled, h.sourced, h.takes, h.made⟩,
      hextra⟩

theorem noSession_dropSession (s : StoreState globs) (id : TokenId) :
    NoSession id { s with session := dropSession id s.session } := by
  intro principal tokens htokens
  obtain ⟨_, _, rfl⟩ := getElem?_dropSession id _ principal htokens
  rw [getElem?_erase_of, if_pos rfl]

variable {s : StoreState globs}

theorem revokeInMemory_valid (hE : Admissible E) (id : TokenId) (hs : Since origin E n start s)
    (hkv : s.kv.isSome = true → KvRevoked s id) :
    Valid (store verify E) (Relied origin E) n (revokeInMemory id) s fun _ s' =>
      Since origin E n start s' ∧ RevokedSince origin E id s' := by
  have hr := @relies globs origin E verify hE
  apply Valid.bind hr
  refine Valid.modify fun s₁ hs₁ hallowed₁ => ?_
  have hgrows₁ : Grows origin E s₁ _ := grows_revoke s₁ id hallowed₁
  have hstep₁ := hgrows₁.relied rfl rfl rfl
  refine ⟨fun m _ => hstep₁ m, fun s₂ hs₂ => ?_⟩
  have hid : id ∈ s₂.revoked := hs₂.grows.revoked id (mem_insert_set.2 (.inl rfl))
  have hsince₂ := ((hs.relied hE hs₁).relied hE (hstep₁ n)).relied hE hs₂
  have hgrows₂ := hs₁.grows.trans hE (hgrows₁.trans hE hs₂.grows)
  apply Valid.bind hr
  refine Valid.modify fun s₃ hs₃ hallowed₃ => ?_
  have hgrows₃ : Grows origin E s₃ { s₃ with session := dropSession id s₃.session } :=
    grows_session (fun hinv => dropSession_ids hinv id) hallowed₃
  have hstep₃ := hgrows₃.relied rfl rfl rfl
  refine ⟨fun m _ => hstep₃ m, fun s₄ hs₄ => Valid.pure fun s₅ hs₅ => ?_⟩
  have hlast := (hr.trans n hs₄ hs₅).grows
  have hgrows := hgrows₂.trans hE (hs₃.grows.trans hE (hgrows₃.trans hE hlast))
  refine ⟨(((hsince₂.relied hE hs₃).relied hE (hstep₃ n)).relied hE hs₄).relied hE hs₅, ?_, ?_, ?_⟩
  · exact hlast.revoked id (hs₃.grows.revoked id hid)
  · intro hsome
    rw [hgrows.kv] at hsome
    exact hgrows.kvRevoked id (hkv hsome)
  · exact ⟨_, hlast, hs₃.grows.revoked id hid, noSession_dropSession s₃ id⟩

/-- Storing a revocation. -/
theorem kvRevoke_valid (hE : Admissible E) (id : TokenId) (hs : Since origin E n start s) :
    Valid (store verify E) (Relied origin E) n
      (kvPut fun kv => { kv with revoked := kv.revoked.insert id }) s fun result s' =>
      Since origin E n start s' ∧ (result = .ok () → KvRevoked s' id) := by
  apply Valid.bind (relies verify hE)
  refine Valid.pick fun outcome s₁ hs₁ => ?_
  have hsince₁ := hs.relied hE hs₁
  by_cases hfail : outcome = 0
  · rw [if_pos hfail]
    exact Valid.pure fun s₂ hs₂ => ⟨hsince₁.relied hE hs₂, nofun⟩
  rw [if_neg hfail]
  refine Valid.atomically fun s₂ hs₂ hallowed₂ => ?_
  have hsince₂ := hsince₁.relied hE hs₂
  cases hkv : s₂.kv with
  | none =>
    refine ⟨fun m _ => (Grows.refl hE s₂).relied rfl rfl rfl m, fun s₃ hs₃ => ?_⟩
    exact ⟨hsince₂.relied hE hs₃, nofun⟩
  | some =>
    simp only [hkv] at hallowed₂ ⊢
    have hgrows₂ : Grows origin E s₂ _ := grows_kv (kvKeeps_revoke id) hkv hallowed₂
    have hstep₂ := hgrows₂.relied rfl rfl rfl
    refine ⟨fun m _ => hstep₂ m, fun s₃ hs₃ => ?_⟩
    refine ⟨(hsince₂.relied hE (hstep₂ n)).relied hE hs₃, fun _ => ?_⟩
    -- Also where the operation is reported as failed.
    exact hs₃.grows.kvRevoked id ⟨_, rfl, mem_insert_set.2 (.inl rfl)⟩

theorem revoke_valid (hE : Admissible E) (id : TokenId) (hs : Since origin E n start s) :
    Valid (store verify E) (Relied origin E) n (revoke id) s fun result s' =>
      Since origin E n start s' ∧ (result = .ok () → RevokedSince origin E id s') := by
  have hr := @relies globs origin E verify hE
  apply Valid.bind hr
  refine Valid.read hr fun s₁ hs₁ s₂ hs₂ => ?_
  have hsince₂ := (hs.relied hE hs₁).relied hE hs₂
  split_ifs with hkv
  · apply Valid.bind hr
    refine (kvRevoke_valid hE id hsince₂).mono fun result s₃ hs₃ => ?_
    obtain ⟨hsince₃, hstored⟩ := hs₃
    cases result with
    | error => exact Valid.pure fun s₄ hs₄ => ⟨hsince₃.relied hE hs₄, nofun⟩
    | ok =>
      -- The rows go, and the revocation stays.
      apply Valid.bind hr
      refine (deleteRows_ensures hE id s₃ (.refl hE n s₃)).mono fun _ s₄ hs₄ => ?_
      have hstored₄ := hs₄.1.grows.kvRevoked id (hstored rfl)
      refine (revokeInMemory_valid hE id (hsince₃.trans hE hs₄.1) fun _ => hstored₄).mono ?_
      exact fun _ s' hs' => ⟨hs'.1, fun _ => hs'.2⟩
  · refine (revokeInMemory_valid hE id hsince₂ fun hsome => ?_).mono ?_
    · rw [hs₂.grows.kv] at hsome
      exact absurd hsome hkv
    · exact fun _ s' hs' => ⟨hs'.1, fun _ => hs'.2⟩

/-! ## Single use -/

variable (origin E) in
/-- Call `n` holds the lock of the used ids, with the uses logged so far among `used` or `ids`. -/
structure Holds (n : Nat) (ids : List TokenId) (start s : StoreState globs) : Prop where
  grows : Grows origin E start s
  lock : s.usedLock = some n
  logged : ∀ m id, (m, id) ∈ s.uses → id ∈ s.used ∨ id ∈ ids

variable {s' : StoreState globs} {ids : List TokenId}

theorem Holds.relied (hE : Admissible E) (h : Holds origin E n ids start s)
    (hs : Relied origin E n s s') : Holds origin E n ids start s' := by
  obtain ⟨hlock, hused, huses⟩ := hs.lock h.lock
  refine ⟨h.grows.trans hE hs.grows, hlock, ?_⟩
  rw [hused, huses]
  exact h.logged

/-- A step of a call that holds the lock, or takes it. -/
theorem Grows.relied_lock (h : Grows origin E s s') (hlock : ∀ m, m ≠ n → s.usedLock ≠ some m)
    (huses : ∀ m id, m ≠ n → (m, id) ∈ s'.uses → (m, id) ∈ s.uses) :
    ∀ m, m ≠ n → Relied origin E m s s' :=
  fun m hm => ⟨h, fun id hid => huses m id hm hid, fun hs => absurd hs (hlock m hm)⟩

theorem Holds.others (h : Holds origin E n ids start s) : ∀ m, m ≠ n → s.usedLock ≠ some m := by
  intro m hm hlock
  rw [h.lock] at hlock
  exact hm (Option.some.inj hlock).symm

theorem grows_acquire (s : StoreState globs) (n : Nat)
    (hextra : E s { s with usedLock := some n }) :
    Grows origin E s { s with usedLock := some n } :=
  ⟨rfl, fun _ h => h, fun _ h => h, fun _ h => h, fun _ h => h, fun _ h => h,
    fun h => ⟨h.session, h.keyed, h.unique, h.stored, nofun, h.sourced, h.takes, h.made⟩, hextra⟩

theorem Holds.grows_release (h : Holds origin E n [] start s)
    (hextra : E s { s with usedLock := none }) : Grows origin E s { s with usedLock := none } := by
  refine ⟨rfl, fun _ h => h, fun _ h => h, fun _ h => h, fun _ h => h, fun _ h => h, ?_, hextra⟩
  intro hinv
  refine ⟨hinv.session, hinv.keyed, hinv.unique, hinv.stored, fun _ m id huse => ?_, hinv.sourced,
    hinv.takes, hinv.made⟩
  rcases h.logged m id huse with hused | hnil
  · exact hused
  · cases hnil

variable {id : TokenId}

theorem kvUsed_storeUse {uses : List (Nat × TokenId)} {id' : TokenId} :
    KvUsed { storeUse n id s with uses } id' ↔
      (s.kv.isSome = true ∧ id = id') ∨ KvUsed s id' := by
  unfold KvUsed storeUse
  cases hkv : s.kv with
  | none | some => simp

section

variable (hop : (origin.ops n).Uses id)

include hop

/-- A use that the key-value store takes, and that is logged or not: `uses` has one more entry
only if the id was not used before. -/
theorem grows_taken {uses : List (Nat × TokenId)} (hmore : ∀ use ∈ s.uses, use ∈ uses)
    (hnew : ∀ use ∈ uses, use ∈ s.uses ∨ use = (n, id) ∧ ∀ m, (m, id) ∉ s.uses)
    (hlock : s.usedLock ≠ none) (hextra : E s { storeUse n id s with uses }) :
    Grows origin E s { storeUse n id s with uses } := by
  have hsome : (storeUse n id s).kv.isSome = s.kv.isSome := isSome_map
  refine ⟨hsome, fun _ h => h, fun id' h => kvUsed_storeUse.2 (.inr h), fun _ h => h, ?_,
    hmore, fun hinv => ⟨hinv.session, ?_, ?_, ?_, fun hnone => absurd hnone hlock, ?_, ?_, ?_⟩,
    hextra⟩
  · rintro id' ⟨kv, hkv, hrevoked⟩
    refine ⟨{ kv with used := kv.used.insert id }, ?_, hrevoked⟩
    simp only [storeUse, hkv, map_some]
  · intro kv hkv
    obtain ⟨kv', hkv', rfl⟩ := map_eq_some_iff.1 hkv
    have hkeyed := hinv.keyed kv' hkv'
    exact ⟨hkeyed.tokens, hkeyed.legacy⟩
  · intro m m' id' huse huse'
    rcases hnew _ huse with hold | ⟨heq, hunused⟩
    · rcases hnew _ huse' with hold' | ⟨heq', hunused'⟩
      · exact hinv.unique m m' id' hold hold'
      · cases heq'
        exact absurd hold (hunused' m)
    · cases heq
      rcases hnew _ huse' with hold' | ⟨heq', _⟩
      · exact absurd hold' (hunused m')
      · exact (Prod.ext_iff.1 heq').1.symm
  · intro m id' huse hkv
    rw [hsome] at hkv
    rcases hnew _ huse with hold | ⟨heq, _⟩
    · exact kvUsed_storeUse.2 (.inr (hinv.stored m id' hold hkv))
    · cases heq
      exact kvUsed_storeUse.2 (.inl ⟨hkv, rfl⟩)
  · intro id' hused
    refine (hinv.sourced id' hused).imp_right ?_
    exact fun ⟨m, huse⟩ => ⟨m, hmore _ huse⟩
  · intro id' hused
    have hcases : id = id' ∨ (id' ∈ s.loaded ∨ KvUsed s id') := by
      rcases hused with hmem | hkv
      · exact .inr (.inl hmem)
      · rcases kvUsed_storeUse.1 hkv with ⟨_, heq⟩ | hold
        · exact .inl heq
        · exact .inr (.inr hold)
    rcases hcases with rfl | hold
    · exact .inr ⟨n, mem_cons_self⟩
    · refine (hinv.takes id' hold).imp_right ?_
      exact fun ⟨m, htaken⟩ => ⟨m, mem_cons_of_mem _ htaken⟩
  · intro m id' hmade
    have hcases : (m, id') = (n, id) ∨ ((m, id') ∈ s.uses ∨ (m, id') ∈ s.taken) := by
      rcases hmade with huse | htaken
      · rcases hnew _ huse with hold | ⟨heq, _⟩
        · exact .inr (.inl hold)
        · exact .inl heq
      · exact (mem_cons.1 htaken).imp_right .inr
    rcases hcases with heq | hold
    · cases heq
      exact hop
    · exact hinv.made m id' hold

theorem Holds.grows_storeUse (h : Holds origin E n [] start s) (hextra : E s (storeUse n id s)) :
    Grows origin E s (storeUse n id s) :=
  grows_taken hop (fun _ h => h) (fun _ h => .inl h) (by rw [h.lock]; exact some_ne_none _) hextra

/-- What storing and logging a use does. -/
theorem Holds.grows_logUse (h : Holds origin E n [] start s) (hid : id ∉ s.used)
    (hextra : E s { storeUse n id s with uses := (n, id) :: s.uses }) :
    Grows origin E s { storeUse n id s with uses := (n, id) :: s.uses } := by
  have hnew : ∀ m, (m, id) ∉ s.uses := by
    intro m huse
    rcases h.logged m id huse with hused | hnil
    · exact hid hused
    · cases hnil
  refine grows_taken hop (fun _ h => mem_cons_of_mem _ h) (fun use huse => ?_)
    (by rw [h.lock]; exact some_ne_none _) hextra
  exact (mem_cons.1 huse).symm.imp_right fun heq => ⟨heq, hnew⟩

end

theorem Holds.grows_remember (h : Holds origin E n [id] start s) (huse : (n, id) ∈ s.uses)
    (hextra : E s { s with used := s.used.insert id }) :
    Grows origin E s { s with used := s.used.insert id } := by
  refine ⟨rfl, fun _ h => mem_insert_set.2 (.inr h), fun _ h => h, fun _ h => h, fun _ h => h,
    fun _ h => h, fun hinv => ?_, hextra⟩
  refine ⟨hinv.session, hinv.keyed, hinv.unique, hinv.stored, fun hnone => ?_, ?_, hinv.takes,
    hinv.made⟩
  · rw [h.lock] at hnone
    cases hnone
  · intro id' hused
    rcases mem_insert_set.1 hused with rfl | hold
    · exact .inr ⟨n, huse⟩
    · exact hinv.sourced id' hold

variable (origin E) in
/-- What call `n` leaves when it tried to use an id: an entry in the log, or no trace. -/
def UseOutcome {α : Type} (n : Nat) (id : TokenId) (start : StoreState globs)
    (result : Outcome α) (s : StoreState globs) : Prop :=
  match result with
  | .ok _ => Grows origin E start s ∧ (n, id) ∈ s.uses ∧ id ∈ s.used
  | .error _ => Since origin E n start s

theorem persistUse_valid (hE : Admissible E) (hop : (origin.ops n).Uses id)
    (hs : Since origin E n start s) (hholds : Holds origin E n [] start s) (hid : id ∉ s.used) :
    Valid (store verify E) (Relied origin E) n (persistUse n id) s fun result s' =>
      match result with
      | .ok _ => Holds origin E n [id] start s' ∧ (n, id) ∈ s'.uses
      | .error _ => Since origin E n start s' ∧ Holds origin E n [] start s' := by
  have hr := @relies globs origin E verify hE
  apply Valid.bind hr
  refine Valid.read hr fun s₁ hs₁ s₂ hs₂ => ?_
  apply Valid.bind hr
  have houtcome : Valid (store verify E) (Relied origin E) n
      (if s₁.kv.isSome then .pick else pure 1) s₂ fun _ s' => Relied origin E n s₂ s' := by
    split
    · exact Valid.pick fun _ _ h => h
    · exact Valid.pure fun _ h => h
  refine houtcome.mono fun outcome s₃ hs₃ => ?_
  have hs₃' := hr.trans n hs₁ (hr.trans n hs₂ hs₃)
  by_cases hfail : outcome = 0
  · rw [if_pos hfail]
    refine Valid.pure fun s₄ hs₄ => ?_
    have hs₄' := hr.trans n hs₃' hs₄
    exact ⟨hs.relied hE hs₄', hholds.relied hE hs₄'⟩
  rw [if_neg hfail]
  by_cases hreported : outcome = 2
  · -- The use is stored, but it is neither logged nor remembered.
    rw [if_pos hreported]
    refine Valid.atomically fun s₄ hs₄ hallowed => ?_
    have hs₄' := hr.trans n hs₃' hs₄
    have hholds₄ := hholds.relied hE hs₄'
    have hgrows := hholds₄.grows_storeUse hop hallowed
    refine ⟨hgrows.relied_lock hholds₄.others fun _ _ _ h => h, fun s₅ hs₅ => ?_⟩
    have hstored : Holds origin E n [] start (storeUse n id s₄) :=
      ⟨hholds₄.grows.trans hE hgrows, hholds₄.lock, hholds₄.logged⟩
    have hsince : Since origin E n start (storeUse n id s₄) :=
      (hs.relied hE hs₄').trans hE ⟨hgrows, fun _ h => h⟩
    exact ⟨hsince.relied hE hs₅, hstored.relied hE hs₅⟩
  · rw [if_neg hreported]
    refine Valid.atomically fun s₄ hs₄ hallowed => ?_
    have hs₄' := hr.trans n hs₃' hs₄
    have hholds₄ := hholds.relied hE hs₄'
    have hid₄ : id ∉ s₄.used := by
      rw [(hs₄'.lock hholds.lock).2.1]
      exact hid
    have hgrows := hholds₄.grows_logUse hop hid₄ hallowed
    refine ⟨hgrows.relied_lock hholds₄.others ?_, fun s₅ hs₅ => ?_⟩
    · intro m id' hm huse
      rcases mem_cons.1 huse with heq | hold
      · exact absurd (Prod.ext_iff.1 heq).1 hm
      · exact hold
    · have hlogged : Holds origin E n [id] start
          { storeUse n id s₄ with uses := (n, id) :: s₄.uses } := by
        refine ⟨hholds₄.grows.trans hE hgrows, hholds₄.lock, fun m id' huse => ?_⟩
        rcases mem_cons.1 huse with heq | hold
        · exact .inr (mem_singleton.2 (Prod.ext_iff.1 heq).2)
        · rcases hholds₄.logged m id' hold with hused | hnil
          · exact .inl hused
          · cases hnil
      exact ⟨hlogged.relied hE hs₅, hs₅.grows.uses _ mem_cons_self⟩

/-- Letting the lock go. -/
theorem release_valid (hE : Admissible E) {α : Type} {result : Outcome α}
    (hholds : Holds origin E n [] start s) (houtcome : UseOutcome origin E n id start result s) :
    Valid (store verify E) (Relied origin E) n
      (do
        .modify fun s => { s with usedLock := none }
        pure result) s (UseOutcome origin E n id start) := by
  have hr := @relies globs origin E verify hE
  apply Valid.bind hr
  refine Valid.modify fun s₁ hs₁ hallowed => ?_
  have hholds₁ := hholds.relied hE hs₁
  have hgrows := hholds₁.grows_release hallowed
  refine ⟨hgrows.relied_lock hholds₁.others fun _ _ _ h => h, fun s₂ hs₂ => ?_⟩
  refine Valid.pure fun s₃ hs₃ => ?_
  have hlast := hr.trans n hs₂ hs₃
  cases result with
  | ok =>
    have hall := hs₁.grows.trans hE (hgrows.trans hE hlast.grows)
    exact ⟨houtcome.1.trans hE hall, hall.uses _ houtcome.2.1, hall.used _ houtcome.2.2⟩
  | error =>
    have hsince : Since origin E n start s := houtcome
    exact ((hsince.relied hE hs₁).trans hE ⟨hgrows, fun _ h => h⟩).relied hE hlast

theorem markUsed_valid (hE : Admissible E) (hop : (origin.ops n).Uses id)
    (hinv : StoreInv origin start) (hs : Since origin E n start s) :
    Valid (store verify E) (Relied origin E) n (markUsed n id) s
      (UseOutcome origin E n id start) := by
  have hr := @relies globs origin E verify hE
  apply Valid.bind hr
  refine Valid.whenReady fun s₁ hs₁ hready hallowed => ?_
  have hfree : s₁.usedLock = none := isNone_iff_eq_none.1 hready
  have hsince₁ := hs.relied hE hs₁
  have hgrows₁ : Grows origin E s₁ { s₁ with usedLock := some n } := grows_acquire s₁ n hallowed
  refine ⟨hgrows₁.relied_lock (fun m _ => by rw [hfree]; exact (some_ne_none m).symm)
    fun _ _ _ h => h, fun s₂ hs₂ => ?_⟩
  have hsince : Since origin E n start { s₁ with usedLock := some n } :=
    hsince₁.trans hE ⟨hgrows₁, fun _ h => h⟩
  have hholds : Holds origin E n [] start { s₁ with usedLock := some n } :=
    ⟨hsince.grows, rfl, fun m id' huse =>
      .inl ((hsince₁.grows.inv hinv).settled hfree m id' huse)⟩
  have hsince₂ := hsince.relied hE hs₂
  have hholds₂ := hholds.relied hE hs₂
  by_cases hused : id ∈ s₁.used
  · rw [if_pos (decide_eq_true hused)]
    apply Valid.bind hr
    refine Valid.pure fun s₃ hs₃ => ?_
    exact release_valid hE (hholds₂.relied hE hs₃) (hsince₂.relied hE hs₃)
  rw [if_neg (by rw [decide_eq_false hused]; exact Bool.false_ne_true)]
  have hunused : id ∉ s₂.used := by
    rw [(hs₂.lock rfl).2.1]
    exact hused
  apply Valid.bind hr
  apply Valid.bind hr
  refine (persistUse_valid hE hop hsince₂ hholds₂ hunused).mono fun result s₃ hs₃ => ?_
  cases result with
  | error =>
    refine Valid.pure fun s₄ hs₄ => ?_
    exact release_valid hE (hs₃.2.relied hE hs₄) (hs₃.1.relied hE hs₄)
  | ok =>
    obtain ⟨hholds₃, huse₃⟩ := hs₃
    apply Valid.bind hr
    refine Valid.modify fun s₄ hs₄ hallowed₄ => ?_
    have hholds₄ := hholds₃.relied hE hs₄
    have huse₄ := hs₄.grows.uses _ huse₃
    have hgrows₄ := hholds₄.grows_remember huse₄ hallowed₄
    refine ⟨hgrows₄.relied_lock hholds₄.others fun _ _ _ h => h, fun s₅ hs₅ => ?_⟩
    refine Valid.pure fun s₆ hs₆ => ?_
    have hlast := hr.trans n hs₅ hs₆
    have hremembered : Holds origin E n [] start { s₄ with used := s₄.used.insert id } := by
      refine ⟨hholds₄.grows.trans hE hgrows₄, hholds₄.lock, fun m id' huse => ?_⟩
      rcases hholds₄.logged m id' huse with hold | hnew
      · exact .inl (mem_insert_set.2 (.inr hold))
      · exact .inl (mem_insert_set.2 (.inl (mem_singleton.1 hnew).symm))
    have hholds₆ := hremembered.relied hE hlast
    have hused₆ := hlast.grows.used id (mem_insert_set.2 (.inl rfl))
    exact release_valid hE hholds₆ ⟨hholds₆.grows, hlast.grows.uses _ huse₄, hused₆⟩

theorem useToken_valid (hE : Admissible E) (hop : (origin.ops n).Uses id)
    (hinv : StoreInv origin start) :
    Valid (store verify E) (Relied origin E) n (useToken verify n id) start fun result s' =>
      match result with
      | .ok token => Grows origin E start s' ∧ token.id = id ∧ id ∉ start.revoked ∧
          (token.singleUse = true → (n, id) ∈ s'.uses ∧ id ∈ s'.used)
      | .error _ => Since origin E n start s' := by
  have hr := @relies globs origin E verify hE
  apply Valid.bind hr
  refine (get_ensures hE hinv id start (.refl hE n start)).mono fun result s₁ hs₁ => ?_
  obtain ⟨hsince₁, hget⟩ := hs₁
  cases result with
  | error => exact Valid.pure fun s₂ hs₂ => hsince₁.relied hE hs₂
  | ok found =>
    cases found with
    | none => exact Valid.pure fun s₂ hs₂ => hsince₁.relied hE hs₂
    | some token =>
      obtain ⟨hid, hrevoked⟩ := hget token rfl
      apply Valid.bind hr
      refine Valid.read hr fun s₂ hs₂ s₃ hs₃ => ?_
      have hsince₃ := (hsince₁.relied hE hs₂).relied hE hs₃
      cases token.validate verify s₂.now with
      | error => exact Valid.pure fun s₄ hs₄ => hsince₃.relied hE hs₄
      | ok =>
        split_ifs with hsingle
        · apply Valid.bind hr
          refine (markUsed_valid hE hop hinv hsince₃).mono fun marked s₄ hs₄ => ?_
          cases marked with
          | error =>
            have hsince₄ : Since origin E n start s₄ := hs₄
            exact Valid.pure fun s₅ hs₅ => hsince₄.relied hE hs₅
          | ok =>
            refine Valid.pure fun s₅ hs₅ => ?_
            refine ⟨hs₄.1.trans hE hs₅.grows, hid, hrevoked, fun _ => ?_⟩
            exact ⟨hs₅.grows.uses _ hs₄.2.1, hs₅.grows.used _ hs₄.2.2⟩
        · refine Valid.pure fun s₄ hs₄ => ?_
          exact ⟨(hsince₃.relied hE hs₄).grows, hid, hrevoked, fun h => absurd h hsingle⟩

/-! ## All calls -/

variable (origin E) in
/-- What the answer to call `n`, which started in `start`, says about a later state. -/
def Outcomes (n : Nat) (start : StoreState globs) :
    Op globs → Answer globs → StoreState globs → Prop
  | .get id, .got result, s => Since origin E n start s ∧ ∀ token,
      result = .ok (some token) → token.id = id ∧ id ∉ start.revoked
  | .findCapability principal resource permission, .found result, s =>
      Since origin E n start s ∧ ∀ token, result = some token →
        Found origin E start principal resource permission token ∧
          ∃ s', Grows origin E start s' ∧ principal ∉ s'.retiring
  | .hasCapability principal resource permission, .found result, s =>
      Since origin E n start s ∧ ∀ token, result = some token →
        Found origin E start principal resource permission token ∧
          ∃ s', Grows origin E start s' ∧ principal ∉ s'.retiring
  | .check _ principal resource permission, .authorized result, s =>
      Since origin E n start s ∧ ∀ token, result = some token →
        Found origin E start principal resource permission token ∧
          ∃ s', Grows origin E start s' ∧ principal ∉ s'.retiring
  | .useToken id, .used (.ok token), s => Grows origin E start s ∧ token.id = id ∧
      id ∉ start.revoked ∧ (token.singleUse = true → (n, id) ∈ s.uses ∧ id ∈ s.used)
  | .markUsed id, .done (.ok _), s => Grows origin E start s ∧ (n, id) ∈ s.uses ∧ id ∈ s.used
  | .revoke id, .done result, s =>
      Since origin E n start s ∧ (result = .ok () → RevokedSince origin E id s)
  | .useToken _, .used (.error _), s => Since origin E n start s
  | .markUsed _, .done (.error _), s => Since origin E n start s
  | .add _, .done _, s => Since origin E n start s
  | .clearSession, .done _, s => Since origin E n start s
  | .clearSessionFor _, .done _, s => Since origin E n start s
  | .purgePrincipal _, .done _, s => Since origin E n start s
  | .cleanupExpired, .removed _, s => Since origin E n start s
  | .beginPrincipalRetirement _, .done _, s => Since origin E n start s
  | .finishPrincipalRetirement _, .done _, s => Since origin E n start s
  | _, _, _ => False

theorem program_valid (hE : Admissible E) (hinv : StoreInv origin start) {op : Op globs}
    (hop : origin.ops n = op) :
    Valid (store verify E) (Relied origin E) n (program verify n op) start
      (Outcomes origin E n start op) := by
  have hstart : Since origin E n start start := .refl hE n start
  cases op with
  | add token => exact .map ((add_ensures hE token start hstart).mono fun _ _ h => h.1)
  | get id => exact .map (get_ensures hE hinv id start hstart)
  | findCapability principal resource permission | hasCapability principal resource permission =>
    exact .map (findCapability_ensures hE hinv principal resource permission start hstart)
  | useToken id =>
    have huses : (origin.ops n).Uses id := by
      rw [hop]
      rfl
    refine .map ((useToken_valid hE huses hinv).mono fun result s h => ?_)
    cases result with
    | ok | error => exact h
  | markUsed id =>
    have huses : (origin.ops n).Uses id := by
      rw [hop]
      rfl
    refine .map ((markUsed_valid hE huses hinv hstart).mono fun result s h => ?_)
    cases result with
    | ok | error => exact h
  | revoke id => exact .map (revoke_valid hE id hstart)
  | clearSession => exact .map ((clearSession_ensures hE start hstart).mono fun _ _ h => h.1)
  | clearSessionFor principal =>
    exact .map ((clearSessionFor_ensures hE principal start hstart).mono fun _ _ h => h.1)
  | purgePrincipal principal =>
    exact .map ((purgePrincipal_ensures hE principal start hstart).mono fun _ _ h => h.1)
  | cleanupExpired => exact .map ((cleanupExpired_ensures hE start hstart).mono fun _ _ h => h.1)
  | beginPrincipalRetirement principal =>
    exact .map ((retirement_ensures hE (fun retiring => retiring.insert principal) start
      hstart).mono fun _ _ h => h.1)
  | finishPrincipalRetirement principal =>
    exact .map ((retirement_ensures hE (fun retiring => retiring.erase principal) start
      hstart).mono fun _ _ h => h.1)
  | check trustedIssuers principal resource permission =>
    exact .map (check_ensures hE hinv trustedIssuers principal resource permission start hstart)

/-! ## Runs -/

theorem storeInv_opened {kv : Option Kv} (hkv : ∀ kv', kv = some kv' → WellKeyed kv') (now : Int)
    (ops : Nat → Op globs) :
    StoreInv ⟨(kv.map Kv.used).getD ∅, ops⟩ (opened globs kv now) where
  session := by
    intro principal tokens id token htokens _
    cases htokens
  keyed := hkv
  unique n m id huse := by cases huse
  stored n id huse := by cases huse
  settled _ n id huse := by cases huse
  sourced _ hused := .inl hused
  takes := by
    intro id hused
    rcases hused with hmem | ⟨kv', hkv', hmem⟩
    · exact .inl hmem
    left
    have hsome : kv = some kv' := hkv'
    rw [hsome]
    exact hmem
  made n id huse := by rcases huse with huse | huse <;> cases huse

theorem StoreInv.restart (h : StoreInv origin s) (hs : Restarts s s') :
    StoreInv origin s' := by
  obtain ⟨kv, hkv, rfl⟩ := hs
  have hstored : ∀ n id, (n, id) ∈ s.uses → id ∈ kv.used := by
    intro n id huse
    obtain ⟨kv', hkv', hid⟩ := h.stored n id huse (by rw [hkv]; rfl)
    rw [hkv] at hkv'
    cases hkv'
    exact hid
  refine ⟨?_, ?_, h.unique, ?_, fun _ n id huse => hstored n id huse, fun _ hused => .inl hused, ?_,
    h.made⟩
  · intro principal tokens id token htokens _
    cases htokens
  · intro kv' hkv'
    cases hkv'
    exact h.keyed kv hkv
  · exact fun n id huse _ => ⟨kv, rfl, hstored n id huse⟩
  · intro id hused
    have hid : id ∈ kv.used := by
      rcases hused with hmem | ⟨_, hkv', hmem⟩
      · exact hmem
      · cases hkv'
        exact hmem
    exact h.takes id (.inr ⟨kv, hkv, hid⟩)

variable (origin) in
/-- A call before it starts: it is the operation of its number, and has used nothing. -/
def Unstarted (n : Nat) (op : Op globs) (s : StoreState globs) : Prop :=
  origin.ops n = op ∧ ∀ id, (n, id) ∉ s.uses

/-- Runs of the store, from what outcomes say of results. -/
theorem sound (hE : Admissible E) {J : StoreState globs → Prop}
    {Q : Nat → Op globs → Answer globs → StoreState globs → Prop}
    (hinv : ∀ {s}, J s → StoreInv origin s)
    (hkeeps : ∀ {s s'}, Grows origin E s s' → J s → J s')
    (hrestart : ∀ {s s'}, Restarts s s' → J s → J s')
    (hlasting : ∀ n op a {s s'}, Relied origin E n s s' → Q n op a s → Q n op a s')
    (hlasting_restart : ∀ n op a {s s'}, Restarts s s' → J s → Q n op a s → Q n op a s')
    (hQ : ∀ n op a {s s'}, J s → (∀ id, (n, id) ∉ s.uses) → Outcomes origin E n s op a s' →
      Q n op a s') :
    Sound (store verify E) (Relied origin E) J (Unstarted origin) Q where
  relies := relies verify hE
  keeps _ _ _ hs := hkeeps hs.grows
  keeps_restart := hrestart
  untouched n op s s' hs h := ⟨h.1, fun id hid => h.2 id (hs.own id hid)⟩
  untouched_restart n op s s' hs h := by
    obtain ⟨_, _, rfl⟩ := hs
    exact h
  lasting := hlasting
  lasting_restart := hlasting_restart
  start n op s hJ h :=
    (program_valid hE (hinv hJ) h.1).mono fun a s' houtcome => hQ n op a hJ h.2 houtcome

end Effects

end Astrid.Capability
