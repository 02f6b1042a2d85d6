import Astrid.Capability.Guarantee

/-!
# What lookups in the capability store return

Adding and looking up keep the guarantee. A lookup by id returns a token with that id, which
was not revoked when the call started; a lookup by capability returns a token of the principal
that grants it and that was not used up when the call started.
-/

namespace Astrid.Capability

open Std Calls List ExtTreeMap Option

section Results

variable {globs : Globset} {origin : Origin globs}
  {E : StoreState globs → StoreState globs → Prop} {verify : Verify} {n : Nat}
  {start : StoreState globs}

/-! ## Adding -/

theorem insertSession_ensures (hE : Admissible E) (token : CapabilityToken globs) :
    Ensures origin E verify n start (insertSession token) fun _ => True := by
  refine Ensures.modify hE (fun s _ hextra => grows_session ?_ hextra) (fun _ => rfl)
    (fun _ => rfl) fun _ => rfl
  intro hinv principal tokens id token' htokens htoken
  rcases insert_cases htokens with ⟨_, rfl⟩ | ⟨_, htokens⟩
  · rcases insert_cases htoken with ⟨hid, rfl⟩ | ⟨_, htoken⟩
    · exact hid
    · -- The token was there before.
      cases hheld : s.session[token.principal]? with
      | none =>
        rw [hheld] at htoken
        cases htoken
      | some =>
        rw [hheld] at htoken
        exact hinv.session _ _ _ _ hheld htoken
  · exact hinv.session _ _ _ _ htokens htoken

theorem kvKeeps_insert (token : CapabilityToken globs) :
    KvKeeps fun kv =>
      { kv with tokens := kv.tokens.insert (token.principal, token.id) token.serialize } where
  used _ := rfl
  revoked _ _ h := h
  keyed kv h := by
    refine ⟨?_, h.legacy⟩
    intro principal id stored hstored
    rcases insert_cases hstored with ⟨hkey, rfl⟩ | ⟨_, hstored⟩
    · exact (Prod.ext_iff.1 hkey).2
    · exact h.tokens _ _ _ hstored

theorem kvKeeps_index (f : FMap TokenId PrincipalId → FMap TokenId PrincipalId) :
    KvKeeps fun kv => { kv with index := f kv.index } :=
  ⟨fun _ => rfl, fun _ _ h => h, fun _ h => ⟨h.tokens, h.legacy⟩⟩

theorem kvKeeps_erase (key : PrincipalId × TokenId) :
    KvKeeps fun kv => { kv with tokens := kv.tokens.erase key } where
  used _ := rfl
  revoked _ _ h := h
  keyed kv h := by
    exact ⟨fun _ _ _ hstored => h.tokens _ _ _ (getElem?_of_erase hstored), h.legacy⟩

theorem kvKeeps_eraseLegacy (key : TokenId) :
    KvKeeps fun kv => { kv with legacy := kv.legacy.erase key } where
  used _ := rfl
  revoked _ _ h := h
  keyed kv h := by
    exact ⟨h.tokens, fun _ _ hstored => h.legacy _ _ (getElem?_of_erase hstored)⟩

theorem kvKeeps_revoke (id : TokenId) :
    KvKeeps fun kv => { kv with revoked := kv.revoked.insert id } :=
  ⟨fun _ => rfl, fun _ _ h => mem_insert_set.2 (.inr h), fun _ h => ⟨h.tokens, h.legacy⟩⟩

theorem add_ensures (hE : Admissible E) (token : CapabilityToken globs) :
    Ensures origin E verify n start (add verify n token) fun _ => True := by
  refine Ensures.withRetirement hE fun s _ => ?_
  split_ifs with hretiring
  · exact .pure hE trivial
  refine Ensures.andThen hE (Ensures.validateNow hE token) (fun _ _ => ?_) fun _ _ => trivial
  cases token.scope with
  | session =>
    exact .bind hE (insertSession_ensures hE token) fun _ _ => .pure hE trivial
  | persistent =>
    refine .bind hE (Ensures.hasKv hE) fun kv _ => ?_
    cases kv with
    | true =>
      refine .andThen hE (.kvPut hE (kvKeeps_insert token)) (fun _ _ => ?_) fun _ _ => trivial
      exact .kvPut hE (kvKeeps_index fun index => index.insert token.id token.principal)
    | false =>
      exact .bind hE (insertSession_ensures hE token) fun _ _ => .pure hE trivial

/-! ## Reading by id -/

variable {stored : StoredToken}

theorem deserialize_id {token : CapabilityToken globs}
    (h : CapabilityToken.deserialize globs stored = .ok token) : token.id = stored.id := by
  unfold CapabilityToken.deserialize at h
  split at h
  next => cases h; rfl
  next => cases h

/-- What reading a token by its id returns. -/
abbrev HasId (id : TokenId) (result : Outcome (Option (CapabilityToken globs))) : Prop :=
  ∀ token, result = .ok (some token) → token.id = id

section

variable (hE : Admissible E)

include hE

theorem openStored_ensures {id : TokenId} (hid : stored.id = id) :
    Ensures origin E verify n start (openStored verify stored : Call globs _) (HasId id) := by
  unfold openStored
  split
  next token htoken =>
    refine .andThen hE (Ensures.validateNow hE token) (fun _ _ => .pure hE ?_) ?_
    · intro token' htoken'
      cases htoken'
      exact (deserialize_id htoken).trans hid
    · intro e _ token' htoken'
      cases htoken'
  next e _ =>
    refine .pure hE ?_
    intro token htoken
    cases htoken

section

variable (hinv : StoreInv origin start)

include hinv

variable (id : TokenId)

theorem readLegacyToken_ensures :
    Ensures origin E verify n start (readLegacyToken verify id) (HasId id) := by
  have hread : Ensures origin E verify n start (kvGet fun kv => kv.legacy[id]?)
      fun result => ∀ stored, result = .ok (some stored) → stored.id = id := by
    refine .kvGet hE ?_ ?_
    · intro s kv hs hkv stored hstored
      exact ((hs.inv hinv).keyed kv hkv).legacy id stored (Except.ok.inj hstored)
    · intro e stored hstored
      cases hstored
  refine .andThen hE hread (fun found hfound => ?_) fun _ _ _ h => by cases h
  cases found with
  | none => exact .pure hE fun _ h => by cases h
  | some stored => exact openStored_ensures hE (hfound stored rfl)

theorem readPersistent_ensures :
    Ensures origin E verify n start (readPersistentTokenAnyPrincipal verify id) (HasId id) := by
  refine .andThen hE (.kvGet_true hE _) (fun owner _ => ?_) fun _ _ _ h => by cases h
  cases owner with
  | none => exact readLegacyToken_ensures hE hinv id
  | some principal =>
    have hread : Ensures origin E verify n start (kvGet fun kv => kv.tokens[(principal, id)]?)
        fun result => ∀ stored, result = .ok (some stored) → stored.id = id := by
      refine .kvGet hE ?_ ?_
      · intro s kv hs hkv stored hstored
        exact ((hs.inv hinv).keyed kv hkv).tokens principal id stored (Except.ok.inj hstored)
      · intro e stored hstored
        cases hstored
    refine .andThen hE hread (fun found hfound => ?_) fun _ _ _ h => by cases h
    cases found with
    | none =>
      exact .bind hE (.kvPut hE (kvKeeps_index fun index => index.erase id)) fun _ _ =>
        readLegacyToken_ensures hE hinv id
    | some stored => exact openStored_ensures hE (hfound stored rfl)

theorem sessionToken_ensures :
    Ensures origin E verify n start (sessionToken id)
      fun result : Option (CapabilityToken globs) => ∀ token, result = some token →
        token.id = id := by
  refine .bind hE (.pick hE) fun order _ => .read hE ?_
  intro s hs token htoken
  have hmem := mem_of_getElem? htoken
  rw [mem_filterMap] at hmem
  obtain ⟨entry, hentry, hheld⟩ := hmem
  exact (hs.inv hinv).session entry.1 entry.2 id token
    (mem_toList_iff_getElem?_eq_some.1 hentry) hheld

/-- A lookup by id fails on revoked ids. -/
theorem get_ensures :
    Ensures origin E verify n start (get verify n id)
      fun result : Outcome (Option (CapabilityToken globs)) => ∀ token,
        result = .ok (some token) → token.id = id ∧ id ∉ start.revoked := by
  refine .withRetirement hE fun s _ => ?_
  have hrevoked : Ensures origin E verify n start (.read fun s => decide (id ∈ s.revoked))
      fun revoked => revoked = false → id ∉ start.revoked := by
    refine .read hE fun s hs hnot hid => ?_
    exact of_decide_eq_false hnot (hs.revoked id hid)
  refine .bind hE hrevoked fun revoked hnot => ?_
  cases revoked with
  | true => exact .pure hE fun _ h => by cases h
  | false =>
    refine .bind hE (sessionToken_ensures hE hinv id) fun held hheld => ?_
    cases held with
    | some held =>
      refine .pure hE fun token htoken => ?_
      split_ifs at htoken with hretiring
      · cases htoken
      · cases htoken
        exact ⟨hheld held rfl, hnot rfl⟩
    | none =>
      refine .bind hE (Ensures.hasKv hE) fun kv _ => ?_
      cases kv with
      | false => exact .pure hE fun _ h => by cases h
      | true =>
        refine .andThen hE (readPersistent_ensures hE hinv id) (fun found hfound => ?_)
          fun _ _ _ h => by cases h
        refine .pure hE fun token htoken => ?_
        obtain ⟨hsome, _⟩ := filter_eq_some_iff.1 (Except.ok.inj htoken)
        exact ⟨hfound token (by rw [hsome]), hnot rfl⟩

end

/-! ## Looking up a capability -/

theorem isConsumedSingleUse_ensures (token : CapabilityToken globs) :
    Ensures origin E verify n start (isConsumedSingleUse token) fun consumed =>
      consumed = false → token.singleUse = true → token.id ∉ start.used := by
  unfold isConsumedSingleUse
  split_ifs with hsingle
  · refine .quiet hE (fun s _ _ => Grows.refl hE s) (fun _ => rfl) (fun _ => rfl) (fun _ => rfl) ?_
    intro s hs hnot _ hused
    exact of_decide_eq_false hnot (hs.used _ hused)
  · exact .pure hE fun _ h => absurd h hsingle

theorem firstUnused_ensures (tokens : List (CapabilityToken globs)) :
    Ensures origin E verify n start (firstUnused tokens) fun result =>
      ∀ token, result = some token →
        token ∈ tokens ∧ (token.singleUse = true → token.id ∉ start.used) := by
  induction tokens with
  | nil => exact .pure hE fun _ h => by cases h
  | cons first _ ih =>
    refine .bind hE (isConsumedSingleUse_ensures hE first) fun consumed hconsumed => ?_
    cases consumed with
    | true =>
      refine Ensures.mono ih fun result hresult token htoken => ?_
      obtain ⟨hmem, hunused⟩ := hresult token htoken
      exact ⟨mem_cons_of_mem _ hmem, hunused⟩
    | false =>
      refine .pure hE fun token htoken => ?_
      cases htoken
      exact ⟨mem_cons_self, hconsumed rfl⟩

end

/-- What a lookup by capability says of a token it returns. The tokens of the session are not
compared with the revoked ids: such a token was in the session at some point since. -/
structure Found (origin : Origin globs) (E : StoreState globs → StoreState globs → Prop)
    (start : StoreState globs) (principal : PrincipalId) (resource : Text)
    (permission : Permission) (token : CapabilityToken globs) : Prop where
  principal : token.principal = principal
  grants : token.grants resource permission = true
  unused : token.singleUse = true → token.id ∉ start.used
  listed : token.id ∉ start.revoked ∨ ∃ s, Grows origin E start s ∧ ¬ NoSession token.id s

theorem mem_permuted {α : Type} {order : Nat} {l : List α} {a : α} :
    a ∈ (l.permutations'[order % l.permutations'.length]?).getD l ↔ a ∈ l := by
  cases hchosen : l.permutations'[order % l.permutations'.length]? with
  | none => rfl
  | some => exact (mem_permutations'.1 (mem_of_getElem? hchosen)).mem_iff

theorem sessionCandidates_ensures (hE : Admissible E) (hinv : StoreInv origin start)
    (principal : PrincipalId) (resource : Text) (permission : Permission) :
    Ensures origin E verify n start (sessionCandidates principal resource permission)
      fun candidates : List (CapabilityToken globs) => ∀ token ∈ candidates,
        token.principal = principal ∧ token.grants resource permission = true ∧
          ∃ s, Grows origin E start s ∧ ¬ NoSession token.id s := by
  refine .bind hE (.pick hE) fun order _ => .read hE ?_
  intro s hs token htoken
  have hmem := mem_permuted.1 htoken
  rw [mem_filter, Bool.and_eq_true, Bool.and_eq_true, decide_eq_true_eq] at hmem
  obtain ⟨hlisted, ⟨hprincipal, _⟩, hgrants⟩ := hmem
  refine ⟨hprincipal, hgrants, s, hs, fun hnone => ?_⟩
  obtain ⟨⟨id, _⟩, hentry, rfl⟩ := mem_map.1 hlisted
  cases htokens : s.session[principal]? with
  | none =>
    rw [htokens] at hentry
    have hheld := mem_toList_iff_getElem?_eq_some.1 hentry
    cases hheld
  | some tokens =>
    rw [htokens, getD_some] at hentry
    have hheld := mem_toList_iff_getElem?_eq_some.1 hentry
    have hid := (hs.inv hinv).session principal tokens id _ htokens hheld
    have hgone := hnone principal tokens htokens
    rw [hid, hheld] at hgone
    cases hgone

theorem scanPersistent_ensures (hE : Admissible E) (principal : PrincipalId) (resource : Text)
    (permission : Permission) (keys : List (PrincipalId × TokenId)) :
    Ensures origin E verify n start (scanPersistent verify principal resource permission keys)
      fun result => ∀ token, result = some token →
        Found origin E start principal resource permission token := by
  induction keys with
  | nil => exact .pure hE fun _ h => by cases h
  | cons _ _ ih =>
    refine .bind hE (.kvGet_true hE _) fun read _ => ?_
    split
    next stored =>
      split
      next token _ =>
        refine .bind hE (Ensures.validateNow hE token) fun valid _ => ?_
        split
        next =>
          by_cases hprincipal : token.principal ≠ principal
          · rw [if_pos hprincipal]
            exact ih
          rw [if_neg hprincipal]
          have hrevoked : Ensures origin E verify n start
              (.read fun s => decide (token.id ∈ s.revoked))
              fun revoked => revoked = false → token.id ∉ start.revoked := by
            refine .read hE fun s hs hnot hid => ?_
            exact of_decide_eq_false hnot (hs.revoked _ hid)
          refine .bind hE hrevoked fun revoked hnot => ?_
          cases revoked with
          | true => exact ih
          | false =>
            by_cases hgrants : token.grants resource permission = true
            · rw [if_pos hgrants]
              refine .bind hE (isConsumedSingleUse_ensures hE token) fun consumed hunused => ?_
              cases consumed with
              | true => exact ih
              | false =>
                refine .pure hE fun token' htoken' => ?_
                cases htoken'
                exact ⟨not_not.1 hprincipal, hgrants, hunused rfl, .inl (hnot rfl)⟩
            · rw [if_neg hgrants]
              exact ih
        next => exact ih
      next => exact ih
    next => exact ih

/-- A lookup by capability finds tokens of the principal, unless it is retiring. -/
theorem findCapability_ensures (hE : Admissible E) (hinv : StoreInv origin start)
    (principal : PrincipalId) (resource : Text) (permission : Permission) :
    Ensures origin E verify n start (findCapability verify n principal resource permission)
      fun result => ∀ token, result = some token →
        Found origin E start principal resource permission token ∧
          ∃ s, Grows origin E start s ∧ principal ∉ s.retiring := by
  refine .withRetirement hE fun s hs => ?_
  split_ifs with hretiring
  · exact .pure hE fun _ h => by cases h
  refine .bind hE (sessionCandidates_ensures hE hinv principal resource permission) ?_
  intro candidates hcandidates
  refine .bind hE (firstUnused_ensures hE candidates) fun first hfirst => ?_
  cases first with
  | some first =>
    refine .pure hE fun token htoken => ?_
    cases htoken
    obtain ⟨hmem, hunused⟩ := hfirst first rfl
    obtain ⟨hprincipal, hgrants, hsession⟩ := hcandidates first hmem
    exact ⟨⟨hprincipal, hgrants, hunused, .inr hsession⟩, s, hs, hretiring⟩
  | none =>
    refine .bind hE (Ensures.hasKv hE) fun kv _ => ?_
    cases kv with
    | false => exact .pure hE fun _ h => by cases h
    | true =>
      refine .bind hE (.kvGet_true hE _) fun keys _ => ?_
      cases keys with
      | error => exact .pure hE fun _ h => by cases h
      | ok keys =>
        refine Ensures.mono (scanPersistent_ensures hE principal resource permission keys) ?_
        exact fun result hresult token htoken => ⟨hresult token htoken, s, hs, hretiring⟩

theorem check_ensures (hE : Admissible E) (hinv : StoreInv origin start)
    (trustedIssuers : List Bytes) (principal : PrincipalId) (resource : Text)
    (permission : Permission) :
    Ensures origin E verify n start
      (check verify n trustedIssuers principal resource permission)
      fun result => ∀ token, result = some token →
        Found origin E start principal resource permission token ∧
          ∃ s, Grows origin E start s ∧ principal ∉ s.retiring := by
  refine .bind hE (findCapability_ensures hE hinv principal resource permission) ?_
  intro found hfound
  cases found with
  | none => exact .pure hE fun _ h => by cases h
  | some found =>
    refine .bind hE (.read_true hE _) fun valid _ => ?_
    cases valid with
    | error => exact .pure hE fun _ h => by cases h
    | ok =>
      refine .pure hE fun token htoken => ?_
      cases htoken
      exact hfound found rfl

end Results

end Astrid.Capability
