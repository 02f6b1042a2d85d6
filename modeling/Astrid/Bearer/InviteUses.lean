import Astrid.Bearer.Invite

/-!
# Invites are used as often as they allow

The uses that are left of an invite rise only when it is issued, and each batch that takes a use
finds exactly the record that was inspected. So for an invite that is issued once, in any
interleaving of any number of daemons, each success finds fewer uses than the one before it, and
there are no more successes than uses.
-/

namespace Astrid.Bearer.Invite

open Std Calls Capability Ledger List

variable {json : Json Invite} {kv : Values} {invite : Invite}

/-! ## What batches do to the remaining uses -/

section Remaining

variable {hash hash' : Text} {value : Bytes}

theorem key_inj (h : key hash = key hash') : hash = hash' := append_cancel_left h

theorem remaining_of_none (h : kv[key hash]? = none) : remaining json kv hash = 0 := by
  unfold remaining
  rw [h]

theorem remaining_of_some (h : kv[key hash]? = some value)
    (hdecode : (schema json).decode value = .ok invite) :
    remaining json kv hash = invite.remainingUses := by
  unfold remaining
  rw [h]
  simp only [hdecode]

/-- Only what is stored under its key counts for an invite. -/
theorem remaining_congr {kv' : Values} (h : kv[key hash]? = kv'[key hash]?) :
    remaining json kv hash = remaining json kv' hash := by
  unfold remaining
  rw [h]

theorem remaining_erase_le (kv : Values) (k hash : Text) :
    remaining json (kv.erase k) hash ≤ remaining json kv hash := by
  by_cases h : k = key hash
  · rw [remaining_of_none]
    · exact Nat.zero_le _
    · rw [getElem?_erase_of, if_pos h]
  · rw [remaining_congr]
    rw [getElem?_erase_of, if_neg h]

theorem remaining_insert_ne (h : hash ≠ hash') :
    remaining json (kv.insert (key hash) value) hash' = remaining json kv hash' := by
  apply remaining_congr
  rw [getElem?_insert_of, if_neg fun heq => h (key_inj heq)]

theorem remaining_insert (hencode : (schema json).encode invite = .ok value) :
    remaining json (kv.insert (key hash) value) hash = invite.remainingUses := by
  refine remaining_of_some ?_ ((schema json).decode_encode hencode)
  rw [getElem?_insert_of, if_pos rfl]

/-- A batch that takes one use of the invite. -/
structure TakesUse (json : Json Invite) (hash : Text) (invite : Invite) (batch : Batch) : Prop where
  found : ∀ kv, batch.Holds kv → remaining json kv hash = invite.remainingUses
  others : ∀ kv, batch.Holds kv → ∀ hash', remaining json (batch.run kv) hash' ≤
    remaining json kv hash'
  lower : ∀ kv, batch.Holds kv → remaining json (batch.run kv) hash < remaining json kv hash

theorem takesUse_useBatch {batch : Batch}
    (hbatch : useBatch json (key hash) invite value = .ok batch)
    (hdecode : (schema json).decode value = .ok invite) (huses : invite.remainingUses ≠ 0) :
    TakesUse json hash invite batch := by
  unfold useBatch at hbatch
  dsimp only at hbatch
  split at hbatch
  next hlast =>
    cases hbatch
    have hfound : ∀ kv, (Batch.deleteExact (key hash) value).Holds kv →
        remaining json kv hash = invite.remainingUses :=
      fun kv hholds => remaining_of_some (holds_deleteExact hholds) hdecode
    refine ⟨hfound, fun kv _ hash' => remaining_erase_le kv _ hash', fun kv hholds => ?_⟩
    have hgone : remaining json (kv.erase (key hash)) hash = 0 := by
      apply remaining_of_none
      rw [getElem?_erase_of, if_pos rfl]
    show remaining json (kv.erase (key hash)) hash < remaining json kv hash
    rw [hgone, hfound kv hholds]
    exact Nat.pos_of_ne_zero huses
  next hmore =>
    obtain ⟨value', hencode, hbatch⟩ := bind_eq_ok.1 hbatch
    cases hbatch
    have hfound : ∀ kv, (Batch.mk [(key hash, some value)] [(key hash, some value')]).Holds kv →
        remaining json kv hash = invite.remainingUses := by
      intro kv hholds
      have hhad : kv[key hash]? = some value := hholds (_, some value) mem_cons_self
      exact remaining_of_some hhad hdecode
    have hless : ∀ kv : Values, remaining json (kv.insert (key hash) value') hash =
        invite.remainingUses - 1 := fun kv => remaining_insert hencode
    refine ⟨hfound, fun kv hholds hash' => ?_, fun kv hholds => ?_⟩
    · show remaining json (kv.insert (key hash) value') hash' ≤ remaining json kv hash'
      by_cases hh : hash = hash'
      · subst hh
        rw [hless, hfound kv hholds]
        exact Nat.sub_le _ _
      · rw [remaining_insert_ne hh]
    · show remaining json (kv.insert (key hash) value') hash < remaining json kv hash
      rw [hless, hfound kv hholds]
      omega

end Remaining

/-! ## Calls -/

section Calls

variable {made : Nat → Text → Nat → Prop} {tracked : Text → Prop} {n : Nat}

theorem relies_invite : Relies (inviteStore json) (Follows (remaining json) made tracked) :=
  relies_follows _ fun _ _ h => h

theorem delete_steady (key : Text) (value : Bytes) :
    Steady (inviteStore json) (remaining json) made tracked n
      (applyInvite json n (.deleteExact key value) .nothing) fun _ _ => True :=
  .deleteExact relies_invite remaining_erase_le key value

variable {hash : Text}

/-- A batch that takes a use enters the number of uses it found. -/
theorem use_steady {batch : Batch} (h : TakesUse json hash invite batch) :
    Steady (inviteStore json) (remaining json) made tracked n
      (applyInvite json n batch (.spends hash)) fun result s =>
        result = .ok true → (n, hash, invite.remainingUses) ∈ s.spent := by
  refine .mono (.applySpends relies_invite h.others h.lower) fun result s hs hresult => ?_
  obtain ⟨kv, hholds, hspent⟩ := hs hresult
  rwa [h.found kv hholds] at hspent

theorem uses_of_not_isOver {now : Nat} (h : ¬ invite.isOver now = true) :
    invite.remainingUses ≠ 0 := by
  intro hzero
  apply h
  unfold isOver
  rw [hzero]
  rfl

theorem redeem_steady (tokenHash : Text) :
    Steady (inviteStore json) (remaining json) made tracked n (redeem json n tokenHash)
      fun result s => ∀ invite, result = .ok (some invite) →
        (n, tokenHash, invite.remainingUses) ∈ s.spent := by
  refine .andThen relies_invite (.get relies_invite) (fun value _ => ?_) nofun
  cases value with
  | none => exact .pure nofun
  | some =>
    refine .andThen relies_invite .ofOutcome (fun invite hdecode => ?_) nofun
    refine .bind relies_invite .nowEpoch fun now _ => ?_
    split_ifs with hover
    · exact .andThen relies_invite (delete_steady _ _) (fun _ _ => .pure nofun)
        nofun
    refine .andThen relies_invite .ofOutcome (fun batch hbatch => ?_) nofun
    have htakes := takesUse_useBatch hbatch.symm hdecode.symm (uses_of_not_isOver hover)
    intro s
    apply Valid.bind relies_invite
    refine (use_steady htakes s).mono fun result s' hs' => ?_
    cases result with
    | error => exact Valid.pure nofun
    | ok applied =>
      refine Valid.pure fun s'' hs'' invite' hinvite' => ?_
      cases applied with
      | false => cases hinvite'
      | true =>
        cases hinvite'
        exact hs''.spent.subset (hs' rfl)

theorem redeemable_steady (tokenHash : Text) :
    Steady (inviteStore json) (remaining json) made tracked n (redeemable json tokenHash)
      fun _ _ => True := by
  refine .andThen relies_invite (.get relies_invite) fun value _ => ?_
  cases value with
  | none => exact .pure
  | some =>
    refine .andThen relies_invite .ofOutcome fun invite _ => ?_
    exact .bind relies_invite .nowEpoch fun now _ => .pure

/-- The batch of a two-step redemption takes a use of the invite that was inspected. -/
theorem consumptionBatch_steady (expected : Invite) :
    Steady (inviteStore json) (remaining json) made tracked n (consumptionBatch json expected)
      fun result _ => ∀ batch, result = .ok (some batch) →
        TakesUse json expected.tokenHash expected batch := by
  refine .bind relies_invite .nowEpoch fun now _ => ?_
  split_ifs with hover
  · exact .pure nofun
  refine .andThen relies_invite .ofOutcome (fun value hvalue => ?_) nofun
  refine .mono .ofOutcome fun result s hresult batch hbatch => ?_
  rw [hbatch] at hresult
  cases huse : useBatch json (key expected.tokenHash) expected value with
  | error =>
    rw [huse] at hresult
    cases hresult
  | ok =>
    rw [huse] at hresult
    cases hresult
    exact takesUse_useBatch huse ((schema json).decode_encode hvalue.symm)
      (uses_of_not_isOver hover)

theorem consumeIfUnchanged_steady (expected : Invite) :
    Steady (inviteStore json) (remaining json) made tracked n (consumeIfUnchanged json n expected)
      fun result s => result = .ok true →
        (n, expected.tokenHash, expected.remainingUses) ∈ s.spent := by
  refine .andThen relies_invite (consumptionBatch_steady expected) (fun batch hbatch => ?_)
    nofun
  cases batch with
  | none => exact .pure nofun
  | some batch => exact use_steady (hbatch batch rfl)

theorem consumeWithOwnership_steady (expected : Invite) :
    Steady (inviteStore json) (remaining json) made tracked n (consumeWithOwnership json n expected)
      fun result s => result = .ok true →
        (n, expected.tokenHash, expected.remainingUses) ∈ s.spent := by
  unfold consumeWithOwnership
  cases expected.ownership with
  | none => exact .pure nofun
  | some =>
    refine .andThen relies_invite (consumptionBatch_steady expected) (fun batch hbatch => ?_)
      nofun
    cases batch with
    | none => exact .pure nofun
    | some batch =>
      refine .bind relies_invite .pick fun graph _ => ?_
      by_cases hfail : graph = 0
      · rw [if_pos hfail]
        exact .pure nofun
      rw [if_neg hfail]
      split_ifs with hrefused
      · exact .pure nofun
      · exact use_steady (hbatch batch rfl)

theorem revoke_steady (tokenHash : Text) :
    Steady (inviteStore json) (remaining json) made tracked n (revoke json n tokenHash)
      fun _ _ => True := by
  refine .andThen relies_invite (.get relies_invite) fun value _ => ?_
  cases value with
  | none => exact .pure
  | some value =>
    exact .andThen relies_invite .ofOutcome fun _ _ => delete_steady _ value

theorem prune_steady :
    Steady (inviteStore json) (remaining json) made tracked n (prune json n) fun _ _ => True := by
  refine .andThen relies_invite (.list relies_invite) fun records _ => ?_
  refine .bind relies_invite .nowEpoch fun now _ => ?_
  exact .pruneRecords relies_invite remaining_erase_le records

/-- What an operation issues. -/
def amount : Op → Option (Text × Nat)
  | .issue invite => some (invite.tokenHash, invite.remainingUses)
  | _ => none

variable {s : Store}

theorem issue_valid {ops : Nat → Op} (hop : ops n = .issue invite)
    (hnew : ∀ h k, (n, h, k) ∉ s.issued) :
    Valid (inviteStore json) (Follows (remaining json) (Made amount ops) tracked) n
      (issue json n invite) s fun _ _ => True := by
  apply Valid.bind relies_invite
  refine Valid.pure fun s₁ hs₁ => ?_
  cases hvalue : (schema json).encode invite with
  | error => exact Valid.pure fun _ _ => trivial
  | ok value =>
    refine applyIssues_valid relies_invite (congrArg amount hop) (fun kv _ hash' hne => ?_)
      (fun kv _ => ?_) fun h k hk => hnew h k (hs₁.own h k hk)
    · show remaining json (kv.insert (key invite.tokenHash) value) hash' ≤ _
      rw [remaining_insert_ne hne.symm]
    · show remaining json (kv.insert (key invite.tokenHash) value) invite.tokenHash ≤ _
      rw [remaining_insert hvalue]
      exact Nat.le_add_left _ _

/-- The uses that a call found when it took one. -/
def takes (hash : Text) : Op → Answer → Option Nat
  | .redeem tokenHash, .invite (.ok (some invite)) =>
    if tokenHash = hash then some invite.remainingUses else none
  | .consumeIfUnchanged expected, .changed (.ok true) =>
    if expected.tokenHash = hash then some expected.remainingUses else none
  | .consumeWithOwnership expected, .changed (.ok true) =>
    if expected.tokenHash = hash then some expected.remainingUses else none
  | _, _ => none

/-- A call that took a use is in the ledger, with the number it found. -/
def Logged (n : Nat) (op : Op) (a : Answer) (s : Store) : Prop :=
  ∀ hash w, takes hash op a = some w → (n, hash, w) ∈ s.spent

theorem logged_of_changed {expected : Invite} {result : Outcome Bool} {w : Nat}
    (h : result = .ok true → (n, expected.tokenHash, expected.remainingUses) ∈ s.spent)
    (htrue : result = .ok true)
    (htakes : (if expected.tokenHash = hash then some expected.remainingUses else none) = some w) :
    (n, hash, w) ∈ s.spent := by
  split at htakes
  next hh =>
    cases htakes
    rw [← hh]
    exact h htrue
  next => cases htakes

theorem sound_invite (tracked : Text → Prop) (ops : Nat → Op) :
    Sound (inviteStore json) (Follows (remaining json) (Made amount ops) tracked)
      (Kept (remaining json) (Made amount ops) tracked) (Unentered ops) Logged := by
  refine sound_ledger (fun _ _ h => h) (fun _ _ h => h) ?_ ?_
  · exact fun n op a l l' hspent h hash w htakes => hspent.subset (h hash w htakes)
  intro n op s hop hnew
  cases op with
  | issue => exact .map ((issue_valid hop hnew).mono nofun)
  | redeem tokenHash =>
    refine .map ((redeem_steady tokenHash s).mono fun result s' h hash w htakes => ?_)
    match result, htakes with
    | .ok (some invite), htakes =>
      change (if tokenHash = hash then some invite.remainingUses else none) = some w at htakes
      split at htakes
      next hh =>
        cases htakes
        rw [← hh]
        exact h invite rfl
      next => cases htakes
  | redeemable tokenHash =>
    exact .map ((redeemable_steady tokenHash s).mono nofun)
  | consumeIfUnchanged expected =>
    refine .map ((consumeIfUnchanged_steady expected s).mono fun result s' h hash w htakes => ?_)
    match result, h, htakes with
    | .ok true, h, htakes => exact logged_of_changed h rfl htakes
  | consumeWithOwnership expected =>
    refine .map ((consumeWithOwnership_steady expected s).mono fun result s' h hash w htakes => ?_)
    match result, h, htakes with
    | .ok true, h, htakes => exact logged_of_changed h rfl htakes
  | revoke tokenHash => exact .map ((revoke_steady tokenHash s).mono nofun)
  | prune => exact .map ((prune_steady s).mono nofun)

end Calls

/-! ## Runs -/

/-- The event of a call that took a use. -/
def takesEvent (hash : Text) : Event Op Answer → Bool
  | .returned _ op a => (takes hash op a).isSome
  | _ => false

section Run

variable {hash : Text} {uses : Nat} {events : List (Event Op Answer)} {sys : System Store Op Answer}

/-- What holds of a run in which an invite is issued once: successes are entered with the uses
they found, which fall with every entry, and what is stored is below them. -/
structure UsedWithin (json : Json Invite) (hash : Text) (uses : Nat)
    (events : List (Event Op Answer)) (s : Store) : Prop where
  bounded : events.countP (takesEvent hash) ≤ uses
  entered : ∀ n op a w, .returned n op a ∈ events → takes hash op a = some w →
    (n, hash, w) ∈ s.spent
  falls : (remaining json s.store hash :: s.lefts hash).Pairwise (· < ·)
  within : ∀ w ∈ remaining json s.store hash :: s.lefts hash, w ≤ uses

theorem usedWithin (habsent : kv[key hash]? = none)
    (h : Run (inviteStore json) ⟨⟨kv, [], []⟩, fun _ => none, 0⟩ events sys)
    (honce : IssuedOnce amount hash events)
    (huses : ∀ n invite, .called n (.issue invite) ∈ events → invite.tokenHash = hash →
      invite.remainingUses = uses) :
    UsedWithin json hash uses events sys.shared := by
  obtain ⟨ops, hops, hcalled⟩ := h.exists_ops .prune
  obtain ⟨hkept, _, _, hlogged⟩ := reached (sound_invite (· = hash) ops)
    (remaining_of_none habsent) h hops
  have hcount : events.countP (takesEvent hash) ≤ (sys.shared.spentOf hash).length := by
    refine countP_le_spentOf h fun e he htakes => ?_
    cases e with
    | returned n op a =>
      obtain ⟨w, hw⟩ := Option.isSome_iff_exists.1 htakes
      exact ⟨n, w, rfl, hlogged n op a he hash w hw⟩
    | called | restarted => cases htakes
  have hentered : ∀ n op a w, .returned n op a ∈ events → takes hash op a = some w →
      (n, hash, w) ∈ sys.shared.spent := fun n op a w he hw => hlogged n op a he hash w hw
  rcases hkept.issuedOf_once honce rfl hcalled with hnone | ⟨n, op, k, hone, hcall, hamount⟩
  · -- Nothing was issued, so there is nothing to take.
    obtain ⟨hzero, hspent⟩ := hkept.before hash rfl hnone
    have hlefts : sys.shared.lefts hash = [] := by
      unfold lefts
      rw [hspent, map_nil]
    rw [hspent] at hcount
    refine ⟨Nat.le_trans hcount (Nat.zero_le _), hentered, ?_, ?_⟩
    · rw [hlefts]
      exact pairwise_singleton _ _
    · intro w hw
      rw [hlefts, hzero, mem_singleton] at hw
      rw [hw]
      exact Nat.zero_le _
  · have hk : k = uses := by
      cases op with
      | issue invite =>
        cases hamount
        exact huses n invite hcall rfl
      | _ => cases hamount
    subst hk
    obtain ⟨hfalls, hwithin⟩ := hkept.descends hash _ rfl hone
    have hunits : _ ≤ k := hkept.units rfl hone
    exact ⟨by omega, hentered, hfalls, hwithin⟩

end Run

end Astrid.Bearer.Invite
