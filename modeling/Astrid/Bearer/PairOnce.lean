import Astrid.Bearer.Pair

/-!
# Pair tokens are spent once

What is left of a token only rises when it is issued. So for a token that is issued once, in any
interleaving of any number of daemons, its two keys are never both present, at most one call
redeems, consumes or revokes it, and after that neither key comes back.
-/

namespace Astrid.Bearer

open Std Calls Capability Ledger

variable {kv : Values} {json : Json DurablePairToken}

/-! ## What batches do to what is left -/

section Weight

variable {state : ReservationState} {hash hash' key : Text} {value : Bytes}

theorem present_erase (kv : Values) (key key' : Text) :
    present (kv.erase key) key' = if key = key' then 0 else present kv key' := by
  unfold present
  rw [getElem?_erase_of]
  by_cases h : key = key'
  · rw [if_pos h, if_pos h]
    rfl
  · rw [if_neg h, if_neg h]

theorem present_insert (kv : Values) (key key' : Text) (value : Bytes) :
    present (kv.insert key value) key' = if key = key' then 1 else present kv key' := by
  unfold present
  rw [getElem?_insert_of]
  by_cases h : key = key'
  · rw [if_pos h, if_pos h]
    rfl
  · rw [if_neg h, if_neg h]

theorem present_of_some (h : kv[key]? = some value) : present kv key = 1 := by
  unfold present
  rw [h]
  rfl

theorem present_erase_le (kv : Values) (key key' : Text) :
    present (kv.erase key) key' ≤ present kv key' := by
  rw [present_erase]
  split
  · exact Nat.zero_le _
  · exact le_rfl

theorem pairWeight_erase_le : pairWeight (kv.erase key) hash ≤ pairWeight kv hash :=
  Nat.add_le_add (present_erase_le _ _ _) (present_erase_le _ _ _)

theorem pairWeight_erase_lt (h : kv[state.key hash]? = some value) :
    pairWeight (kv.erase (state.key hash)) hash < pairWeight kv hash := by
  have hgone : present (kv.erase (state.key hash)) (state.key hash) = 0 := by
    rw [present_erase, if_pos rfl]
  have hhad := present_of_some h
  have hother := fun state' : ReservationState =>
    present_erase_le kv (state.key hash) (state'.key hash)
  have hredeemable := hother .redeemable
  have hreserved := hother .reserved
  unfold pairWeight
  cases state with
  | redeemable | reserved => omega

/-- A key of one token does not count for another. -/
theorem pairWeight_insert_ne (h : hash ≠ hash') :
    pairWeight (kv.insert (state.key hash) value) hash' = pairWeight kv hash' := by
  have hkey : ∀ state' : ReservationState, state.key hash ≠ state'.key hash' :=
    fun state' heq => h (ReservationState.key_inj heq).2
  unfold pairWeight
  rw [present_insert, if_neg (hkey .redeemable), present_insert, if_neg (hkey .reserved)]

theorem pairWeight_insert_le (kv : Values) (state : ReservationState) (hash : Text)
    (value : Bytes) :
    pairWeight (kv.insert (state.key hash) value) hash ≤ pairWeight kv hash + 1 := by
  have hkey : ReservationState.redeemable.key hash ≠ ReservationState.reserved.key hash := by
    intro h
    cases (ReservationState.key_inj h).1
  unfold pairWeight
  rw [present_insert, present_insert]
  cases state with
  | redeemable =>
    rw [if_pos rfl, if_neg hkey]
    omega
  | reserved =>
    rw [if_pos rfl, if_neg hkey.symm]
    omega

/-- A token that moves from one of its keys to the other is still one token. -/
theorem pairWeight_move {state' : ReservationState} (h : kv[state.key hash]? = some value) :
    pairWeight ((kv.erase (state.key hash)).insert (state'.key hash) value) hash' ≤
      pairWeight kv hash' := by
  by_cases hh : hash = hash'
  · subst hh
    have hlt := pairWeight_erase_lt h
    have hle := pairWeight_insert_le (kv.erase (state.key hash)) state' hash value
    omega
  · rw [pairWeight_insert_ne hh]
    exact pairWeight_erase_le

end Weight

/-! ## Calls -/

section Calls

variable {made : Nat → Text → Nat → Prop} {tracked : Text → Prop} {n : Nat}

theorem relies_pair : Relies (pairStore json) (Follows pairWeight made tracked) :=
  relies_follows _ fun _ _ h => h

/-- Deleting what is not entered in the ledger. -/
theorem delete_steady (key : Text) (value : Bytes) :
    Steady (pairStore json) pairWeight made tracked n
      (applyPair n (.deleteExact key value) .nothing)
      fun _ _ => True :=
  .deleteExact relies_pair (fun _ _ _ => pairWeight_erase_le) key value

/-- Deleting one of the keys of a token. -/
theorem spend_steady (state : ReservationState) (hash : Text) (value : Bytes) :
    Steady (pairStore json) pairWeight made tracked n
      (applyPair n (.deleteExact (state.key hash) value) (.spends hash)) fun result s =>
        result = .ok true → ∃ w, (n, hash, w) ∈ s.spent := by
  refine .mono (.applySpends relies_pair (fun _ _ _ => pairWeight_erase_le) fun kv hholds => ?_) ?_
  · exact pairWeight_erase_lt (holds_deleteExact hholds)
  · intro result s h hresult
    obtain ⟨_, _, hspent⟩ := h hresult
    exact ⟨_, hspent⟩

theorem parseTokenHash_eq_ok {value hash : Text} (h : parseTokenHash value = .ok hash) :
    hash = value := by
  unfold parseTokenHash at h
  split at h
  · cases h
    rfl
  · cases h

theorem redeem_steady (tokenHash : Text) :
    Steady (pairStore json) pairWeight made tracked n (redeem json n tokenHash) fun result s =>
      ∀ token, result = .ok (some token) → ∃ w, (n, tokenHash, w) ∈ s.spent := by
  refine .andThen relies_pair .ofOutcome (fun hash hhash => ?_) nofun
  obtain rfl := parseTokenHash_eq_ok hhash.symm
  refine .andThen relies_pair (.get relies_pair) (fun value _ => ?_) nofun
  cases value with
  | none => exact .pure nofun
  | some value =>
    refine .andThen relies_pair .ofOutcome (fun token _ => ?_) nofun
    refine .bind relies_pair .nowEpoch fun now _ => ?_
    split_ifs with hexpired
    · exact .andThen relies_pair (delete_steady _ _) (fun _ _ => .pure nofun)
        nofun
    intro s
    apply Valid.bind relies_pair
    refine (spend_steady .redeemable hash value s).mono fun result s' hs' => ?_
    cases result with
    | error => exact Valid.pure nofun
    | ok applied =>
      refine Valid.pure fun s'' hs'' token' htoken' => ?_
      cases applied with
      | false => cases htoken'
      | true =>
        obtain ⟨w, hspent⟩ := hs' rfl
        exact ⟨w, hs''.spent.subset hspent⟩

theorem redeemable_steady (tokenHash : Text) :
    Steady (pairStore json) pairWeight made tracked n
      (redeemable json tokenHash) fun _ _ => True := by
  refine .andThen relies_pair .ofOutcome fun hash _ => ?_
  refine .andThen relies_pair (.get relies_pair) fun value _ => ?_
  cases value with
  | none => exact .pure
  | some =>
    refine .andThen relies_pair .ofOutcome fun token _ => ?_
    exact .bind relies_pair .nowEpoch fun now _ => .pure

/-- The three operations on a reservation, with what their batch ensures. -/
theorem withExpected_steady (expected : DurablePairToken) {batch : Text → Bytes → Batch}
    {note : Text → Note} {Q : Outcome Bool → Store → Prop}
    (hbatch : ∀ value, Steady (pairStore json) pairWeight made tracked n
      (applyPair n (batch expected.tokenHash value) (note expected.tokenHash)) Q)
    (hfalse : ∀ s, Q (.ok false) s := by intros; trivial)
    (herror : ∀ e s, Q (.error e) s := by intros; trivial) :
    Steady (pairStore json) pairWeight made tracked n
      (withExpected json n expected batch note) Q := by
  refine .bind relies_pair .nowEpoch fun now _ => ?_
  split_ifs with hexpired
  · exact .pure hfalse
  refine .andThen relies_pair .ofOutcome (fun value _ => ?_) herror
  refine .andThen relies_pair .ofOutcome (fun hash hhash => ?_) herror
  obtain rfl := parseTokenHash_eq_ok hhash.symm
  exact hbatch value

theorem reserve_steady (expected : DurablePairToken) :
    Steady (pairStore json) pairWeight made tracked n (reserveIfUnchanged json n expected)
      fun _ _ => True := by
  refine withExpected_steady expected fun value => ?_
  refine .applyQuiet relies_pair fun kv hholds hash => ?_
  have hhad : kv[ReservationState.redeemable.key expected.tokenHash]? = some value :=
    hholds (_, some value) List.mem_cons_self
  show pairWeight ((kv.erase (ReservationState.redeemable.key expected.tokenHash)).insert
    (ReservationState.reserved.key expected.tokenHash) value) hash ≤ pairWeight kv hash
  exact pairWeight_move hhad

theorem release_steady (expected : DurablePairToken) :
    Steady (pairStore json) pairWeight made tracked n (releaseReservation json n expected)
      fun _ _ => True := by
  refine withExpected_steady expected fun value => ?_
  refine .applyQuiet relies_pair fun kv hholds hash => ?_
  -- The batch sets the record before it deletes the reservation.
  have hkey : ReservationState.redeemable.key expected.tokenHash ≠
      ReservationState.reserved.key expected.tokenHash := by
    intro h
    cases (ReservationState.key_inj h).1
  have hswap : (kv.insert (ReservationState.redeemable.key expected.tokenHash) value).erase
      (ReservationState.reserved.key expected.tokenHash) =
        (kv.erase (ReservationState.reserved.key expected.tokenHash)).insert
          (ReservationState.redeemable.key expected.tokenHash) value := by
    apply ExtTreeMap.ext_getElem?
    intro key
    rw [getElem?_erase_of, getElem?_insert_of, getElem?_insert_of, getElem?_erase_of]
    by_cases h : ReservationState.reserved.key expected.tokenHash = key
    · rw [if_pos h, if_pos h, if_neg (fun h' => hkey (h'.trans h.symm))]
    · rw [if_neg h, if_neg h]
  show pairWeight ((kv.insert (ReservationState.redeemable.key expected.tokenHash) value).erase
    (ReservationState.reserved.key expected.tokenHash)) hash ≤ pairWeight kv hash
  have hhad : kv[ReservationState.reserved.key expected.tokenHash]? = some value :=
    hholds (_, some value) List.mem_cons_self
  rw [hswap]
  exact pairWeight_move hhad

theorem consume_steady (expected : DurablePairToken) :
    Steady (pairStore json) pairWeight made tracked n
      (consumeReservation json n expected) fun result s =>
      result = .ok true → ∃ w, (n, expected.tokenHash, w) ∈ s.spent :=
  withExpected_steady expected (fun value => spend_steady .reserved expected.tokenHash value)
    nofun nofun

theorem revokeAt_steady (state : ReservationState) (hash : Text) (value : Bytes) :
    Steady (pairStore json) pairWeight made tracked n
      (revokeAt json n state hash value) fun result s =>
      result = .ok true → ∃ w, (n, hash, w) ∈ s.spent :=
  .andThen relies_pair .ofOutcome (fun _ _ => spend_steady state hash value)
    nofun

theorem revoke_steady (tokenHash : Text) :
    Steady (pairStore json) pairWeight made tracked n (revoke json n tokenHash) fun result s =>
      result = .ok true → ∃ w, (n, tokenHash, w) ∈ s.spent := by
  refine .andThen relies_pair .ofOutcome (fun hash hhash => ?_) nofun
  obtain rfl := parseTokenHash_eq_ok hhash.symm
  refine .andThen relies_pair (.get relies_pair) (fun value _ => ?_) nofun
  cases value with
  | some value => exact revokeAt_steady .redeemable hash value
  | none =>
    refine .andThen relies_pair (.get relies_pair) (fun value _ => ?_) nofun
    cases value with
    | some value => exact revokeAt_steady .reserved hash value
    | none => exact .pure nofun

theorem pruneReservations_steady (now : Nat) (keys : List Text) :
    Steady (pairStore json) pairWeight made tracked n (pruneReservations json n now keys)
      fun _ _ => True := by
  induction keys with
  | nil => exact .pure
  | cons key _ ih =>
    refine .andThen relies_pair (.get relies_pair) fun value _ => ?_
    cases value with
    | none => exact ih
    | some value =>
      refine .andThen relies_pair .ofOutcome fun token _ => ?_
      split_ifs with hlater
      · exact ih
      · refine .andThen relies_pair (delete_steady key value) fun _ _ => ?_
        exact .andThen relies_pair ih fun _ _ => .pure

theorem prune_steady :
    Steady (pairStore json) pairWeight made tracked n (prune json n) fun _ _ => True := by
  refine .andThen relies_pair (.readKv relies_pair) fun keys _ => ?_
  refine .bind relies_pair .nowEpoch fun now _ => ?_
  refine .andThen relies_pair (pruneReservations_steady now keys) fun _ _ => ?_
  refine .andThen relies_pair (.list relies_pair) fun records _ => ?_
  exact .andThen relies_pair (.pruneRecords relies_pair (fun _ _ _ => pairWeight_erase_le) records)
    fun _ _ => .pure

/-- What an operation issues. -/
def pairAmount : PairOp → Option (Text × Nat)
  | .issue token => some (token.tokenHash, 1)
  | _ => none

theorem issue_valid {ops : Nat → PairOp} {token : DurablePairToken} (hop : ops n = .issue token)
    {s : Store} (hnew : ∀ h k, (n, h, k) ∉ s.issued) :
    Valid (pairStore json) (Follows pairWeight (Made pairAmount ops) tracked) n
      (issue json n token) s
      fun _ _ => True := by
  have hr : Relies (pairStore json) (Follows pairWeight (Made pairAmount ops) tracked) :=
    relies_pair
  apply Valid.bind hr
  refine Valid.pure fun s₁ hs₁ => ?_
  cases (DurablePairToken.schema json).encode token with
  | error => exact Valid.pure fun _ _ => trivial
  | ok value =>
    apply Valid.bind hr
    refine Valid.pure fun s₂ hs₂ => ?_
    cases hparse : parseTokenHash token.tokenHash with
    | error => exact Valid.pure fun _ _ => trivial
    | ok =>
      obtain rfl := parseTokenHash_eq_ok hparse
      refine applyIssues_valid hr (congrArg pairAmount hop) (fun kv _ hash' hne => ?_)
        (fun kv _ => ?_) ?_
      · show pairWeight (kv.insert (ReservationState.redeemable.key token.tokenHash) value) hash' ≤
          pairWeight kv hash'
        rw [pairWeight_insert_ne hne.symm]
      · exact pairWeight_insert_le kv .redeemable token.tokenHash value
      · exact fun h k hk => hnew h k ((hs₁.trans hs₂).own h k hk)

/-- A call that has taken the token for good. -/
def spends (hash : Text) : PairOp → PairAnswer → Bool
  | .redeem tokenHash, .token (.ok (some _)) => tokenHash = hash
  | .consumeReservation expected, .changed (.ok true) => expected.tokenHash = hash
  | .revoke tokenHash, .changed (.ok true) => tokenHash = hash
  | _, _ => false

/-- A call that has taken the token is in the ledger. -/
def Logged (n : Nat) (op : PairOp) (a : PairAnswer) (s : Store) : Prop :=
  ∀ hash, spends hash op a = true → ∃ w, (n, hash, w) ∈ s.spent

theorem sound_pair (tracked : Text → Prop) (ops : Nat → PairOp) :
    Sound (pairStore json) (Follows pairWeight (Made pairAmount ops) tracked)
      (Kept pairWeight (Made pairAmount ops) tracked) (Unentered ops) Logged := by
  refine sound_ledger (fun _ _ h => h) (fun _ _ h => h) ?_ ?_
  · intro n op a l l' hspent h hash hspends
    obtain ⟨w, hw⟩ := h hash hspends
    exact ⟨w, hspent.subset hw⟩
  intro n op s hop hnew
  cases op with
  | issue => exact .map ((issue_valid hop hnew).mono nofun)
  | redeem tokenHash =>
    refine .map ((redeem_steady tokenHash s).mono fun result s' h hash hspends => ?_)
    cases result with
    | error => cases hspends
    | ok token =>
      cases token with
      | none => cases hspends
      | some token =>
        rw [← of_decide_eq_true hspends]
        exact h token rfl
  | redeemable tokenHash => exact .map ((redeemable_steady tokenHash s).mono nofun)
  | reserveIfUnchanged expected =>
    exact .map ((reserve_steady expected s).mono nofun)
  | releaseReservation expected =>
    exact .map ((release_steady expected s).mono nofun)
  | consumeReservation expected =>
    refine .map ((consume_steady expected s).mono fun result s' h hash hspends => ?_)
    cases result with
    | error => cases hspends
    | ok applied =>
      cases applied with
      | false => cases hspends
      | true =>
        rw [← of_decide_eq_true hspends]
        exact h rfl
  | revoke tokenHash =>
    refine .map ((revoke_steady tokenHash s).mono fun result s' h hash hspends => ?_)
    cases result with
    | error => cases hspends
    | ok applied =>
      cases applied with
      | false => cases hspends
      | true =>
        rw [← of_decide_eq_true hspends]
        exact h rfl
  | prune => exact .map ((prune_steady s).mono nofun)

end Calls

/-! ## Runs -/

/-- The event of a call that has taken the token for good. -/
def spendsEvent (hash : Text) : Event PairOp PairAnswer → Bool
  | .returned _ op a => spends hash op a
  | _ => false

/-- Neither the record nor the reservation of the token is present. -/
def Absent (kv : Values) (hash : Text) : Prop :=
  ∀ state : ReservationState, kv[state.key hash]? = none

theorem pairWeight_eq_zero {kv : Values} {hash : Text} :
    pairWeight kv hash = 0 ↔ Absent kv hash := by
  have hpresent : ∀ key, present kv key = 0 ↔ kv[key]? = none := by
    intro key
    unfold present
    cases kv[key]? with
    | none | some => simp
  unfold pairWeight
  rw [Nat.add_eq_zero_iff, hpresent, hpresent]
  constructor
  · intro h state
    cases state with
    | redeemable => exact h.1
    | reserved => exact h.2
  · exact fun h => ⟨h .redeemable, h .reserved⟩

section Run

variable {hash : Text} {events : List (Event PairOp PairAnswer)}
  {sys : System Store PairOp PairAnswer}

/-- At the end of a run in which the token is issued once, there is at most one of its two keys
and of the calls that took it. -/
theorem pair_reached (habsent : Absent kv hash)
    (h : Run (pairStore json) ⟨⟨kv, [], []⟩, fun _ => none, 0⟩ events sys)
    (honce : IssuedOnce pairAmount hash events) :
    pairWeight sys.shared.store hash + (sys.shared.spentOf hash).length ≤ 1 ∧
      ∀ n op a, .returned n op a ∈ events → Logged n op a sys.shared := by
  obtain ⟨ops, hops, hcalled⟩ := h.exists_ops .prune
  obtain ⟨hkept, _, _, hreturned⟩ := reached (sound_pair (· = hash) ops)
    (pairWeight_eq_zero.2 habsent) h hops
  refine ⟨?_, hreturned⟩
  rcases hkept.issuedOf_once honce rfl hcalled with hnone | ⟨_, op, k, hone, _, hamount⟩
  · obtain ⟨hzero, hspent⟩ := hkept.before hash rfl hnone
    rw [hzero, hspent]
    exact Nat.zero_le _
  have hunits : _ ≤ k := hkept.units rfl hone
  have hk : k = 1 := by
    cases op with
    | issue => exact (Prod.ext_iff.1 (Option.some.inj hamount)).2.symm
    | _ => cases hamount
  rwa [hk] at hunits

/-- What holds of a run in which a pair token is issued once. -/
structure PairOnce (hash : Text) (events : List (Event PairOp PairAnswer)) (kv : Values) :
    Prop where
  separate : ¬ ((kv[ReservationState.redeemable.key hash]?).isSome ∧
    (kv[ReservationState.reserved.key hash]?).isSome)
  once : events.countP (spendsEvent hash) ≤ 1
  gone : 0 < events.countP (spendsEvent hash) → Absent kv hash

theorem pairOnce (habsent : Absent kv hash)
    (h : Run (pairStore json) ⟨⟨kv, [], []⟩, fun _ => none, 0⟩ events sys)
    (honce : IssuedOnce pairAmount hash events) : PairOnce hash events sys.shared.store := by
  obtain ⟨_, hlogged⟩ := pair_reached habsent h honce
  have hcount : events.countP (spendsEvent hash) ≤ (sys.shared.spentOf hash).length := by
    refine countP_le_spentOf h fun e he hspends => ?_
    cases e with
    | returned n op a =>
      obtain ⟨w, hw⟩ := hlogged n op a he hash hspends
      exact ⟨n, w, rfl, hw⟩
    | called | restarted => cases hspends
  refine ⟨fun hboth => ?_, by omega, fun hpos => pairWeight_eq_zero.1 (by omega)⟩
  have hpresent : pairWeight sys.shared.store hash = 2 := by
    unfold pairWeight present
    rw [if_pos hboth.1, if_pos hboth.2]
  omega

end Run

end Astrid.Bearer
