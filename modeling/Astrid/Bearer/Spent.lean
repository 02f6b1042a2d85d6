import Astrid.Bearer.PairOnce
import Astrid.Bearer.InviteUses

/-!
# Bearer tokens are spent within what was issued

The two stores together, for every number of daemons and every interleaving of their reads and
batches. Runs on fixed tokens use a plain encoding in place of JSON: a number of ones closed by
a zero, three bytes for a character, a count in front of a list.
-/

namespace Astrid.Bearer

open Std Calls Capability Ledger List ExtTreeMap

/-! ## A plain encoding -/

/-- A way to write values such that what follows does not matter to a reader. -/
structure Codec (α : Type) where
  put : α → Bytes
  take : Bytes → Option (α × Bytes)
  take_put : ∀ a rest, take (put a ++ rest) = some (a, rest)

namespace Codec

variable {α β : Type}

def putNat : Nat → Bytes
  | 0 => [0]
  | k + 1 => 1 :: putNat k

def takeNat : Bytes → Option (Nat × Bytes)
  | [] => none
  | b :: rest => if b = 0 then some (0, rest) else (takeNat rest).map fun p => (p.1 + 1, p.2)

theorem takeNat_putNat (k : Nat) (rest : Bytes) : takeNat (putNat k ++ rest) = some (k, rest) := by
  induction k with
  | zero => rfl
  | succ _ ih => simp [putNat, takeNat, ih]

def nat : Codec Nat := ⟨putNat, takeNat, takeNat_putNat⟩

def byte : Codec UInt8 where
  put b := [b]
  take bytes :=
    match bytes with
    | [] => none
    | b :: rest => some (b, rest)
  take_put _ _ := rfl

def pair (c : Codec α) (d : Codec β) : Codec (α × β) where
  put p := c.put p.1 ++ d.put p.2
  take bytes := do
    let (a, rest) ← c.take bytes
    let (b, rest) ← d.take rest
    some ((a, b), rest)
  take_put p rest := by
    rw [List.append_assoc, c.take_put]
    show (d.take (d.put p.2 ++ rest)).bind _ = _
    rw [d.take_put]
    rfl

/-- Values that are written as values of another type. -/
def via (c : Codec α) (into : β → α) (back : α → β) (h : ∀ b, back (into b) = b) : Codec β where
  put b := c.put (into b)
  take bytes := (c.take bytes).map fun p => (back p.1, p.2)
  take_put b rest := by
    rw [c.take_put, Option.map_some, h]

def takeMany (c : Codec α) : Nat → Bytes → Option (List α × Bytes)
  | 0, bytes => some ([], bytes)
  | k + 1, bytes => do
    let (a, rest) ← c.take bytes
    let (as, rest) ← takeMany c k rest
    some (a :: as, rest)

theorem takeMany_put (c : Codec α) (as : List α) (rest : Bytes) :
    takeMany c as.length (as.flatMap c.put ++ rest) = some (as, rest) := by
  induction as with
  | nil => rfl
  | cons _ as ih =>
    rw [flatMap_cons, append_assoc, length_cons, takeMany, c.take_put]
    show (takeMany c as.length (as.flatMap c.put ++ rest)).bind _ = _
    rw [ih]
    rfl

def many (c : Codec α) : Codec (List α) where
  put as := putNat as.length ++ as.flatMap c.put
  take bytes := (takeNat bytes).bind fun p => takeMany c p.1 p.2
  take_put as rest := by
    rw [List.append_assoc, takeNat_putNat]
    exact takeMany_put c as rest

def char : Codec Char :=
  (pair byte (pair byte byte)).via
    (fun c => (UInt8.ofNat (c.toNat / 65536), UInt8.ofNat (c.toNat / 256 % 256),
      UInt8.ofNat (c.toNat % 256)))
    (fun p => Char.ofNat (p.1.toNat * 65536 + (p.2.1.toNat * 256 + p.2.2.toNat)))
    (by
      intro c
      have hvalid : c.toNat < 1114112 := by
        have hc := c.valid
        unfold UInt32.isValidChar Nat.isValidChar at hc
        show c.val.toNat < 1114112
        omega
      simp only [UInt8.toNat_ofNat']
      rw [Nat.mod_eq_of_lt (by omega), Nat.mod_mod, Nat.mod_mod]
      have hsum : c.toNat / 65536 * 65536 + (c.toNat / 256 % 256 * 256 + c.toNat % 256) =
          c.toNat := by omega
      rw [hsum]
      exact Char.ofNat_toNat c)

def option (c : Codec α) : Codec (Option α) :=
  (many c).via Option.toList List.head? fun a => by cases a <;> rfl

def text : Codec Text := many char

/-- The encoding with nothing after it. -/
def json (c : Codec α) : Json α where
  toVec := c.put
  fromSlice bytes := (c.take bytes).map Prod.fst
  round_trip a := by
    have h := c.take_put a []
    rw [List.append_nil] at h
    rw [h]
    rfl

end Codec

open Codec in
def scopeCodec : Codec DeviceScope :=
  (option (pair (many text) (many text))).via
    (fun scope =>
      match scope with
      | .full => none
      | .scoped allow deny => some (allow, deny))
    (fun lists =>
      match lists with
      | none => .full
      | some lists => .scoped lists.1 lists.2)
    fun scope => by cases scope <;> rfl

open Codec in
def pairTokenCodec : Codec DurablePairToken :=
  (pair text (pair (many byte) (pair nat (pair nat (pair (option text) scopeCodec))))).via
    (fun t => (t.tokenHash, t.principalUid, t.expiresAtEpoch, t.issuedAtEpoch, t.label, t.scope))
    (fun p => ⟨p.1, p.2.1, p.2.2.1, p.2.2.2.1, p.2.2.2.2.1, p.2.2.2.2.2⟩)
    fun _ => rfl

open Codec in
def inviteCodec : Codec Invite :=
  (pair (option (many byte)) (pair text (pair text (pair nat (pair (option nat) (pair nat
    (option text))))))).via
    (fun i => (i.ownership, i.tokenHash, i.group, i.remainingUses, i.expiresAtEpoch,
      i.issuedAtEpoch, i.metadata))
    (fun p => ⟨p.1, p.2.1, p.2.2.1, p.2.2.2.1, p.2.2.2.2.1, p.2.2.2.2.2.1, p.2.2.2.2.2.2⟩)
    fun _ => rfl

/-! ## The two stores -/

/-- A pair token that is issued once is in one state at a time and is redeemed, consumed or
revoked at most once, and never comes back; an invite that is issued once is used at most as
often as it allows, and what is left of it falls with every use. -/
theorem tokens_spent_within_issued :
    (∀ (json : Json DurablePairToken) (hash : Text) (kv : Values)
        (events : List (Event PairOp PairAnswer)) (sys : System Store PairOp PairAnswer),
      Absent kv hash → Run (pairStore json) ⟨⟨kv, [], []⟩, fun _ => none, 0⟩ events sys →
      IssuedOnce pairAmount hash events → PairOnce hash events sys.shared.store) ∧
    ∀ (json : Json Invite) (hash : Text) (uses : Nat) (kv : Values)
        (events : List (Event Invite.Op Invite.Answer))
        (sys : System Store Invite.Op Invite.Answer),
      kv[Invite.key hash]? = none →
      Run (Invite.inviteStore json) ⟨⟨kv, [], []⟩, fun _ => none, 0⟩ events sys →
      IssuedOnce Invite.amount hash events →
      (∀ n invite, .called n (.issue invite) ∈ events → invite.tokenHash = hash →
        invite.remainingUses = uses) →
      Invite.UsedWithin json hash uses events sys.shared :=
  ⟨fun _ _ _ _ _ habsent hrun honce => pairOnce habsent hrun honce,
    fun _ _ _ _ _ _ habsent hrun honce huses => Invite.usedWithin habsent hrun honce huses⟩

/-- The identifier of the token in the runs below. -/
def zeroHash : Text := ['b', 'l', 'a', 'k', 'e', '3', ':'] ++ List.replicate 64 '0'

def tabletToken : DurablePairToken := ⟨zeroHash, [], 60, 0, none, .full⟩

def twoUses : Invite := ⟨none, zeroHash, ['o', 'p', 's'], 2, none, 0, none⟩

def oneUse : Invite := { twoUses with remainingUses := 1 }

set_option maxRecDepth 20000 in
/-- A token is issued, reserved and consumed, and then cannot be redeemed; an invite with two
uses is used twice and not a third time. -/
theorem tokens_spent_within_issued_once :
    (∃ sys, Run (pairStore pairTokenCodec.json) ⟨⟨∅, [], []⟩, fun _ => none, 0⟩
        [.called 0 (.issue tabletToken), .returned 0 (.issue tabletToken) (.changed (.ok true)),
          .called 1 (.reserveIfUnchanged tabletToken),
          .returned 1 (.reserveIfUnchanged tabletToken) (.changed (.ok true)),
          .called 2 (.consumeReservation tabletToken),
          .returned 2 (.consumeReservation tabletToken) (.changed (.ok true)),
          .called 3 (.redeem zeroHash), .returned 3 (.redeem zeroHash) (.token (.ok none))] sys ∧
      PairOnce zeroHash
        [.called 0 (.issue tabletToken), .returned 0 (.issue tabletToken) (.changed (.ok true)),
          .called 1 (.reserveIfUnchanged tabletToken),
          .returned 1 (.reserveIfUnchanged tabletToken) (.changed (.ok true)),
          .called 2 (.consumeReservation tabletToken),
          .returned 2 (.consumeReservation tabletToken) (.changed (.ok true)),
          .called 3 (.redeem zeroHash), .returned 3 (.redeem zeroHash) (.token (.ok none))]
        sys.shared.store) ∧
    ∃ sys, Run (Invite.inviteStore inviteCodec.json) ⟨⟨∅, [], []⟩, fun _ => none, 0⟩
        [.called 0 (.issue twoUses), .returned 0 (.issue twoUses) (.changed (.ok true)),
          .called 1 (.redeem zeroHash), .returned 1 (.redeem zeroHash)
            (.invite (.ok (some twoUses))),
          .called 2 (.redeem zeroHash), .returned 2 (.redeem zeroHash)
            (.invite (.ok (some oneUse))),
          .called 3 (.redeem zeroHash), .returned 3 (.redeem zeroHash) (.invite (.ok none))] sys ∧
      Invite.UsedWithin inviteCodec.json zeroHash 2
        [.called 0 (.issue twoUses), .returned 0 (.issue twoUses) (.changed (.ok true)),
          .called 1 (.redeem zeroHash), .returned 1 (.redeem zeroHash)
            (.invite (.ok (some twoUses))),
          .called 2 (.redeem zeroHash), .returned 2 (.redeem zeroHash)
            (.invite (.ok (some oneUse))),
          .called 3 (.redeem zeroHash), .returned 3 (.redeem zeroHash) (.invite (.ok none))]
        sys.shared := by
  constructor
  · refine Run.exists_of_events (fun _ => true) (fun _ _ _ => trivial)
      [(.issue tabletToken, [2]), (.reserveIfUnchanged tabletToken, [5, 2]),
        (.consumeReservation tabletToken, [5, 2]), (.redeem zeroHash, [1])] rfl fun sys hrun =>
      tokens_spent_within_issued.1 _ _ _ _ _ (fun _ => ?_) hrun ?_
    · exact getElem?_empty
    · refine issuedOnce_of_only 0 fun n op k hn hop => ?_
      simp only [mem_cons, Event.called.injEq, reduceCtorEq, not_mem_nil, false_or, or_false] at hn
      rcases hn with ⟨hn, _⟩ | ⟨_, rfl⟩ | ⟨_, rfl⟩ | ⟨_, rfl⟩
      · exact hn
      all_goals cases hop
  · refine Run.exists_of_events (fun _ => true) (fun _ _ _ => trivial)
      [(.issue twoUses, [2]), (.redeem zeroHash, [1, 0, 2]), (.redeem zeroHash, [1, 0, 2]),
        (.redeem zeroHash, [1])] rfl fun sys hrun =>
      tokens_spent_within_issued.2 _ _ _ _ _ _ ?_ hrun ?_ ?_
    · exact getElem?_empty
    · refine issuedOnce_of_only 0 fun n op k hn hop => ?_
      simp only [mem_cons, Event.called.injEq, reduceCtorEq, not_mem_nil, false_or, or_false] at hn
      rcases hn with ⟨hn, _⟩ | ⟨_, rfl⟩ | ⟨_, rfl⟩ | ⟨_, rfl⟩
      · exact hn
      all_goals cases hop
    · intro n invite hn _
      simp only [mem_cons, Event.called.injEq, reduceCtorEq, not_mem_nil, or_false,
        Invite.Op.issue.injEq, and_false] at hn
      rw [hn.2]
      rfl

end Astrid.Bearer
