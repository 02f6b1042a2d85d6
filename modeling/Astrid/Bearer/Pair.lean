import Astrid.Bearer.Kv

/-!
# Pair tokens

`astrid-kernel`, `pair_token/mod.rs` and `durable_reservation.rs`. A pair token is a record that
can be redeemed, or a reservation while a device is being provisioned; a reservation is released
back to a record or consumed. Each movement is one conditional batch on the exact value that was
inspected. What is left of a token is the number of its keys, so issuing is the only way up, and
redeeming, consuming and revoking are ways down.
-/

namespace Astrid.Bearer

open Std Calls Capability

/-! ## Tokens -/

inductive DeviceScope
  | full
  | scoped (allow deny : List Text)
  deriving DecidableEq

structure DurablePairToken where
  tokenHash : Text
  principalUid : Bytes
  expiresAtEpoch : Nat
  issuedAtEpoch : Nat
  label : Option Text
  scope : DeviceScope
  deriving DecidableEq

def isLowerHexDigit (c : Char) : Bool := ('0' ≤ c && c ≤ '9') || ('a' ≤ c && c ≤ 'f')

def canonicalFingerprint (value : Text) : Option Text :=
  match splitOnce ':' value with
  | some (algorithm, digest) =>
    if algorithm = ['b', 'l', 'a', 'k', 'e', '3'] ∧ digest.length = 64 ∧
        digest.all isLowerHexDigit = true then some value
    else none
  | none => none

/-- `TokenHash::parse`. -/
def parseTokenHash (value : Text) : Outcome Text :=
  match canonicalFingerprint value with
  | some _ => .ok value
  | none => .error (.serialization "pair-token record has a non-canonical token identifier")

def maxPairExpirySecs : Nat := 60 * 60

def maxTextBytes : Nat := 4096

def tooLong (text : Option Text) : Bool :=
  match text with
  | some text => (utf8 text).length > maxTextBytes
  | none => false

namespace DurablePairToken

def validateRecord (token : DurablePairToken) : Outcome Unit := do
  let _ ← parseTokenHash token.tokenHash
  if token.expiresAtEpoch ≤ token.issuedAtEpoch ∨
      token.expiresAtEpoch - token.issuedAtEpoch > maxPairExpirySecs ∨
      tooLong token.label = true then
    .error (.serialization "pair-token record is outside its bounded schema")
  else .ok ()

def schema (json : Json DurablePairToken) : Schema DurablePairToken :=
  { json
    tokenHash := tokenHash
    validateRecord
    oversized := "pair-token record exceeds its bounded size"
    invalid := "invalid pair-token record"
    disappeared := "pair-token record disappeared during read"
    tooMany := "pair-token storage exceeds its bounded record limit" }

end DurablePairToken

/-! ## Keys -/

inductive ReservationState
  | redeemable
  | reserved
  deriving DecidableEq

def reservationPrefix : Text := ['r', 'e', 's', 'e', 'r', 'v', 'a', 't', 'i', 'o', 'n', ':']

def ReservationState.key (state : ReservationState) (hash : Text) : Text :=
  match state with
  | .redeemable => recordPrefix ++ hash
  | .reserved => reservationPrefix ++ hash

theorem ReservationState.key_inj {state state' : ReservationState} {hash hash' : Text}
    (h : state.key hash = state'.key hash') : state = state' ∧ hash = hash' := by
  cases state with
  | redeemable =>
    cases state' with
    | redeemable => exact ⟨rfl, List.append_cancel_left h⟩
    | reserved => simp [key, recordPrefix, reservationPrefix] at h
  | reserved =>
    cases state' with
    | redeemable => simp [key, recordPrefix, reservationPrefix] at h
    | reserved => exact ⟨rfl, List.append_cancel_left h⟩

def present (kv : Values) (key : Text) : Nat := if (kv[key]?).isSome then 1 else 0

/-- How many of the keys of a token there are. -/
def pairWeight (kv : Values) (hash : Text) : Nat :=
  present kv (ReservationState.redeemable.key hash) +
    present kv (ReservationState.reserved.key hash)

/-! ## Operations -/

inductive PairOp
  | issue (token : DurablePairToken)
  | redeem (tokenHash : Text)
  | redeemable (tokenHash : Text)
  | reserveIfUnchanged (expected : DurablePairToken)
  | releaseReservation (expected : DurablePairToken)
  | consumeReservation (expected : DurablePairToken)
  | revoke (tokenHash : Text)
  | prune

inductive PairAnswer
  | changed (result : Outcome Bool)
  | token (result : Outcome (Option DurablePairToken))
  | pruned (result : Outcome Nat)

section Programs

variable (json : Json DurablePairToken) (n : Nat)

def applyPair : Batch → Note → Call (Outcome Bool) := apply pairWeight n

def issue (token : DurablePairToken) : Call (Outcome Bool) :=
  andThen (ofOutcome ((DurablePairToken.schema json).encode token)) fun value =>
    andThen (ofOutcome (parseTokenHash token.tokenHash)) fun hash =>
      let key := ReservationState.redeemable.key hash
      applyPair n ⟨[(key, none)], [(key, some value)]⟩ (.issues hash 1)

def redeem (tokenHash : Text) : Call (Outcome (Option DurablePairToken)) :=
  andThen (ofOutcome (parseTokenHash tokenHash)) fun hash =>
    let key := ReservationState.redeemable.key hash
    andThen (get key) fun value =>
      match value with
      | none => pure (.ok none)
      | some value =>
        andThen (ofOutcome ((DurablePairToken.schema json).decode value)) fun token => do
          let now ← nowEpoch
          if token.expiresAtEpoch ≤ now then
            andThen (applyPair n (.deleteExact key value) .nothing) fun _ => pure (.ok none)
          else
            andThen (applyPair n (.deleteExact key value) (.spends hash)) fun applied =>
              pure (.ok (if applied then some token else none))

def redeemable (tokenHash : Text) : Call (Outcome (Option DurablePairToken)) :=
  andThen (ofOutcome (parseTokenHash tokenHash)) fun hash =>
    andThen (get (ReservationState.redeemable.key hash)) fun value =>
      match value with
      | none => pure (.ok none)
      | some value =>
        andThen (ofOutcome ((DurablePairToken.schema json).decode value)) fun token => do
          let now ← nowEpoch
          pure (.ok (if token.expiresAtEpoch ≤ now then none else some token))

section

variable (expected : DurablePairToken)

/-- What the three operations on a reservation have in common: the token is not expired, and
its exact value is expected. -/
def withExpected (batch : Text → Bytes → Batch) (note : Text → Note) : Call (Outcome Bool) := do
  let now ← nowEpoch
  if expected.expiresAtEpoch ≤ now then pure (.ok false)
  else
    andThen (ofOutcome ((DurablePairToken.schema json).encode expected)) fun value =>
      andThen (ofOutcome (parseTokenHash expected.tokenHash)) fun hash =>
        applyPair n (batch hash value) (note hash)

def reserveIfUnchanged : Call (Outcome Bool) :=
  withExpected json n expected
    (fun hash value =>
      ⟨[(ReservationState.redeemable.key hash, some value),
          (ReservationState.reserved.key hash, none)],
        [(ReservationState.redeemable.key hash, none),
          (ReservationState.reserved.key hash, some value)]⟩)
    fun _ => .nothing

def releaseReservation : Call (Outcome Bool) :=
  withExpected json n expected
    (fun hash value =>
      ⟨[(ReservationState.reserved.key hash, some value),
          (ReservationState.redeemable.key hash, none)],
        [(ReservationState.redeemable.key hash, some value),
          (ReservationState.reserved.key hash, none)]⟩)
    fun _ => .nothing

def consumeReservation : Call (Outcome Bool) :=
  withExpected json n expected
    (fun hash value => .deleteExact (ReservationState.reserved.key hash) value) .spends

end

/-- Revoke what is stored under the key of a state. -/
def revokeAt (state : ReservationState) (hash : Text) (value : Bytes) : Call (Outcome Bool) :=
  andThen (ofOutcome ((DurablePairToken.schema json).decode value)) fun _ =>
    applyPair n (.deleteExact (state.key hash) value) (.spends hash)

def revoke (tokenHash : Text) : Call (Outcome Bool) :=
  andThen (ofOutcome (parseTokenHash tokenHash)) fun hash =>
    andThen (get (ReservationState.redeemable.key hash)) fun value =>
      match value with
      | some value => revokeAt json n .redeemable hash value
      | none =>
        andThen (get (ReservationState.reserved.key hash)) fun value =>
          match value with
          | some value => revokeAt json n .reserved hash value
          | none => pure (.ok false)

/-- Delete the reservations that have expired. -/
def pruneReservations (now : Nat) : List Text → Call (Outcome Nat)
  | [] => pure (.ok 0)
  | key :: rest =>
    andThen (get key) fun value =>
      match value with
      | none => pruneReservations now rest
      | some value =>
        andThen (ofOutcome ((DurablePairToken.schema json).decode value)) fun token =>
          if token.expiresAtEpoch > now then pruneReservations now rest
          else
            andThen (applyPair n (.deleteExact key value) .nothing) fun applied =>
              andThen (pruneReservations now rest) fun removed =>
                pure (.ok (if applied then removed + 1 else removed))

def prune : Call (Outcome Nat) :=
  andThen (listKeysWithPrefix reservationPrefix) fun keys => do
    let now ← nowEpoch
    andThen (pruneReservations json n now keys) fun reservations =>
      andThen (list (DurablePairToken.schema json)) fun records =>
        andThen (pruneRecords pairWeight n (fun token => token.expiresAtEpoch > now)
            (fun token => ReservationState.redeemable.key <$> parseTokenHash token.tokenHash)
            records) fun removed =>
          pure (.ok (reservations + removed))

def pairProgram : PairOp → Call PairAnswer
  | .issue token => PairAnswer.changed <$> issue json n token
  | .redeem tokenHash => PairAnswer.token <$> redeem json n tokenHash
  | .redeemable tokenHash => PairAnswer.token <$> redeemable json tokenHash
  | .reserveIfUnchanged expected => PairAnswer.changed <$> reserveIfUnchanged json n expected
  | .releaseReservation expected => PairAnswer.changed <$> releaseReservation json n expected
  | .consumeReservation expected => PairAnswer.changed <$> consumeReservation json n expected
  | .revoke tokenHash => PairAnswer.changed <$> revoke json n tokenHash
  | .prune => PairAnswer.pruned <$> prune json n

end Programs

/-- Any number of daemons on one namespace. One that stops leaves its calls unfinished. -/
def pairStore (json : Json DurablePairToken) : Component Store PairOp PairAnswer :=
  ⟨pairProgram json, fun _ _ => False, fun _ _ => False, fun _ _ => True⟩

end Astrid.Bearer
