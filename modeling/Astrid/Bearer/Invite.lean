import Astrid.Bearer.Kv

/-!
# Invites

`astrid-kernel`, `invite/mod.rs` and `durable_reservation.rs`. An invite is a record with a
number of remaining uses. A redemption reads it and replaces exactly what it read by the record
with one use less, or deletes it with the last use; a handler may do the same in two steps and
provision an identity in between. What is left of an invite is its stored number of uses.
-/

namespace Astrid.Bearer

open Std Calls Capability

/-- The delegation of the issuer is kept as it is encoded. -/
structure Invite where
  ownership : Option Bytes
  tokenHash : Text
  group : Text
  remainingUses : Nat
  expiresAtEpoch : Option Nat
  issuedAtEpoch : Nat
  metadata : Option Text
  deriving DecidableEq

namespace Invite

def isHexDigit (c : Char) : Bool :=
  ('0' ≤ c && c ≤ '9') || ('a' ≤ c && c ≤ 'f') || ('A' ≤ c && c ≤ 'F')

def canonicalTokenFingerprint (value : Text) : Option Text :=
  match splitOnce ':' value with
  | some (algorithm, digest) =>
    if algorithm.map Char.toLower = ['b', 'l', 'a', 'k', 'e', '3'] ∧ (utf8 digest).length = 64 ∧
        digest.all isHexDigit = true then
      some (['b', 'l', 'a', 'k', 'e', '3', ':'] ++ digest.map Char.toLower)
    else none
  | none => none

def key (hash : Text) : Text := recordPrefix ++ hash

def validateRecord (invite : Invite) : Outcome Unit :=
  if canonicalTokenFingerprint invite.tokenHash ≠ some invite.tokenHash then
    .error (.serialization "invite record has a non-canonical token identifier")
  else if invite.group = [] ∨ (utf8 invite.group).length > 256 ∨ invite.remainingUses = 0 then
    .error (.serialization "invite record is outside its bounded schema")
  else if invite.metadata.any fun value => (utf8 value).length > 4096 then
    .error (.serialization "invite metadata exceeds its bounded schema")
  else .ok ()

def schema (json : Json Invite) : Schema Invite :=
  { json
    tokenHash := tokenHash
    validateRecord
    oversized := "invite record exceeds its bounded size"
    invalid := "invalid invite record"
    disappeared := "invite record disappeared during read"
    tooMany := "invite storage exceeds its bounded record limit" }

/-- Used up or expired. -/
def isOver (invite : Invite) (now : Nat) : Bool :=
  invite.remainingUses = 0 || invite.expiresAtEpoch.any fun expires => expires ≤ now

/-! ## Operations -/

inductive Op
  | issue (invite : Invite)
  | redeem (tokenHash : Text)
  | redeemable (tokenHash : Text)
  | consumeIfUnchanged (expected : Invite)
  | consumeWithOwnership (expected : Invite)
  | revoke (tokenHash : Text)
  | prune

inductive Answer
  | changed (result : Outcome Bool)
  | invite (result : Outcome (Option Invite))
  | pruned (result : Outcome Nat)

section Programs

variable (json : Json Invite) (n : Nat)

/-- The uses that are left of an invite. -/
def remaining (kv : Values) (hash : Text) : Nat :=
  match kv[key hash]? with
  | none => 0
  | some value =>
    match (schema json).decode value with
    | .ok invite => invite.remainingUses
    | .error _ => 0

def applyInvite : Batch → Note → Call (Outcome Bool) := apply (remaining json) n

def issue (invite : Invite) : Call (Outcome Bool) :=
  andThen (ofOutcome ((schema json).encode invite)) fun value =>
    applyInvite json n ⟨[(key invite.tokenHash, none)], [(key invite.tokenHash, some value)]⟩
      (.issues invite.tokenHash invite.remainingUses)

/-- Take one use of an invite that is stored as `value`. -/
def useBatch (key : Text) (invite : Invite) (value : Bytes) : Outcome Batch := do
  let consumed := { invite with remainingUses := invite.remainingUses - 1 }
  if consumed.remainingUses = 0 then .ok (.deleteExact key value)
  else
    let value' ← (schema json).encode consumed
    .ok ⟨[(key, some value)], [(key, some value')]⟩

def redeem (tokenHash : Text) : Call (Outcome (Option Invite)) :=
  andThen (get (key tokenHash)) fun value =>
    match value with
    | none => pure (.ok none)
    | some value =>
      andThen (ofOutcome ((schema json).decode value)) fun invite => do
        let now ← nowEpoch
        if invite.isOver now then
          andThen (applyInvite json n (.deleteExact (key tokenHash) value) .nothing) fun _ =>
            pure (.ok none)
        else
          andThen (ofOutcome (useBatch json (key tokenHash) invite value)) fun batch =>
            andThen (applyInvite json n batch (.spends tokenHash)) fun applied =>
              pure (.ok (if applied then some invite else none))

def redeemable (tokenHash : Text) : Call (Outcome (Option Invite)) :=
  andThen (get (key tokenHash)) fun value =>
    match value with
    | none => pure (.ok none)
    | some value =>
      andThen (ofOutcome ((schema json).decode value)) fun invite => do
        let now ← nowEpoch
        pure (.ok (if invite.isOver now then none else some invite))

def consumptionBatch (expected : Invite) : Call (Outcome (Option Batch)) := do
  let now ← nowEpoch
  if expected.isOver now then pure (.ok none)
  else
    andThen (ofOutcome ((schema json).encode expected)) fun value =>
      ofOutcome (some <$> useBatch json (key expected.tokenHash) expected value)

def consumeIfUnchanged (expected : Invite) : Call (Outcome Bool) :=
  andThen (consumptionBatch json expected) fun batch =>
    match batch with
    | none => pure (.ok false)
    | some batch => applyInvite json n batch (.spends expected.tokenHash)

/-- The ownership store adds the graph of owners to the batch, in a namespace of its own. It may
fail, or refuse the delegation, or find at the end that the graph has changed; then nothing is
applied. -/
def consumeWithOwnership (expected : Invite) : Call (Outcome Bool) :=
  match expected.ownership with
  | none => pure (.ok false)
  | some _ =>
    andThen (consumptionBatch json expected) fun batch =>
      match batch with
      | none => pure (.ok false)
      | some batch => do
        let graph ← .pick
        if graph = 0 then pure (.error backendFailed)
        else if graph = 1 then pure (.ok false)
        else applyInvite json n batch (.spends expected.tokenHash)

def revoke (tokenHash : Text) : Call (Outcome Bool) :=
  andThen (get (key tokenHash)) fun value =>
    match value with
    | none => pure (.ok false)
    | some value =>
      andThen (ofOutcome ((schema json).decode value)) fun _ =>
        applyInvite json n (.deleteExact (key tokenHash) value) .nothing

def prune : Call (Outcome Nat) :=
  andThen (list (schema json)) fun records => do
    let now ← nowEpoch
    pruneRecords (remaining json) n (fun invite => !invite.isOver now)
      (fun invite => .ok (key invite.tokenHash)) records

def program : Op → Call Answer
  | .issue invite => Answer.changed <$> issue json n invite
  | .redeem tokenHash => Answer.invite <$> redeem json n tokenHash
  | .redeemable tokenHash => Answer.invite <$> redeemable json tokenHash
  | .consumeIfUnchanged expected => Answer.changed <$> consumeIfUnchanged json n expected
  | .consumeWithOwnership expected => Answer.changed <$> consumeWithOwnership json n expected
  | .revoke tokenHash => Answer.changed <$> revoke json n tokenHash
  | .prune => Answer.pruned <$> prune json n

end Programs

/-- Any number of daemons on one namespace. -/
def inviteStore (json : Json Invite) : Component Store Op Answer :=
  ⟨program json, fun _ _ => False, fun _ _ => False, fun _ _ => True⟩

end Invite

end Astrid.Bearer
