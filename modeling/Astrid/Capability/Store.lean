import Astrid.Lib.Calls
import Astrid.Capability.Token

/-!
# The capability store

`astrid-capabilities`, `store.rs` and `validator.rs`. Session tokens are in memory, persistent
tokens in a key-value store that outlives the process, under their principal and id, with an
index from id to principal. Revoked ids and used single-use ids are in both. A call is a
sequence of atomic actions: each access to a locked structure and each operation of the
key-value store is one, and others may act in between. Two locks are held across actions:
the read side of the retirement lock by every call that adds or looks up tokens, and the lock
of the used ids by `mark_used`.

An operation of the key-value store may fail before it does anything, and it may be applied and
still be reported as failed.
-/

namespace Astrid.Capability

open Std Calls

/-! ## State -/

/-- The namespaces of the key-value store. A token key with a principal and one without (left
by an older version) are never equal, since a principal has no `/`. -/
structure Kv where
  tokens : FMap (PrincipalId × TokenId) StoredToken
  legacy : FMap TokenId StoredToken
  index : FMap TokenId PrincipalId
  revoked : FSet TokenId
  used : FSet TokenId

/-- The store, with the clock. `readers` and `usedLock` say which calls hold the locks. The code
does not have the last three: the used ids that the process has loaded, which call has used which
id, and which call's use the key-value store has taken, whatever it has answered. -/
structure StoreState (globs : Globset) where
  now : Int
  retiring : FSet PrincipalId
  readers : FSet Nat
  session : FMap PrincipalId (FMap TokenId (CapabilityToken globs))
  kv : Option Kv
  revoked : FSet TokenId
  used : FSet TokenId
  usedLock : Option Nat
  loaded : FSet TokenId
  uses : List (Nat × TokenId)
  taken : List (Nat × TokenId)

inductive Op (globs : Globset)
  | add (token : CapabilityToken globs)
  | get (id : TokenId)
  | findCapability (principal : PrincipalId) (resource : Text) (permission : Permission)
  | hasCapability (principal : PrincipalId) (resource : Text) (permission : Permission)
  | useToken (id : TokenId)
  | markUsed (id : TokenId)
  | revoke (id : TokenId)
  | clearSession
  | clearSessionFor (principal : PrincipalId)
  | purgePrincipal (principal : PrincipalId)
  | cleanupExpired
  | beginPrincipalRetirement (principal : PrincipalId)
  | finishPrincipalRetirement (principal : PrincipalId)
  | check (trustedIssuers : List Bytes) (principal : PrincipalId) (resource : Text)
      (permission : Permission)

/-- What calls return. The caller of `has_capability` sees only whether a token was found. -/
inductive Answer (globs : Globset)
  | done (result : Except CapabilityError Unit)
  | got (result : Except CapabilityError (Option (CapabilityToken globs)))
  | found (token : Option (CapabilityToken globs))
  | used (result : Except CapabilityError (CapabilityToken globs))
  | removed (result : Except CapabilityError Nat)
  | authorized (token : Option (CapabilityToken globs))

section Programs

variable {globs : Globset} (verify : Verify)

abbrev Call (globs : Globset) := Prog (StoreState globs)

abbrev Outcome (α : Type) := Except CapabilityError α

/-- Go on unless there was an error. -/
def andThen {α β : Type} (p : Call globs (Outcome α)) (k : α → Call globs (Outcome β)) :
    Call globs (Outcome β) := do
  match ← p with
  | .ok a => k a
  | .error e => pure (.error e)

/-! ## Actions -/

/-- Hold the read side of the retirement lock. Nobody changes the set meanwhile. -/
def withRetirement {α : Type} (n : Nat) (body : FSet PrincipalId → Call globs α) :
    Call globs α := do
  let retiring ← .atomically fun s => (s.retiring, { s with readers := s.readers.insert n })
  let result ← body retiring
  .modify fun s => { s with readers := s.readers.erase n }
  pure result

def hasKv : Call globs Bool := .read fun s => s.kv.isSome

/-- What a failed operation of the key-value store says. -/
def storageFailed {α : Type} : Outcome α := .error (.storageError "storage operation failed")

/-- One operation of the key-value store. It may fail, before it is applied or afterwards. -/
def kvOp {α : Type} (f : Kv → α × Kv) : Call globs (Outcome α) := do
  let outcome ← .pick
  if outcome = 0 then pure storageFailed
  else .atomically fun s =>
    match s.kv with
    | some kv => (if outcome = 2 then storageFailed else .ok (f kv).1,
        { s with kv := some (f kv).2 })
    | none => (.error (.storageError "no persistent store"), s)

def kvGet {α : Type} (f : Kv → α) : Call globs (Outcome α) := kvOp fun kv => (f kv, kv)

def kvPut (f : Kv → Kv) : Call globs (Outcome Unit) := kvOp fun kv => ((), f kv)

def insertSession (token : CapabilityToken globs) : Call globs Unit :=
  .modify fun s =>
    let held := (s.session[token.principal]?).getD ∅
    { s with session := s.session.insert token.principal (held.insert token.id token) }

def validateNow (token : CapabilityToken globs) : Call globs (Outcome Unit) :=
  .read fun s => token.validate verify s.now

/-! ## Adding and reading -/

def add (n : Nat) (token : CapabilityToken globs) : Call globs (Outcome Unit) :=
  withRetirement n fun retiring => do
    if token.principal ∈ retiring then
      pure (.error (.storageError
        ("principal " ++ String.ofList token.principal.text ++ " is retiring")))
    else andThen (validateNow verify token) fun _ => do
      match token.scope with
      | .session =>
        insertSession token
        pure (.ok ())
      | .persistent =>
        if ← hasKv then
          andThen (kvPut fun kv =>
            { kv with tokens := kv.tokens.insert (token.principal, token.id) token.serialize })
            fun _ => kvPut fun kv => { kv with index := kv.index.insert token.id token.principal }
        else
          insertSession token
          pure (.ok ())

/-- Read a stored token and check it. -/
def openStored (stored : StoredToken) : Call globs (Outcome (Option (CapabilityToken globs))) :=
  match CapabilityToken.deserialize globs stored with
  | .ok token => andThen (validateNow verify token) fun _ => pure (.ok (some token))
  | .error e => pure (.error e)

/-- A token under the flat key of an older version. -/
def readLegacyToken (id : TokenId) : Call globs (Outcome (Option (CapabilityToken globs))) :=
  andThen (kvGet fun kv => kv.legacy[id]?) fun stored =>
    match stored with
    | some stored => openStored verify stored
    | none => pure (.ok none)

def readPersistentTokenAnyPrincipal (id : TokenId) :
    Call globs (Outcome (Option (CapabilityToken globs))) :=
  andThen (kvGet fun kv => kv.index[id]?) fun principal =>
    match principal with
    | some principal =>
      andThen (kvGet fun kv => kv.tokens[(principal, id)]?) fun stored =>
        match stored with
        | some stored => openStored verify stored
        | none => do
          -- A stale index row goes, whether or not that succeeds.
          let _ ← kvPut fun kv => { kv with index := kv.index.erase id }
          readLegacyToken verify id
    | none => readLegacyToken verify id

/-- The session token with an id, of whichever principal the map lists first. -/
def sessionToken (id : TokenId) : Call globs (Option (CapabilityToken globs)) := do
  let order ← .pick
  .read fun s =>
    let held := s.session.toList.filterMap fun entry => entry.2[id]?
    held[order % held.length]?

def get (n : Nat) (id : TokenId) : Call globs (Outcome (Option (CapabilityToken globs))) :=
  withRetirement n fun retiring => do
    if ← .read fun s => decide (id ∈ s.revoked) then pure (.error (.tokenRevoked id))
    else
      match ← sessionToken id with
      | some token => pure (.ok (if token.principal ∈ retiring then none else some token))
      | none =>
        if ← hasKv then
          andThen (readPersistentTokenAnyPrincipal verify id) fun token =>
            pure (.ok (token.filter fun token => token.principal ∉ retiring))
        else pure (.ok none)

/-! ## Lookups -/

def isConsumedSingleUse (token : CapabilityToken globs) : Call globs Bool :=
  if token.singleUse then
    .whenReady (fun s => s.usedLock.isNone) fun s => (decide (token.id ∈ s.used), s)
  else pure false

/-- The first of the candidates that is not used up. -/
def firstUnused : List (CapabilityToken globs) → Call globs (Option (CapabilityToken globs))
  | [] => pure none
  | token :: rest => do
    if ← isConsumedSingleUse token then firstUnused rest else pure (some token)

/-- The tokens of a principal's session that grant a permission, in the order of the map. -/
def sessionCandidates (principal : PrincipalId) (resource : Text) (permission : Permission) :
    Call globs (List (CapabilityToken globs)) := do
  let order ← .pick
  .read fun s =>
    let candidates := (((s.session[principal]?).getD ∅).toList.map Prod.snd).filter fun token =>
      token.principal = principal && !token.isExpired s.now && token.grants resource permission
    (candidates.permutations'[order % candidates.permutations'.length]?).getD candidates

/-- Go through the persistent tokens of a principal. -/
def scanPersistent (principal : PrincipalId) (resource : Text) (permission : Permission) :
    List (PrincipalId × TokenId) → Call globs (Option (CapabilityToken globs))
  | [] => pure none
  | key :: rest => do
    match ← kvGet fun kv => kv.tokens[key]? with
    | .ok (some stored) =>
      match CapabilityToken.deserialize globs stored with
      | .ok token =>
        match ← validateNow verify token with
        | .ok () =>
          if token.principal ≠ principal then scanPersistent principal resource permission rest
          else if ← .read fun s => decide (token.id ∈ s.revoked) then
            scanPersistent principal resource permission rest
          else if token.grants resource permission then
            if ← isConsumedSingleUse token then
              scanPersistent principal resource permission rest
            else pure (some token)
          else scanPersistent principal resource permission rest
        | .error _ => scanPersistent principal resource permission rest
      | .error _ => scanPersistent principal resource permission rest
    | _ => scanPersistent principal resource permission rest

/-- The keys of a principal's persistent tokens. -/
def principalKeys (kv : Kv) (principal : PrincipalId) : List (PrincipalId × TokenId) :=
  kv.tokens.keys.filter fun key => key.1 = principal

def findCapability (n : Nat) (principal : PrincipalId) (resource : Text)
    (permission : Permission) : Call globs (Option (CapabilityToken globs)) :=
  withRetirement n fun retiring => do
    if principal ∈ retiring then pure none
    else
      let candidates ← sessionCandidates principal resource permission
      match ← firstUnused candidates with
      | some token => pure (some token)
      | none =>
        if ← hasKv then
          match ← kvGet fun kv => principalKeys kv principal with
          | .ok keys => scanPersistent verify principal resource permission keys
          | .error _ => pure none
        else pure none

/-- Expiry without tolerance, signature, and issuer if any are listed. -/
def validateToken (trustedIssuers : List Bytes) (now : Int) (token : CapabilityToken globs) :
    Except CapabilityError Unit :=
  if token.isExpired now then .error (.tokenExpired token.id)
  else
    match token.verifySignature verify with
    | .error e => .error e
    | .ok () =>
      if trustedIssuers ≠ [] ∧ token.issuer ∉ trustedIssuers then .error .invalidSignature
      else .ok ()

/-- The token that authorizes, or none where approval is required. -/
def check (n : Nat) (trustedIssuers : List Bytes) (principal : PrincipalId) (resource : Text)
    (permission : Permission) : Call globs (Option (CapabilityToken globs)) := do
  match ← findCapability verify n principal resource permission with
  | some token =>
    match ← .read fun s => validateToken verify trustedIssuers s.now token with
    | .ok () => pure (some token)
    | .error _ => pure none
  | none => pure none

/-! ## Revocation and removal -/

/-- Best effort: an operation whose failure is ignored. -/
def tryPut (f : Kv → Kv) : Call globs Unit := do
  let _ ← kvPut f
  pure ()

def dropSession (id : TokenId) (session : FMap PrincipalId (FMap TokenId (CapabilityToken globs))) :
    FMap PrincipalId (FMap TokenId (CapabilityToken globs)) :=
  (session.map fun _ tokens => tokens.erase id).filter fun _ tokens => !tokens.isEmpty

/-- The persistent rows of a token, once its revocation is stored. -/
def deleteRows (id : TokenId) : Call globs Unit := do
  match ← kvGet fun kv => kv.index[id]? with
  | .ok (some principal) => tryPut fun kv => { kv with tokens := kv.tokens.erase (principal, id) }
  | _ => pure ()
  tryPut fun kv => { kv with index := kv.index.erase id }
  tryPut fun kv => { kv with legacy := kv.legacy.erase id }

/-- Revoke in memory, once the revocation is stored. -/
def revokeInMemory (id : TokenId) : Call globs (Outcome Unit) := do
  .modify fun s => { s with revoked := s.revoked.insert id }
  .modify fun s => { s with session := dropSession id s.session }
  pure (.ok ())

def revoke (id : TokenId) : Call globs (Outcome Unit) := do
  if ← hasKv then
    andThen (kvPut fun kv => { kv with revoked := kv.revoked.insert id }) fun _ => do
      deleteRows id
      revokeInMemory id
  else revokeInMemory id

def clearSession : Call globs (Outcome Unit) := do
  .modify fun s => { s with session := ∅ }
  pure (.ok ())

def clearSessionFor (principal : PrincipalId) : Call globs (Outcome Unit) := do
  .modify fun s => { s with session := s.session.erase principal }
  pure (.ok ())

/-- Which of the index rows are those of a principal. -/
def ownedIds (principal : PrincipalId) : List TokenId → Call globs (Outcome (List TokenId))
  | [] => pure (.ok [])
  | id :: rest =>
    andThen (kvGet fun kv => kv.index[id]?) fun owner =>
      andThen (ownedIds principal rest) fun ids =>
        pure (.ok (if owner = some principal then id :: ids else ids))

/-- Delete each of some rows, and say whether all went well. -/
def deleteAll {κ : Type} (delete : κ → Kv → Kv) : List κ → Call globs Bool
  | [] => pure true
  | key :: rest => do
    let outcome ← kvPut (delete key)
    let others ← deleteAll delete rest
    pure (outcome.isOk && others)

section

variable (principal : PrincipalId)

def purgePrincipal : Call globs (Outcome Unit) :=
  andThen (clearSessionFor principal) fun _ => do
    if ← hasKv then
      andThen (kvGet fun kv => principalKeys kv principal) fun keys =>
        andThen (kvGet fun kv => kv.index.keys) fun indexed =>
          andThen (ownedIds principal indexed) fun owned => do
            let tokens ← deleteAll (fun key kv => { kv with tokens := kv.tokens.erase key }) keys
            let rows ← deleteAll (fun id kv => { kv with index := kv.index.erase id })
              (keys.map Prod.snd ++ owned)
            pure (if tokens && rows then .ok () else .error (.storageError "delete failed"))
    else pure (.ok ())

/-- Delete a stored token, and its index row, if it has expired. -/
def cleanupRow (read : Kv → Option StoredToken) (delete : Kv → Kv) : Call globs Nat := do
  match ← kvGet read with
  | .ok (some stored) =>
    match CapabilityToken.deserialize globs stored with
    | .ok token =>
      if ← .read fun s => token.isExpired s.now then
        tryPut delete
        tryPut fun kv => { kv with index := kv.index.erase token.id }
        pure 1
      else pure 0
    | .error _ => pure 0
  | _ => pure 0

def cleanupRows : List (Call globs Nat) → Call globs Nat
  | [] => pure 0
  | row :: rest => do
    let removed ← row
    let others ← cleanupRows rest
    pure (removed + others)

/-- How many expired tokens were removed. -/
def cleanupExpired : Call globs (Outcome Nat) := do
  if ← hasKv then
    andThen (kvGet fun kv => (kv.tokens.keys, kv.legacy.keys)) fun keys => do
      let tokens ← cleanupRows (keys.1.map fun key => cleanupRow (fun kv => kv.tokens[key]?)
        fun kv => { kv with tokens := kv.tokens.erase key })
      let legacy ← cleanupRows (keys.2.map fun id => cleanupRow (fun kv => kv.legacy[id]?)
        fun kv => { kv with legacy := kv.legacy.erase id })
      pure (.ok (tokens + legacy))
  else pure (.ok 0)

/-! ## Single use -/

/-- The key-value store, if there is one, takes the use of an id. -/
def storeUse (n : Nat) (id : TokenId) (s : StoreState globs) : StoreState globs :=
  { s with
    kv := s.kv.map fun kv => { kv with used := kv.used.insert id }
    taken := (n, id) :: s.taken }

/-- The id is stored as used by this call. Without a key-value store nothing fails. -/
def persistUse (n : Nat) (id : TokenId) : Call globs (Outcome Unit) := do
  let kv ← hasKv
  let outcome ← (if kv then .pick else pure 1)
  if outcome = 0 then pure storageFailed
  else if outcome = 2 then .atomically fun s => (storageFailed, storeUse n id s)
  else .atomically fun s => (.ok (), { storeUse n id s with uses := (n, id) :: s.uses })

/-- Check, store and remember, all under the lock of the used ids. -/
def markUsed (n : Nat) (id : TokenId) : Call globs (Outcome Unit) := do
  let already ← .whenReady (fun s => s.usedLock.isNone) fun s =>
    (decide (id ∈ s.used), { s with usedLock := some n })
  let result ←
    if already then pure (.error (.tokenAlreadyUsed id))
    else andThen (persistUse n id) fun _ => do
      .modify fun s => { s with used := s.used.insert id }
      pure (.ok ())
  .modify fun s => { s with usedLock := none }
  pure result

def useToken (n : Nat) (id : TokenId) : Call globs (Outcome (CapabilityToken globs)) :=
  andThen (get verify n id) fun token =>
    match token with
    | none => pure (.error (.tokenNotFound id))
    | some token =>
      andThen (validateNow verify token) fun _ =>
        if token.singleUse then andThen (markUsed n id) fun _ => pure (.ok token)
        else pure (.ok token)

/-! ## Retirement -/

/-- The write side of the retirement lock waits for all readers. -/
def beginPrincipalRetirement : Call globs (Outcome Unit) := do
  .whenReady (fun s => s.readers.isEmpty) fun s =>
    ((), { s with retiring := s.retiring.insert principal })
  pure (.ok ())

def finishPrincipalRetirement : Call globs (Outcome Unit) := do
  .whenReady (fun s => s.readers.isEmpty) fun s =>
    ((), { s with retiring := s.retiring.erase principal })
  pure (.ok ())

end

/-! ## The component -/

def program (n : Nat) : Op globs → Call globs (Answer globs)
  | .add token => Answer.done <$> add verify n token
  | .get id => Answer.got <$> get verify n id
  | .findCapability principal resource permission =>
    Answer.found <$> findCapability verify n principal resource permission
  | .hasCapability principal resource permission =>
    Answer.found <$> findCapability verify n principal resource permission
  | .useToken id => Answer.used <$> useToken verify n id
  | .markUsed id => Answer.done <$> markUsed n id
  | .revoke id => Answer.done <$> revoke id
  | .clearSession => Answer.done <$> clearSession
  | .clearSessionFor principal => Answer.done <$> clearSessionFor principal
  | .purgePrincipal principal => Answer.done <$> purgePrincipal principal
  | .cleanupExpired => Answer.removed <$> cleanupExpired
  | .beginPrincipalRetirement principal => Answer.done <$> beginPrincipalRetirement principal
  | .finishPrincipalRetirement principal => Answer.done <$> finishPrincipalRetirement principal
  | .check trustedIssuers principal resource permission =>
    Answer.authorized <$> check verify n trustedIssuers principal resource permission

/-- The clock moves, forwards or backwards. -/
def Ticks (s s' : StoreState globs) : Prop := ∃ now, s' = { s with now }

/-- A new store, which has loaded the revoked and used ids. -/
def opened (globs : Globset) (kv : Option Kv) (now : Int) : StoreState globs :=
  ⟨now, ∅, ∅, ∅, kv, (kv.map Kv.revoked).getD ∅, (kv.map Kv.used).getD ∅, none,
    (kv.map Kv.used).getD ∅, [], []⟩

/-- A new process loads the revoked and used ids, and knows nothing else. -/
def reboot (kv : Kv) (s : StoreState globs) : StoreState globs :=
  ⟨s.now, ∅, ∅, ∅, some kv, kv.revoked, kv.used, none, kv.used, s.uses, s.taken⟩

def Restarts (s s' : StoreState globs) : Prop := ∃ kv, s.kv = some kv ∧ s' = reboot kv s

/-- The store, where only the steps that `allowed` says are considered. -/
def store (allowed : StoreState globs → StoreState globs → Prop) :
    Component (StoreState globs) (Op globs) (Answer globs) :=
  ⟨program verify, Ticks, Restarts, allowed⟩

end Programs

end Astrid.Capability
