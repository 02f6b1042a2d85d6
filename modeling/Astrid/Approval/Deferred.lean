import Astrid.Lib.Maps

/-!
# Deferred approvals

`astrid-approval`, `deferred.rs` and `manager.rs`. An action that nobody could approve is queued
as a resolution and decided later. Two copies of the queue exist: the one in memory, which says
what is pending, and the persistent one, which a restart loads. `queue` writes the first only,
`queue_persistent` both; `resolve` and `cleanup_old` remove from the first only,
`resolve_persistent` from both. `resolve_deferred` resolves by the first kind of removal and
gives an outcome whether or not it found anything to remove.

`decided_once_iff` says what this leaves: the calls of a run decide each resolution once, and
only while it is pending, exactly if each call is `Admissible` where it is made. The two ways
out of that are a decision about a resolution that is not pending, and a restart that loads a
copy of one that was resolved.
-/

namespace Astrid.Approval

open List Option

open Std (ExtTreeMap)

/-! ## The two copies -/

structure DeferredResolution (Id : Type) where
  id : Id
  queuedAt : Int
  deriving DecidableEq

namespace DeferredResolution

def isOlderThan {Id : Type} (self : DeferredResolution Id) (maxAge now : Int) : Bool :=
  self.queuedAt < now - maxAge

end DeferredResolution

structure DeferredResolutionStore (Id : Type) [Key Id] where
  resolutions : FMap Id (DeferredResolution Id)
  persistentStore : Option (FMap Id (DeferredResolution Id))

namespace DeferredResolutionStore

variable {Id : Type} [Key Id] (self : DeferredResolutionStore Id)

/-- `MAX_LOAD_AGE`, 24 hours in seconds. -/
def maxLoadAge : Int := 24 * 60 * 60

/-- `load_from_store`: stale copies are deleted, the others become pending. -/
def withPersistence (store : FMap Id (DeferredResolution Id)) (now : Int) :
    DeferredResolutionStore Id :=
  let fresh := store.filter fun _ resolution => !resolution.isOlderThan maxLoadAge now
  ⟨fresh, some fresh⟩

def queue (resolution : DeferredResolution Id) : Id × DeferredResolutionStore Id :=
  (resolution.id, { self with resolutions := self.resolutions.insert resolution.id resolution })

def resolve (id : Id) : Option (DeferredResolution Id) × DeferredResolutionStore Id :=
  (self.resolutions[id]?, { self with resolutions := self.resolutions.erase id })

def cleanupOld (maxAge now : Int) : Nat × DeferredResolutionStore Id :=
  let kept := self.resolutions.filter fun _ resolution => !resolution.isOlderThan maxAge now
  (self.resolutions.size - kept.size, { self with resolutions := kept })

def queuePersistent (resolution : DeferredResolution Id) : Id × DeferredResolutionStore Id :=
  (resolution.id, ⟨self.resolutions.insert resolution.id resolution,
      self.persistentStore.map (·.insert resolution.id resolution)⟩)

def resolvePersistent (id : Id) : Option (DeferredResolution Id) × DeferredResolutionStore Id :=
  match self.resolutions[id]? with
  | none => (none, self)
  | some resolution =>
    (some resolution, ⟨self.resolutions.erase id, self.persistentStore.map (·.erase id)⟩)

/-- The process ends and another opens the same persistent store. -/
def restart (now : Int) : DeferredResolutionStore Id :=
  match self.persistentStore with
  | none => ⟨∅, none⟩
  | some store => withPersistence store now

end DeferredResolutionStore

/-! ## The manager -/

inductive FallbackBehavior
  | block | skip | safeDefault | queue
  deriving DecidableEq

inductive ApprovalProof (AllowanceId : Type)
  | allowance (allowanceId : AllowanceId)
  | oneTimeApproval
  | sessionApproval (allowanceId : AllowanceId)
  | workspaceApproval (allowanceId : AllowanceId)
  | alwaysAllow
  | customAllowance (allowanceId : AllowanceId)
  deriving DecidableEq

inductive ApprovalOutcome (Id AllowanceId : Type)
  | allowed (proof : ApprovalProof AllowanceId)
  | denied (reason : String)
  | deferred (resolutionId : Id) (fallback : FallbackBehavior)
  deriving DecidableEq

def ApprovalOutcome.isAllowed {Id AllowanceId : Type} : ApprovalOutcome Id AllowanceId → Bool
  | .allowed _ => true
  | _ => false

/-- A decision, with what the manager gets from elsewhere to act on it: the identifier it
makes up for a new allowance, or whether the allowance store took the one that came along. -/
inductive ApprovalDecision (AllowanceId : Type)
  | approve
  | approveSession (made : AllowanceId)
  | approveWorkspace (made : AllowanceId)
  | approveAlways
  | approveWithAllowance (allowanceId : AllowanceId) (stored : Bool)
  | deny (reason : String)
  deriving DecidableEq

/-- What the approval handler does with a request. -/
inductive Handler (AllowanceId : Type)
  | absent
  | unavailable
  | timedOut
  | silent
  | responds (decision : ApprovalDecision AllowanceId)

section Manager

variable {Id AllowanceId : Type} [Key Id]

def handleResponse : ApprovalDecision AllowanceId → ApprovalOutcome Id AllowanceId
  | .approve => .allowed .oneTimeApproval
  | .approveSession made => .allowed (.sessionApproval made)
  | .approveWorkspace made => .allowed (.workspaceApproval made)
  | .approveAlways => .allowed .alwaysAllow
  | .approveWithAllowance allowanceId stored =>
    if stored then .allowed (.customAllowance allowanceId) else .allowed .oneTimeApproval
  | .deny reason => .denied reason

variable (store : DeferredResolutionStore Id)

/-- The resolution is new: its identifier and time are made up by the caller here. -/
def deferAction (fallback : FallbackBehavior) (resolution : DeferredResolution Id) :
    ApprovalOutcome Id AllowanceId × DeferredResolutionStore Id :=
  let (id, store) := store.queue resolution
  (.deferred id fallback, store)

/-- `matching` is the allowance that covers the action, if there is one. -/
def checkApproval (matching : Option AllowanceId) (handler : Handler AllowanceId)
    (fallback : FallbackBehavior) (resolution : DeferredResolution Id) :
    ApprovalOutcome Id AllowanceId × DeferredResolutionStore Id :=
  match matching with
  | some allowanceId => (.allowed (.allowance allowanceId), store)
  | none =>
    match handler with
    | .responds decision => (handleResponse decision, store)
    | _ => deferAction store fallback resolution

def resolveDeferred (id : Id) (decision : ApprovalDecision AllowanceId) :
    ApprovalOutcome Id AllowanceId × DeferredResolutionStore Id :=
  (handleResponse decision, (store.resolve id).2)

end Manager

/-! ## Runs -/

inductive Call (Id AllowanceId : Type)
  | checkApproval (matching : Option AllowanceId) (handler : Handler AllowanceId)
      (fallback : FallbackBehavior) (resolution : DeferredResolution Id)
  | queue (resolution : DeferredResolution Id)
  | queuePersistent (resolution : DeferredResolution Id)
  | resolve (id : Id)
  | resolvePersistent (id : Id)
  | resolveDeferred (id : Id) (decision : ApprovalDecision AllowanceId)
  | cleanupOld (maxAge now : Int)
  | restart (now : Int)

/-- An outcome that `resolve_deferred` gave, and whether its resolution was pending then. -/
structure Verdict (Id AllowanceId : Type) where
  id : Id
  pending : Bool
  outcome : ApprovalOutcome Id AllowanceId

/-- The store, the verdicts given and the resolutions that were resolved or cleaned up. -/
structure History (Id AllowanceId : Type) [Key Id] where
  store : DeferredResolutionStore Id
  verdicts : List (Verdict Id AllowanceId)
  closed : List Id

namespace History

variable {Id AllowanceId : Type} [Key Id] (h : History Id AllowanceId)

def pending (id : Id) : Bool := h.store.resolutions[id]?.isSome

def step : Call Id AllowanceId → History Id AllowanceId
  | .checkApproval matching handler fallback resolution =>
    { h with store := (Approval.checkApproval h.store matching handler fallback resolution).2 }
  | .queue resolution => { h with store := (h.store.queue resolution).2 }
  | .queuePersistent resolution => { h with store := (h.store.queuePersistent resolution).2 }
  | .resolve id =>
    { h with
      store := (h.store.resolve id).2
      closed := if h.pending id then id :: h.closed else h.closed }
  | .resolvePersistent id =>
    { h with
      store := (h.store.resolvePersistent id).2
      closed := if h.pending id then id :: h.closed else h.closed }
  | .resolveDeferred id decision =>
    { store := (Approval.resolveDeferred h.store id decision).2
      verdicts := ⟨id, h.pending id, (Approval.resolveDeferred h.store id decision).1⟩ :: h.verdicts
      closed := if h.pending id then id :: h.closed else h.closed }
  | .cleanupOld maxAge now =>
    { h with
      store := (h.store.cleanupOld maxAge now).2
      closed := (h.store.resolutions.filter fun _ resolution =>
        resolution.isOlderThan maxAge now).keys ++ h.closed }
  | .restart now => { h with store := h.store.restart now }

def initial (persistentStore : Option (FMap Id (DeferredResolution Id))) :
    History Id AllowanceId := ⟨⟨∅, persistentStore⟩, [], []⟩

/-- Allowed outcomes were given for pending resolutions, no resolution has two, and what was
resolved or cleaned up is not pending. -/
structure DecidedOnce : Prop where
  allowed : ∀ v ∈ h.verdicts, v.outcome.isAllowed = true → v.pending = true
  once : (h.verdicts.map Verdict.id).Nodup
  closed : ∀ id ∈ h.closed, h.pending id = false

/-- The deferred action of a check that finds no allowance and gets no answer. -/
def Defers : Option AllowanceId → Handler AllowanceId → Prop
  | some _, _ => False
  | none, .responds _ => False
  | none, _ => True

/-- A new resolution is not one that was closed; a decision is about a resolution that has no
verdict yet and is pending, unless it denies; a restart finds no copy of a closed one. -/
def Admissible : Call Id AllowanceId → Prop
  | .checkApproval matching handler _ resolution =>
    Defers matching handler → resolution.id ∉ h.closed
  | .queue resolution => resolution.id ∉ h.closed
  | .queuePersistent resolution => resolution.id ∉ h.closed
  | .resolveDeferred id decision =>
    id ∉ h.verdicts.map Verdict.id ∧
      ((handleResponse decision : ApprovalOutcome Id AllowanceId).isAllowed = true →
        h.pending id = true)
  | .restart now => ∀ store ∈ h.store.persistentStore, ∀ id resolution,
      store[id]? = some resolution →
        resolution.isOlderThan DeferredResolutionStore.maxLoadAge now = false → id ∉ h.closed
  | _ => True

/-- `P` at every state a run passes. -/
def Along (P : History Id AllowanceId → Prop) :
    History Id AllowanceId → List (Call Id AllowanceId) → Prop
  | h, [] => P h
  | h, call :: rest => P h ∧ Along P (h.step call) rest

/-- Every call is admissible where it is made. -/
def AdmissibleAlong : History Id AllowanceId → List (Call Id AllowanceId) → Prop
  | _, [] => True
  | h, call :: rest => h.Admissible call ∧ AdmissibleAlong (h.step call) rest

/-! ## A run decides once exactly if its calls are admissible -/

variable {h} {store : DeferredResolutionStore Id}

/-- Nothing pending is a closed resolution, whatever removed it. -/
theorem DecidedOnce.close {id : Id} (hd : h.DecidedOnce)
    (herase : store.resolutions = h.store.resolutions.erase id)
    (hverdicts : List (Verdict Id AllowanceId)) :
    ∀ closed ∈ if h.pending id then id :: h.closed else h.closed,
      (⟨store, hverdicts, []⟩ : History Id AllowanceId).pending closed = false := by
  intro closed hclosed
  show (store.resolutions[closed]?).isSome = false
  rw [herase, getElem?_erase_of]
  split
  next => rfl
  next hne =>
    refine hd.closed closed ?_
    split at hclosed
    next => exact (mem_cons.1 hclosed).resolve_left fun heq => hne heq.symm
    next => exact hclosed

/-- Queueing keeps the closed resolutions closed exactly if it does not queue one of them. -/
theorem DecidedOnce.queue_iff {resolution : DeferredResolution Id} (hd : h.DecidedOnce)
    (hinsert : store.resolutions = h.store.resolutions.insert resolution.id resolution) :
    ({ h with store := store } : History Id AllowanceId).DecidedOnce ↔
      resolution.id ∉ h.closed := by
  constructor
  · intro hd' hclosed
    have hpending := hd'.closed _ hclosed
    change (store.resolutions[resolution.id]?).isSome = false at hpending
    rw [hinsert, getElem?_insert_of, if_pos rfl] at hpending
    cases hpending
  · intro hfresh
    refine ⟨hd.allowed, hd.once, ?_⟩
    intro id hid
    show (store.resolutions[id]?).isSome = false
    rw [hinsert, getElem?_insert_of, if_neg fun heq : resolution.id = id => hfresh (heq ▸ hid)]
    exact hd.closed id hid

/-- What a restart makes pending. -/
theorem pending_restart (store : DeferredResolutionStore Id) (now : Int) (id : Id) :
    ((store.restart now).resolutions[id]?).isSome = true ↔
      ∃ persistent ∈ store.persistentStore, ∃ resolution, persistent[id]? = some resolution ∧
        resolution.isOlderThan DeferredResolutionStore.maxLoadAge now = false := by
  unfold DeferredResolutionStore.restart
  cases hstore : store.persistentStore with
  | none => simp
  | some persistent =>
    simp only [DeferredResolutionStore.withPersistence, ExtTreeMap.getElem?_filter',
      mem_def, Option.some.injEq, exists_eq_left']
    cases hid : persistent[id]? with
    | none | some => simp

theorem step_iff (hd : h.DecidedOnce) (call : Call Id AllowanceId) :
    (h.step call).DecidedOnce ↔ h.Admissible call := by
  cases call with
  | checkApproval matching handler =>
    -- Only a check that defers touches the queue.
    cases matching with
    | some => exact iff_of_true hd fun hdefers => absurd hdefers id
    | none =>
      cases handler with
      | responds => exact iff_of_true hd fun hdefers => absurd hdefers id
      | absent => exact (hd.queue_iff rfl).trans ⟨fun hfresh _ => hfresh, fun h => h trivial⟩
      | unavailable => exact (hd.queue_iff rfl).trans ⟨fun hfresh _ => hfresh, fun h => h trivial⟩
      | timedOut => exact (hd.queue_iff rfl).trans ⟨fun hfresh _ => hfresh, fun h => h trivial⟩
      | silent => exact (hd.queue_iff rfl).trans ⟨fun hfresh _ => hfresh, fun h => h trivial⟩
  | queue | queuePersistent => exact hd.queue_iff rfl
  | resolve => exact iff_of_true ⟨hd.allowed, hd.once, hd.close rfl []⟩ trivial
  | resolvePersistent id =>
    refine iff_of_true ⟨hd.allowed, hd.once, hd.close ?_ []⟩ trivial
    show (h.store.resolvePersistent id).2.resolutions = _
    unfold DeferredResolutionStore.resolvePersistent
    cases hid : h.store.resolutions[id]? with
    | none => exact (erase_of_not_mem hid).symm
    | some => rfl
  | resolveDeferred =>
    constructor
    · intro hd'
      exact ⟨(nodup_cons.1 hd'.once).1, fun hallowed =>
        hd'.allowed _ mem_cons_self hallowed⟩
    · intro hadmissible
      exact ⟨forall_mem_cons.2 ⟨hadmissible.2, hd.allowed⟩, nodup_cons.2 ⟨hadmissible.1, hd.once⟩,
        hd.close rfl []⟩
  | cleanupOld maxAge now =>
    refine iff_of_true ⟨hd.allowed, hd.once, ?_⟩ trivial
    intro id hid
    show ((h.store.cleanupOld maxAge now).2.resolutions[id]?).isSome = false
    unfold DeferredResolutionStore.cleanupOld
    rw [ExtTreeMap.getElem?_filter']
    rcases mem_append.1 hid with hold | hclosed
    · rw [ExtTreeMap.mem_keys, mem_iff_getElem?, ExtTreeMap.getElem?_filter'] at hold
      obtain ⟨resolution, hold⟩ := hold
      rw [filter_eq_some_iff] at hold
      rw [hold.1]
      simp [hold.2]
    · have := hd.closed id hclosed
      rw [pending, isSome_eq_false_iff, isNone_iff_eq_none] at this
      rw [this]
      rfl
  | restart now =>
    constructor
    · intro hd' store hstore id resolution hid hfresh hclosed
      have hpending := (pending_restart h.store now id).2 ⟨store, hstore, resolution, hid, hfresh⟩
      exact Bool.false_ne_true ((hd'.closed id hclosed).symm.trans hpending)
    · intro hadmissible
      refine ⟨hd.allowed, hd.once, ?_⟩
      intro id hclosed
      rw [← Bool.not_eq_true]
      intro hpending
      obtain ⟨store, hstore, resolution, hid, hfresh⟩ :=
        (pending_restart h.store now id).1 hpending
      exact hadmissible store hstore id resolution hid hfresh hclosed

theorem along_iff (calls : List (Call Id AllowanceId)) (hd : h.DecidedOnce) :
    Along DecidedOnce h calls ↔ h.AdmissibleAlong calls := by
  induction calls generalizing h with
  | nil => exact iff_of_true hd trivial
  | cons call rest ih =>
    constructor
    · rintro ⟨_, hrest⟩
      have hnext : (h.step call).DecidedOnce := by
        cases rest with
        | nil => exact hrest
        | cons => exact hrest.1
      exact ⟨(step_iff hd call).1 hnext, (ih hnext).1 hrest⟩
    · rintro ⟨hcall, hrest⟩
      have hnext := (step_iff hd call).2 hcall
      exact ⟨hd, (ih hnext).2 hrest⟩

theorem decidedOnce_initial (persistentStore : Option (FMap Id (DeferredResolution Id))) :
    (initial persistentStore : History Id AllowanceId).DecidedOnce := by
  refine ⟨?_, nodup_nil, ?_⟩
  · intro v hv
    cases hv
  · intro id hid
    cases hid

/-- In a run over any persistent store, deferred approvals are decided once, and only while
they are pending, exactly if every call is admissible where it is made. -/
theorem decided_once_iff (persistentStore : Option (FMap Id (DeferredResolution Id)))
    (calls : List (Call Id AllowanceId)) :
    Along DecidedOnce (initial persistentStore) calls ↔
      (initial persistentStore).AdmissibleAlong calls :=
  along_iff calls (decidedOnce_initial persistentStore)

end History

/-- A resolution that is decided is allowed a second time, and one that was decided is pending
again after a restart. -/
theorem decided_twice :
    (∃ calls : List (Call Nat Nat), calls = [.queue ⟨7, 0⟩, .resolveDeferred 7 .approve,
        .resolveDeferred 7 .approve] ∧
      (calls.foldl History.step (.initial (some ∅))).verdicts.map
        (fun v => (v.id, v.pending, v.outcome.isAllowed)) = [(7, false, true), (7, true, true)] ∧
      ¬History.Along History.DecidedOnce (.initial (some ∅)) calls) ∧
    ∃ calls : List (Call Nat Nat), calls = [.queuePersistent ⟨7, 0⟩, .resolveDeferred 7 .approve,
        .restart 60] ∧
      (calls.foldl History.step (.initial (some ∅))).closed = [7] ∧
      (calls.foldl History.step (.initial (some ∅))).pending 7 = true ∧
      ¬History.Along History.DecidedOnce (.initial (some ∅)) calls := by
  refine ⟨⟨_, rfl, by decide, ?_⟩, _, rfl, by decide, by decide +kernel, ?_⟩
  · rintro ⟨_, _, _, hd⟩
    exact absurd hd.once (by decide)
  · rintro ⟨_, _, _, hd⟩
    exact absurd (hd.closed 7 (by decide)) (by decide +kernel)

end Astrid.Approval
