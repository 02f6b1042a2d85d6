import Astrid.Lib.Bytes

/-!
# Routed delivery

`astrid-events`: `bus.rs` (`publish_reserved`), `bus/dispatch.rs` and `route/entry.rs`. A
publication is stamped with a sequence number under the publish lock, shown to the synchronous
subscribers under that lock, and fanned out to the matching routes after the lock is released.
The lock is reentrant, since a subscriber may publish from within its notification.

Nothing ties the order of the fan-outs to the order of the stamps. `Ordered` is what a fan-out
in stamp order keeps: each route hands out a principal's messages by increasing number, and a
publication that has yet to reach a route is numbered above all the route has seen. A follow-up
from within a notification is fanned out before the publication that caused it, and breaks it.

Receiving takes the front of one principal's queue; which principal's is the business of the
round robin, and the order of one principal's messages does not depend on it. The routes of a
publication are in the order of a hash map, so here in any order.
-/

namespace Astrid.Bus

open List

variable {α : Type}

abbrev PrincipalKey := Option String

/-- An IPC message as the bus sees it: its publisher, number and size, and what routes match. -/
structure IpcMessage (α : Type) where
  principal : PrincipalKey
  seq : Nat
  size : Nat
  content : α

/-! ## One route -/

structure PrincipalQueue (α : Type) where
  queue : List (IpcMessage α)
  bytes : Nat
  headEnqueuedAt : Option Nat

/-- A route: its matcher, its scope with its owner and receipt filters, the gate of its runtime,
and a queue for each principal. -/
structure RouteEntry (α : Type) where
  matcher : α → Bool
  admission : PrincipalKey → α → Bool
  published : Bool
  fanout : FMap PrincipalKey (PrincipalQueue α)
  totalBytes : Nat

def maxSubscriptionBudgetBytes : Nat := 1024 * 1024

def pendingPerPrincipalFallback : Nat := 16384

namespace PrincipalQueue

def empty : PrincipalQueue α := ⟨[], 0, none⟩

/-- Without its head; the age of the next one is not known. -/
def popFront (self : PrincipalQueue α) (now : Nat) : PrincipalQueue α :=
  { queue := self.queue.tail
    bytes := self.bytes - (self.queue.head?.elim 0 IpcMessage.size)
    headEnqueuedAt := if self.queue.tail.isEmpty then none else some now }

end PrincipalQueue

namespace RouteEntry

variable (self : RouteEntry α) (m : IpcMessage α)

def acceptsEvent : Bool :=
  self.published && self.admission m.principal m.content

def queueOf (principal : PrincipalKey) : List (IpcMessage α) :=
  self.fanout[principal]?.elim [] PrincipalQueue.queue

/-- The principal's head is taken off. -/
def popFront (principal : PrincipalKey) (now : Nat) : RouteEntry α :=
  match self.fanout[principal]? with
  | none => self
  | some bucket =>
    { self with
      fanout := self.fanout.insert principal (bucket.popFront now)
      totalBytes := self.totalBytes - (bucket.queue.head?.elim 0 IpcMessage.size) }

def oldestHeadKey : Option PrincipalKey :=
  ((self.fanout.toList.filterMap fun entry => entry.2.headEnqueuedAt.map (·, entry.1)).argmin
    Prod.fst).map Prod.snd

/-- The eviction loop. Each turn drops a message, so `fuel` of them are enough. -/
def makeRoom (budget size now : Nat) : Nat → RouteEntry α → RouteEntry α
  | 0, entry => entry
  | fuel + 1, entry =>
    if entry.totalBytes + size > budget then
      match entry.oldestHeadKey with
      | some victim => makeRoom budget size now fuel (entry.popFront victim now)
      | none => entry
    else entry

/-- The message goes to the end of its principal's queue, which is held to a length. -/
def pushBack (now : Nat) : RouteEntry α :=
  let bucket := self.fanout[m.principal]?.getD .empty
  let entry := { self with
    fanout := self.fanout.insert m.principal
      { queue := bucket.queue ++ [m]
        bytes := bucket.bytes + m.size
        headEnqueuedAt := if bucket.queue.isEmpty then some now else bucket.headEnqueuedAt }
    totalBytes := self.totalBytes + m.size }
  if bucket.queue.length + 1 > pendingPerPrincipalFallback then entry.popFront m.principal now
  else entry

def pushWithEviction (budget now : Nat) : RouteEntry α :=
  if self.acceptsEvent m = false ∨ m.size > budget then self
  else
    let queued := (self.fanout.toList.map fun entry => entry.2.queue.length).sum
    (makeRoom budget m.size now queued self).pushBack m now

/-! A principal's queue keeps its order: messages are put at its end, or dropped. -/

theorem queueOf_popFront (principal other : PrincipalKey) (now : Nat) :
    (self.popFront principal now).queueOf other =
      if principal = other then (self.queueOf other).tail else self.queueOf other := by
  unfold popFront queueOf
  cases hbucket : self.fanout[principal]? with
  | none =>
    split_ifs with heq
    · rw [← heq, hbucket]
      rfl
    · rfl
  | some =>
    rw [getElem?_insert_of]
    split_ifs with heq
    · rw [← heq, hbucket]
      rfl
    · rfl

theorem queueOf_popFront_sublist (principal other : PrincipalKey) (now : Nat) :
    (self.popFront principal now).queueOf other <+ self.queueOf other := by
  rw [queueOf_popFront]
  split
  next => exact tail_sublist _
  next => exact List.Sublist.refl _

theorem makeRoom_sublist (budget size now : Nat) (principal : PrincipalKey) :
    ∀ (fuel : Nat) (entry : RouteEntry α),
      (makeRoom budget size now fuel entry).queueOf principal <+ entry.queueOf principal := by
  intro fuel
  induction fuel with
  | zero => exact fun entry => List.Sublist.refl _
  | succ _ ih =>
    intro entry
    unfold makeRoom
    split
    next =>
      split
      next victim _ => exact (ih _).trans (entry.queueOf_popFront_sublist victim principal now)
      next => exact List.Sublist.refl _
    next => exact List.Sublist.refl _

theorem pushBack_sublist (now : Nat) (principal : PrincipalKey) :
    (self.pushBack m now).queueOf principal <+
      self.queueOf principal ++ if m.principal = principal then [m] else [] := by
  have hpushed : ∀ bytes total head, queueOf { self with
        fanout := self.fanout.insert m.principal
          ⟨(self.fanout[m.principal]?.getD .empty).queue ++ [m], bytes, head⟩
        totalBytes := total } principal =
        self.queueOf principal ++ if m.principal = principal then [m] else [] := by
    intro bytes total head
    unfold queueOf
    rw [getElem?_insert_of]
    split_ifs with heq
    · rw [heq]
      cases self.fanout[principal]? <;> rfl
    · rw [append_nil]
  unfold pushBack
  by_cases hlong : (self.fanout[m.principal]?.getD .empty).queue.length + 1 >
      pendingPerPrincipalFallback
  · rw [if_pos hlong]
    refine (queueOf_popFront_sublist _ _ _ _).trans ?_
    rw [hpushed]
  · rw [if_neg hlong, hpushed]

theorem pushWithEviction_sublist (budget now : Nat) (principal : PrincipalKey) :
    (self.pushWithEviction m budget now).queueOf principal <+
      self.queueOf principal ++ if m.principal = principal then [m] else [] := by
  unfold pushWithEviction
  split
  next => exact sublist_append_left _ _
  next =>
    exact (pushBack_sublist _ m now principal).trans
      ((makeRoom_sublist budget m.size now principal _ self).append (List.Sublist.refl _))

end RouteEntry

/-! ## The bus -/

/-- Where a publication is: its subscribers are being notified, the lock is released, or it is
being fanned out to the routes it matched. -/
inductive Phase
  | notifying
  | matching
  | enqueuing (routes : List Nat)
  deriving DecidableEq

/-- A call of `publish` that has not returned. Only IPC events have a message. -/
structure Publication (α : Type) where
  thread : Nat
  message : Option (IpcMessage α)
  phase : Phase

/-- The bus with its calls in progress, numbered as they started, and what receivers got. -/
structure EventBus (α : Type) where
  ipcSeq : Nat
  publishOrder : Option (Nat × Nat)
  publications : FMap Nat (Publication α)
  started : Nat
  routes : FMap Nat (RouteEntry α)
  received : List (Nat × IpcMessage α)

/-- The publication may still be enqueued at the route. -/
def Phase.Awaits (route : Nat) : Phase → Prop
  | .enqueuing routes => route ∈ routes
  | _ => True

namespace EventBus

def new : EventBus α := ⟨1, none, ∅, 0, ∅, []⟩

section

variable (s : EventBus α)

/-- The lock is free or held by the thread, with the depth it is held at. -/
def lockDepth (thread : Nat) : Option Nat :=
  match s.publishOrder with
  | none => some 0
  | some (holder, depth) => if holder = thread then some depth else none

def stamp (event : Option (PrincipalKey × Nat × α)) : Option (IpcMessage α) :=
  event.map fun (principal, size, content) => ⟨principal, s.ipcSeq % wordLimit, size, content⟩

def setPhase (number : Nat) (p : Publication α) (phase : Phase) : EventBus α :=
  { s with publications := s.publications.insert number { p with phase := phase } }

/-- The fan-out of `p` at one route, if the route is still there. -/
def enqueueAt (route : Nat) (m : IpcMessage α) (now : Nat) : EventBus α :=
  match s.routes[route]? with
  | none => s
  | some entry =>
    { s with
      routes := s.routes.insert route
        (entry.pushWithEviction m maxSubscriptionBudgetBytes now) }

end

inductive Step : EventBus α → EventBus α → Prop
  /-- A thread that is not in a call, or is a subscriber being notified, publishes. -/
  | publish (s : EventBus α) (thread depth : Nat) (event : Option (PrincipalKey × Nat × α))
      (hlock : s.lockDepth thread = some depth)
      (hfree : s.publications.toList.all fun entry =>
        entry.2.thread ≠ thread || entry.2.phase = .notifying) :
      Step s { s with
        ipcSeq := if event.isSome then s.ipcSeq + 1 else s.ipcSeq
        publishOrder := some (thread, depth + 1)
        publications := s.publications.insert s.started ⟨thread, s.stamp event, .notifying⟩
        started := s.started + 1 }
  /-- The subscribers are done, with every call they made. -/
  | release (s : EventBus α) (number depth : Nat) (p : Publication α)
      (hp : s.publications[number]? = some p) (hphase : p.phase = .notifying)
      (hlast : s.publications.toList.all fun entry =>
        entry.1 ≤ number || entry.2.thread ≠ p.thread)
      (hlock : s.publishOrder = some (p.thread, depth + 1)) :
      Step s { s.setPhase number p .matching with
        publishOrder := if depth = 0 then none else some (p.thread, depth) }
  | matchRoutes (s : EventBus α) (number : Nat) (p : Publication α) (m : IpcMessage α)
      (routes : List Nat) (hp : s.publications[number]? = some p) (hphase : p.phase = .matching)
      (hmessage : p.message = some m)
      (hroutes : routes.Perm ((s.routes.toList.filter fun entry =>
        entry.2.acceptsEvent m && entry.2.matcher m.content).map Prod.fst)) :
      Step s (s.setPhase number p (.enqueuing routes))
  | enqueue (s : EventBus α) (number : Nat) (p : Publication α) (m : IpcMessage α) (route : Nat)
      (rest : List Nat) (now : Nat) (hp : s.publications[number]? = some p)
      (hphase : p.phase = .enqueuing (route :: rest)) (hmessage : p.message = some m) :
      Step s ((s.setPhase number p (.enqueuing rest)).enqueueAt route m now)
  | done (s : EventBus α) (number : Nat) (p : Publication α)
      (hp : s.publications[number]? = some p)
      (hphase : p.phase = .enqueuing [] ∨ p.phase = .matching ∧ p.message = none) :
      Step s { s with publications := s.publications.erase number }
  | receive (s : EventBus α) (route : Nat) (entry : RouteEntry α) (m : IpcMessage α)
      (principal : PrincipalKey) (now : Nat) (hentry : s.routes[route]? = some entry)
      (hhead : (entry.queueOf principal).head? = some m) :
      Step s { s with
        routes := s.routes.insert route (entry.popFront principal now)
        received := s.received ++ [(route, m)] }
  | subscribe (s : EventBus α) (route : Nat) (matcher : α → Bool)
      (admission : PrincipalKey → α → Bool) (published : Bool) (hnew : s.routes[route]? = none) :
      Step s { s with
        routes := s.routes.insert route ⟨matcher, admission, published, ∅, 0⟩ }
  | setGate (s : EventBus α) (route : Nat) (entry : RouteEntry α) (published : Bool)
      (hentry : s.routes[route]? = some entry) :
      Step s { s with routes := s.routes.insert route { entry with published := published } }
  | unsubscribe (s : EventBus α) (route : Nat) :
      Step s { s with routes := s.routes.erase route }

/-! ## Fan-out in stamp order -/

def queueAt (s : EventBus α) (route : Nat) (principal : PrincipalKey) : List (IpcMessage α) :=
  s.routes[route]?.elim [] (·.queueOf principal)

/-- What the receiver of a route got from a principal. -/
def receivedFrom (s : EventBus α) (route : Nat) (principal : PrincipalKey) :
    List (IpcMessage α) :=
  (s.received.filter fun entry => entry.1 = route ∧ entry.2.principal = principal).map Prod.snd

/-- What the receiver got and will get next. -/
def handed (s : EventBus α) (route : Nat) (principal : PrincipalKey) : List (IpcMessage α) :=
  s.receivedFrom route principal ++ s.queueAt route principal

/-- A publication that is enqueued at a route finds no earlier one of its principal that has yet
to be enqueued there, and the counter has not come round. -/
def InStampOrder (s s' : EventBus α) : Prop :=
  s.ipcSeq < wordLimit ∧
  ∀ (number : Nat) (p : Publication α) (m : IpcMessage α) (route : Nat) (rest : List Nat),
    s.publications[number]? = some p → p.message = some m →
    p.phase = .enqueuing (route :: rest) →
    s'.publications[number]? = some { p with phase := .enqueuing rest } →
    ∀ (earlier : Nat) (q : Publication α) (m' : IpcMessage α),
      s.publications[earlier]? = some q → q.message = some m' → m'.principal = m.principal →
      m'.seq < m.seq → ¬q.phase.Awaits route

structure Ordered (s : EventBus α) : Prop where
  increasing : ∀ route principal, (s.handed route principal).Pairwise fun m m' => m.seq < m'.seq
  stamped : ∀ route principal, ∀ m ∈ s.handed route principal, m.seq < s.ipcSeq
  filed : ∀ route principal, ∀ m ∈ s.queueAt route principal, m.principal = principal
  started : ∀ (number : Nat) (p : Publication α), s.publications[number]? = some p →
    number < s.started
  pending : ∀ (number : Nat) (p : Publication α) (m : IpcMessage α),
    s.publications[number]? = some p → p.message = some m → m.seq < s.ipcSeq
  distinct : ∀ (number number' : Nat) (p p' : Publication α) (m m' : IpcMessage α),
    s.publications[number]? = some p → p.message = some m →
    s.publications[number']? = some p' → p'.message = some m' → m.seq = m'.seq →
    number = number'
  once : ∀ (number : Nat) (p : Publication α) (routes : List Nat),
    s.publications[number]? = some p → p.phase = .enqueuing routes → routes.Nodup
  above : ∀ (number : Nat) (p : Publication α) (m : IpcMessage α) (route : Nat),
    s.publications[number]? = some p → p.message = some m → p.phase.Awaits route →
    ∀ m' ∈ s.handed route m.principal, m'.seq < m.seq

variable {s s' : EventBus α}

/-- The publication was there and awaits no more routes than it did. -/
def Proceeds (s : EventBus α) (number : Nat) (p' : Publication α) : Prop :=
  ∃ p, s.publications[number]? = some p ∧ p'.message = p.message ∧
    (∀ route, p'.phase.Awaits route → p.phase.Awaits route) ∧
    ∀ routes, p'.phase = .enqueuing routes → routes.Nodup

/-- A step that hands out nothing new and lets no publication await more keeps the order. -/
theorem Ordered.shrink (h : s.Ordered)
    (hpublications : ∀ number p', s'.publications[number]? = some p' → s.Proceeds number p')
    (hhanded : ∀ route principal, s'.handed route principal <+ s.handed route principal := by
      exact fun _ _ => List.Sublist.refl _)
    (hfiled : ∀ route principal, s'.queueAt route principal <+ s.queueAt route principal := by
      exact fun _ _ => List.Sublist.refl _)
    (hseq : s'.ipcSeq = s.ipcSeq := by rfl) (hstarted : s'.started = s.started := by rfl) :
    s'.Ordered where
  increasing route principal := (h.increasing route principal).sublist (hhanded route principal)
  stamped route principal m hm := by
    rw [hseq]
    exact h.stamped route principal m ((hhanded route principal).subset hm)
  filed route principal m hm := h.filed route principal m ((hfiled route principal).subset hm)
  started number p hp := by
    obtain ⟨q, hq, _⟩ := hpublications number p hp
    rw [hstarted]
    exact h.started number q hq
  pending number p m hp hm := by
    obtain ⟨q, hq, hmessage, _⟩ := hpublications number p hp
    rw [hseq]
    exact h.pending number q m hq (hmessage ▸ hm)
  distinct number number' p p' m m' hp hm hp' hm' := by
    obtain ⟨q, hq, hmessage, _⟩ := hpublications number p hp
    obtain ⟨q', hq', hmessage', _⟩ := hpublications number' p' hp'
    exact h.distinct number number' q q' m m' hq (hmessage ▸ hm) hq' (hmessage' ▸ hm')
  once number p routes hp hphase := by
    obtain ⟨_, _, _, _, honce⟩ := hpublications number p hp
    exact honce routes hphase
  above number p m route hp hm hawaits m' hm' := by
    obtain ⟨q, hq, hmessage, hless, _⟩ := hpublications number p hp
    exact h.above number q m route hq (hmessage ▸ hm) (hless route hawaits) m'
      ((hhanded route m.principal).subset hm')

/-- The publications are left alone. -/
theorem Ordered.same_publications (h : s.Ordered)
    (hpublications : s'.publications = s.publications) (number : Nat) (p' : Publication α)
    (hp' : s'.publications[number]? = some p') : s.Proceeds number p' := by
  rw [hpublications] at hp'
  exact ⟨p', hp', rfl, fun _ => id, fun routes => h.once number p' routes hp'⟩

/-- One publication goes on to its next phase. -/
theorem Ordered.next_phase (h : s.Ordered) {number : Nat} {p : Publication α} {phase : Phase}
    (hp : s.publications[number]? = some p)
    (hless : ∀ route, phase.Awaits route → p.phase.Awaits route)
    (honce : ∀ routes, phase = .enqueuing routes → routes.Nodup) (other : Nat)
    (q' : Publication α) (hq' : (s.setPhase number p phase).publications[other]? = some q') :
    s.Proceeds other q' := by
  unfold setPhase at hq'
  rcases insert_cases hq' with ⟨rfl, rfl⟩ | ⟨_, hq'⟩
  · exact ⟨p, hp, rfl, hless, honce⟩
  · exact ⟨q', hq', rfl, fun _ => id, fun routes => h.once other q' routes hq'⟩

theorem queueAt_insert (s : EventBus α) (route other : Nat) (entry : RouteEntry α)
    (received : List (Nat × IpcMessage α)) (principal : PrincipalKey) :
    queueAt { s with routes := s.routes.insert route entry, received := received } other principal =
      if route = other then entry.queueOf principal else s.queueAt other principal := by
  unfold queueAt
  rw [getElem?_insert_of]
  split <;> rfl

/-- A message numbered above all its route has seen, and below all that its route awaits of its
principal, is enqueued. -/
theorem Ordered.enqueueAt (h : s.Ordered) {route : Nat} {m : IpcMessage α} (now : Nat)
    (hseq : m.seq < s.ipcSeq) (hlast : ∀ m' ∈ s.handed route m.principal, m'.seq < m.seq)
    (hnext : ∀ (number : Nat) (p : Publication α) (m' : IpcMessage α),
      s.publications[number]? = some p → p.message = some m' → m'.principal = m.principal →
      p.phase.Awaits route → m.seq < m'.seq) : (s.enqueueAt route m now).Ordered := by
  have hqueue : ∀ other principal, (s.enqueueAt route m now).queueAt other principal <+
      s.queueAt other principal ++ if route = other ∧ m.principal = principal then [m] else [] := by
    intro other principal
    unfold EventBus.enqueueAt
    cases hentry : s.routes[route]? with
    | none => exact sublist_append_left _ _
    | some entry =>
      refine (queueAt_insert s route other _ s.received principal ▸ ?_)
      by_cases hother : route = other
      · have hold : s.queueAt other principal = entry.queueOf principal := by
          unfold queueAt
          rw [← hother, hentry]
          rfl
        rw [hold]
        simp only [hother, true_and]
        exact entry.pushWithEviction_sublist m _ now principal
      · rw [if_neg hother]
        exact sublist_append_left _ _
  have hsame : (s.enqueueAt route m now).publications = s.publications ∧
      (s.enqueueAt route m now).ipcSeq = s.ipcSeq ∧
      (s.enqueueAt route m now).started = s.started ∧
      (s.enqueueAt route m now).received = s.received := by
    unfold EventBus.enqueueAt
    split <;> exact ⟨rfl, rfl, rfl, rfl⟩
  have hhanded : ∀ other principal, (s.enqueueAt route m now).handed other principal <+
      s.handed other principal ++ if route = other ∧ m.principal = principal then [m] else [] := by
    intro other principal
    unfold handed receivedFrom
    rw [hsame.2.2.2, append_assoc]
    exact (List.Sublist.refl _).append (hqueue other principal)
  have hmem : ∀ other principal, ∀ m' ∈ (s.enqueueAt route m now).handed other principal,
      m' ∈ s.handed other principal ∨ (route = other ∧ m.principal = principal) ∧ m' = m := by
    intro other principal m' hm'
    rcases mem_append.1 ((hhanded other principal).subset hm') with hm' | hm'
    · exact .inl hm'
    · split at hm'
      next hboth => exact .inr ⟨hboth, mem_singleton.1 hm'⟩
      next => cases hm'
  refine ⟨?_, ?_, ?_, ?_, ?_, ?_, ?_, ?_⟩
  · intro other principal
    refine List.Pairwise.sublist (hhanded other principal) ?_
    refine pairwise_append.2 ⟨h.increasing other principal, ?_, ?_⟩
    · split
      next => exact pairwise_singleton _ _
      next => exact List.Pairwise.nil
    · intro a ha b hb
      split at hb
      next hboth =>
        obtain rfl := mem_singleton.1 hb
        obtain ⟨rfl, rfl⟩ := hboth
        exact hlast a ha
      next => cases hb
  · intro other principal m' hm'
    rw [hsame.2.1]
    rcases hmem other principal m' hm' with hm' | ⟨_, rfl⟩
    · exact h.stamped other principal m' hm'
    · exact hseq
  · intro other principal m' hm'
    rcases mem_append.1 ((hqueue other principal).subset hm') with hm' | hm'
    · exact h.filed other principal m' hm'
    · split at hm'
      next hboth => exact mem_singleton.1 hm' ▸ hboth.2
      next => cases hm'
  · rw [hsame.1, hsame.2.2.1]
    exact h.started
  · rw [hsame.1, hsame.2.1]
    exact h.pending
  · rw [hsame.1]
    exact h.distinct
  · rw [hsame.1]
    exact h.once
  · rw [hsame.1]
    intro number p m' other hp hm' hawaits x hx
    rcases hmem other m'.principal x hx with hx | ⟨⟨rfl, hprincipal⟩, rfl⟩
    · exact h.above number p m' other hp hm' hawaits x hx
    · exact hnext number p m' hp hm' hprincipal.symm hawaits

/-- A new publication is numbered above everything. -/
theorem Ordered.publish (h : s.Ordered) (hword : s.ipcSeq < wordLimit) (thread : Nat)
    (event : Option (PrincipalKey × Nat × α)) (lock : Option (Nat × Nat)) :
    Ordered { s with
      ipcSeq := if event.isSome then s.ipcSeq + 1 else s.ipcSeq
      publishOrder := lock
      publications := s.publications.insert s.started ⟨thread, s.stamp event, .notifying⟩
      started := s.started + 1 } := by
  have hle : s.ipcSeq ≤ if event.isSome then s.ipcSeq + 1 else s.ipcSeq := by
    split <;> omega
  -- The publications are the new one, stamped with the counter, and those there were.
  have hcases : ∀ (number : Nat) (p : Publication α),
      (s.publications.insert s.started ⟨thread, s.stamp event, .notifying⟩)[number]? = some p →
      (number = s.started ∧ p.phase = .notifying ∧ ∀ m, p.message = some m →
        m.seq = s.ipcSeq ∧ event.isSome = true) ∨ s.publications[number]? = some p := by
    intro number p hp
    rcases insert_cases hp with ⟨rfl, rfl⟩ | ⟨_, hp⟩
    · refine .inl ⟨rfl, rfl, ?_⟩
      intro m hm
      cases event with
      | none => cases hm
      | some =>
        obtain rfl := Option.some.inj hm
        exact ⟨Nat.mod_eq_of_lt hword, rfl⟩
    · exact .inr hp
  refine ⟨h.increasing, ?_, h.filed, ?_, ?_, ?_, ?_, ?_⟩
  · intro route principal m hm
    exact (h.stamped route principal m hm).trans_le hle
  · intro number p hp
    rcases hcases number p hp with ⟨rfl, _⟩ | hp
    · exact Nat.lt_succ_self _
    · exact (h.started number p hp).trans (Nat.lt_succ_self _)
  · intro number p m hp hm
    rcases hcases number p hp with ⟨_, _, hnew⟩ | hp
    · obtain ⟨_, hsome⟩ := hnew m hm
      dsimp only
      rw [if_pos hsome]
      omega
    · exact (h.pending number p m hp hm).trans_le hle
  · intro number number' p p' m m' hp hm hp' hm' heq
    rcases hcases number p hp with ⟨hnumber, _, hnew⟩ | hp
    · rcases hcases number' p' hp' with ⟨hnumber', _⟩ | hp'
      · rw [hnumber, hnumber']
      · have := h.pending number' p' m' hp' hm'
        have := (hnew m hm).1
        omega
    · rcases hcases number' p' hp' with ⟨_, _, hnew⟩ | hp'
      · have := h.pending number p m hp hm
        have := (hnew m' hm').1
        omega
      · exact h.distinct number number' p p' m m' hp hm hp' hm' heq
  · intro number p routes hp hphase
    rcases hcases number p hp with ⟨_, hnotifying, _⟩ | hp
    · cases hnotifying.symm.trans hphase
    · exact h.once number p routes hp hphase
  · intro number p m route hp hm hawaits m' hm'
    rcases hcases number p hp with ⟨_, _, hnew⟩ | hp
    · rw [(hnew m hm).1]
      exact h.stamped route m.principal m' hm'
    · exact h.above number p m route hp hm hawaits m' hm'

theorem Ordered.step (h : s.Ordered) (horder : s.InStampOrder s') (hstep : Step s s') :
    s'.Ordered := by
  -- A route whose queues are not filled hands out what it did, or less.
  have hroute : ∀ (route : Nat) (entry : RouteEntry α),
      (∀ principal, entry.queueOf principal <+ s.queueAt route principal) →
      Ordered { s with routes := s.routes.insert route entry } := by
    intro route entry hless
    have hqueue : ∀ other principal, queueAt { s with routes := s.routes.insert route entry }
        other principal <+ s.queueAt other principal := by
      intro other principal
      refine queueAt_insert s route other entry s.received principal ▸ ?_
      split
      next heq => exact heq ▸ hless principal
      next => exact List.Sublist.refl _
    exact h.shrink (h.same_publications rfl) (fun other principal => (List.Sublist.refl _).append
      (hqueue other principal)) hqueue
  cases hstep with
  | publish thread _ event => exact h.publish horder.1 thread event _
  | release _ _ _ hp hphase =>
    refine h.shrink (h.next_phase hp ?_ ?_)
    · intro route _
      rw [hphase]
      exact trivial
    · intro routes hroutes
      cases hroutes
  | matchRoutes _ _ _ _ hp hphase _ hperm =>
    refine h.shrink (h.next_phase hp ?_ ?_)
    · intro route _
      rw [hphase]
      exact trivial
    · intro routes hroutes
      obtain rfl := Phase.enqueuing.inj hroutes
      refine hperm.nodup_iff.2 ((filter_sublist.map _).nodup ?_)
      rw [Std.ExtTreeMap.map_fst_toList_eq_keys]
      exact Std.ExtTreeMap.nodup_keys
  | enqueue number p m route rest now hp hphase hmessage =>
    have hnodup := h.once number p _ hp hphase
    rw [nodup_cons] at hnodup
    have hphased : (s.setPhase number p (.enqueuing rest)).Ordered := by
      refine h.shrink (h.next_phase hp ?_ ?_)
      · intro other hother
        rw [hphase]
        exact mem_cons_of_mem _ hother
      · intro routes hroutes
        obtain rfl := Phase.enqueuing.inj hroutes
        exact hnodup.2
    refine hphased.enqueueAt now (h.pending number p m hp hmessage)
      (h.above number p m route hp hmessage (by rw [hphase]; exact mem_cons_self)) ?_
    intro other q m' hq hm' hprincipal hawaits
    unfold setPhase at hq
    rcases insert_cases hq with ⟨rfl, rfl⟩ | ⟨hne, hq⟩
    · exact absurd hawaits hnodup.1
    · have hnot := horder.2 number p m route rest hp hmessage hphase
        (by
          unfold EventBus.enqueueAt setPhase
          split <;> (dsimp only; rw [getElem?_insert_of, if_pos rfl])) other q m' hq hm' hprincipal
      have hdistinct : m.seq ≠ m'.seq := fun heq =>
        hne (h.distinct number other p q m m' hp hmessage hq hm' heq)
      by_contra hle
      exact hnot (by omega) hawaits
  | done =>
    refine h.shrink ?_
    intro other q hq
    have hq := getElem?_of_erase hq
    exact ⟨q, hq, rfl, fun _ => id, fun routes => h.once other q routes hq⟩
  | receive route entry m principal now hentry hhead =>
    have hqueue : ∀ k, s.queueAt route k = entry.queueOf k := by
      intro k
      unfold queueAt
      rw [hentry]
      rfl
    obtain ⟨rest, hrest⟩ : ∃ rest, entry.queueOf principal = m :: rest :=
      ⟨_, eq_cons_of_mem_head? hhead⟩
    have hprincipal : m.principal = principal :=
      h.filed route principal m (by rw [hqueue, hrest]; exact mem_cons_self)
    refine h.shrink (h.same_publications rfl) ?_ ?_
    · intro other k
      unfold handed receivedFrom
      rw [queueAt_insert, RouteEntry.queueOf_popFront, filter_append, map_append]
      by_cases hother : route = other
      · obtain rfl := hother
        rw [hqueue]
        by_cases hk : principal = k
        · -- The head moves from the queue to the receiver.
          obtain rfl := hk
          simp [hprincipal, hrest]
        · simp [hprincipal, hk]
      · simp [hother]
    · intro other k
      rw [queueAt_insert]
      split
      next heq =>
        rw [← heq, hqueue]
        exact entry.queueOf_popFront_sublist principal k now
      next => exact List.Sublist.refl _
  | subscribe route =>
    exact hroute route _ fun principal => by
      exact nil_sublist _
  | setGate route _ _ hentry =>
    refine hroute route _ fun principal => ?_
    unfold queueAt
    rw [hentry]
    exact List.Sublist.refl _
  | unsubscribe route =>
    have hqueue : ∀ other principal, queueAt { s with routes := s.routes.erase route }
        other principal <+ s.queueAt other principal := by
      intro other principal
      unfold queueAt
      rw [getElem?_erase_of]
      split
      next => exact nil_sublist _
      next => exact List.Sublist.refl _
    exact h.shrink (h.same_publications rfl) (fun other principal => (List.Sublist.refl _).append
      (hqueue other principal)) hqueue

theorem ordered_new : (new : EventBus α).Ordered := by
  have hhanded : ∀ route principal, (new : EventBus α).handed route principal = [] := by
    intro route principal
    rfl
  have hqueue : ∀ route principal, (new : EventBus α).queueAt route principal = [] := by
    intro route principal
    exact (append_eq_nil_iff.1 (hhanded route principal)).2
  have hnone : ∀ number, (new : EventBus α).publications[number]? = none :=
    fun _ => Std.ExtTreeMap.getElem?_empty
  refine ⟨?_, ?_, ?_, ?_, ?_, ?_, ?_, ?_⟩ <;> simp [hhanded, hqueue, hnone]

/-- Publications that do not overlap are fanned out in stamp order. -/
theorem Step.inStampOrder (hstep : Step s s') (number : Nat) (hlimit : s.ipcSeq < wordLimit)
    (halone : s.publications.toList.all fun entry => entry.1 = number) :
    Step s s' ∧ s.InStampOrder s' := by
  refine ⟨hstep, hlimit, ?_⟩
  intro first p m _ _ hp hm _ _ earlier q m' hq hm' _ hlt
  have honly : ∀ (k : Nat) (r : Publication α), s.publications[k]? = some r → k = number := by
    intro k r hr
    simpa using all_eq_true.1 halone (k, r)
      (Std.ExtTreeMap.mem_toList_iff_getElem?_eq_some.2 hr)
  obtain rfl : earlier = first := (honly earlier q hq).trans (honly first p hp).symm
  obtain rfl : p = q := Option.some.inj (hp.symm.trans hq)
  obtain rfl : m = m' := Option.some.inj (hm.symm.trans hm')
  exact absurd hlt (lt_irrefl _)

/-- A bus with one route, which takes everything. -/
def subscribed : EventBus Unit :=
  ⟨1, none, ∅, 0, (∅ : FMap Nat (RouteEntry Unit)).insert 0
    ⟨fun _ => true, fun _ _ => true, true, ∅, 0⟩, []⟩

theorem step_subscribed : Step (new : EventBus Unit) subscribed :=
  .subscribe new 0 _ _ true (by rfl)

/-- In every run whose publications are fanned out in stamp order, every receiver gets the
messages of each principal by increasing number. -/
theorem routed_in_order {s : EventBus α}
    (hrun : Relation.ReflTransGen (fun a b => Step a b ∧ InStampOrder a b) new s) (route : Nat)
    (principal : PrincipalKey) :
    (s.receivedFrom route principal).Pairwise fun m m' => m.seq < m'.seq := by
  have hordered : s.Ordered := by
    induction hrun with
    | refl => exact ordered_new
    | tail _ hstep ih => exact ih.step hstep.2 hstep.1
  exact (hordered.increasing route principal).sublist (sublist_append_left _ _)

/-- Two publications, one after the other. -/
theorem routed_in_order_of_two : ∃ s : EventBus Unit,
    (s.receivedFrom 0 none).map IpcMessage.seq = [1, 2] ∧
    (s.receivedFrom 0 none).Pairwise fun m m' => m.seq < m'.seq := by
  refine ⟨_, ?_, routed_in_order (.trans (.single (step_subscribed.inStampOrder 0 ?_ ?_))
    (.head (Step.inStampOrder (.publish _ 0 0 (some (none, 8, ())) ?_ ?_) 0 ?_ ?_)
    (.head (Step.inStampOrder (.release _ 0 0 ⟨0, some ⟨none, 1, 8, ()⟩, .notifying⟩
      ?_ rfl ?_ rfl) 0 ?_ ?_)
    (.head (Step.inStampOrder (.matchRoutes _ 0 ⟨0, some ⟨none, 1, 8, ()⟩, .matching⟩ _ _
      ?_ rfl rfl (.refl _)) 0 ?_ ?_)
    (.head (Step.inStampOrder (.enqueue _ 0 ⟨0, some ⟨none, 1, 8, ()⟩, .enqueuing [0]⟩ _ 0 [] 0
      ?_ rfl rfl) 0 ?_ ?_)
    (.head (Step.inStampOrder (.done _ 0 ⟨0, some ⟨none, 1, 8, ()⟩, .enqueuing []⟩
      ?_ (.inl rfl)) 0 ?_ ?_)
    (.head (Step.inStampOrder (.publish _ 0 0 (some (none, 8, ())) ?_ ?_) 0 ?_ ?_)
    (.head (Step.inStampOrder (.release _ 1 0 ⟨0, some ⟨none, 2, 8, ()⟩, .notifying⟩
      ?_ rfl ?_ rfl) 1 ?_ ?_)
    (.head (Step.inStampOrder (.matchRoutes _ 1 ⟨0, some ⟨none, 2, 8, ()⟩, .matching⟩ _ _
      ?_ rfl rfl (.refl _)) 1 ?_ ?_)
    (.head (Step.inStampOrder (.enqueue _ 1 ⟨0, some ⟨none, 2, 8, ()⟩, .enqueuing [0]⟩ _ 0 [] 0
      ?_ rfl rfl) 1 ?_ ?_)
    (.head (Step.inStampOrder (.receive _ 0 _ ⟨none, 1, 8, ()⟩ none 0 (by rfl) ?_) 1 ?_ ?_)
    (.single (Step.inStampOrder (.receive _ 0 _ ⟨none, 2, 8, ()⟩ none 0 (by rfl) ?_) 1
      ?_ ?_))))))))))))) 0 none⟩
  all_goals first | rfl | decide

/-- A subscriber publishes from within its notification: the routed receiver gets the follow-up
first. -/
theorem follow_up_overtakes : ∃ s : EventBus Unit, Relation.ReflTransGen Step new s ∧
    (s.receivedFrom 0 none).map IpcMessage.seq = [2, 1] := by
  refine ⟨_, .trans (.single step_subscribed) (.head (.publish _ 0 0 (some (none, 8, ()))
    (by decide) (by decide)) (.head (.publish _ 0 1 (some (none, 8, ())) (by decide) (by decide))
    (.head (.release _ 1 1 ⟨0, some ⟨none, 2, 8, ()⟩, .notifying⟩ (by rfl) rfl (by decide) rfl)
    (.head (.matchRoutes _ 1 ⟨0, some ⟨none, 2, 8, ()⟩, .matching⟩ _ _ (by rfl) rfl rfl
      (.refl _))
    (.head (.enqueue _ 1 ⟨0, some ⟨none, 2, 8, ()⟩, .enqueuing [0]⟩ _ 0 [] 0 (by rfl) rfl rfl)
    (.head (.done _ 1 ⟨0, some ⟨none, 2, 8, ()⟩, .enqueuing []⟩ (by rfl) (.inl rfl))
    (.head (.release _ 0 0 ⟨0, some ⟨none, 1, 8, ()⟩, .notifying⟩ (by rfl) rfl (by decide) rfl)
    (.head (.matchRoutes _ 0 ⟨0, some ⟨none, 1, 8, ()⟩, .matching⟩ _ _ (by rfl) rfl rfl
      (.refl _))
    (.head (.enqueue _ 0 ⟨0, some ⟨none, 1, 8, ()⟩, .enqueuing [0]⟩ _ 0 [] 0 (by rfl) rfl rfl)
    (.head (.receive _ 0 _ ⟨none, 2, 8, ()⟩ none 0 (by rfl) (by rfl))
    (.single (.receive _ 0 _ ⟨none, 1, 8, ()⟩ none 0 (by rfl) (by rfl))))))))))))), ?_⟩
  decide

end EventBus

end Astrid.Bus
