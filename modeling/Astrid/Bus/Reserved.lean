import Astrid.Lib.Bytes
import Astrid.Lib.Maps
import Mathlib.Logic.Relation

/-!
# Reserved publication

`astrid-events`: `bus.rs` (`reserve_publication`, `commit_reserved`, `publish_reserved`) and
`ordered_delivery.rs`.  A publisher reserves the consumers' capacity and a place in the
dispatcher's inbox without holding the publish lock, and commits later.  Stamping, sending to the
inbox and closing it happen under the lock, so each is one step here.

An inbox is only installed when the one before it is closed, and closing drains it.  So one queue
is enough: that of the last inbox, and the handoff of a publication names its inbox by number.
The dispatcher takes a delivery out of the inbox and delivers its reservation before it takes the
next.  The sequence counter has 64 bits and comes round, so the order of the numbers holds for the
first `2 ^ 64 - 1` IPC messages of a bus (`reserved_exactly_once`, `sequence_wraps`).
-/

namespace Astrid.Bus

open List Option

inductive DeliveryAdmissionError
  | closed
  | selfDependency
  | invalidEvent
deriving DecidableEq, Repr

/-- A published event: the number of an IPC message, and the publication that reserved capacity
for it. -/
structure OrderedDelivery where
  seq : Option Nat
  reservation : Option Nat
deriving DecidableEq, Repr

/-- How far a reservation is: its consumers are reserved, it waits for a place in an inbox, or
it can be committed. -/
inductive ReservationPhase
  | admitted
  | waiting (inbox : Nat)
  | ready (handoff : Option Nat)
deriving DecidableEq, Repr

structure ReservedPublication where
  ipc : Bool
  /-- There was an admitter that reserved the consumers' capacity. -/
  delivery : Bool
  phase : ReservationPhase

/-- What is delivered for the publication with a number. -/
def ReservedPublication.reservation (p : ReservedPublication) (number : Nat) : Option Nat :=
  if p.delivery then some number else none

structure Lane where
  capacity : Nat
  /-- One more than the IPC messages stamped so far; a message gets it modulo `2 ^ 64`. -/
  ipcSeq : Nat
  /-- The registered admitter, and whether its owner still has it. -/
  deliveryAdmitter : Option Bool
  /-- How many inboxes were installed; the slot has the last one. -/
  inboxes : Nat
  closed : Bool
  queue : List OrderedDelivery
  publications : FMap Nat ReservedPublication
  started : Nat
  /-- The publications with a reservation whose commit returned `Ok`. -/
  committed : List Nat
  /-- Those that failed or were dropped. -/
  refused : List Nat
  delivered : List Nat
  /-- The numbers of the IPC messages that the inboxes handed out. -/
  handed : List Nat

namespace Lane

def new (capacity : Nat) : Lane := ⟨capacity, 1, none, 0, true, [], ∅, 0, [], [], [], []⟩

variable {s s' : Lane} {number : Nat}

section

variable (s : Lane)

def isClosed (inbox : Nat) : Bool := s.closed || inbox ≠ s.inboxes

/-- The places of the inbox that are taken, by deliveries and by permits. -/
def taken : Nat :=
  s.queue.length +
    s.publications.toList.countP fun entry => entry.2.phase = .ready (some s.inboxes)

/-- The checks of `commit_reserved`. -/
def commitGuards (delivery : Bool) (handoff : Option Nat)
    (guards : Except DeliveryAdmissionError Unit) : Except DeliveryAdmissionError Unit :=
  if !delivery && s.deliveryAdmitter.isSome then .error .closed
  else if handoff.isNone && s.inboxes ≠ 0 then .error .closed
  else if handoff.any s.isClosed then .error .closed
  else if delivery then guards
  else .ok ()

/-- `into_unreserved` of deliveries, in their order. -/
def handOut (deliveries : List OrderedDelivery) : Lane :=
  { s with
    delivered := s.delivered ++ deliveries.filterMap OrderedDelivery.reservation
    handed := s.handed ++ deliveries.filterMap OrderedDelivery.seq }

/-- Take the next number for an IPC message. -/
def stamp (ipc : Bool) : Lane :=
  { s with ipcSeq := if ipc then s.ipcSeq + 1 else s.ipcSeq }

/-- Stamp an event and put it into the inbox. -/
def send (ipc : Bool) (reservation : Option Nat) : Lane :=
  { s.stamp ipc with
    queue := s.queue ++ [⟨if ipc then some (s.ipcSeq % wordLimit) else none, reservation⟩] }

def publishReserved (ipc : Bool) (reservation handoff : Option Nat) : Lane :=
  if handoff.isSome then s.send ipc reservation
  else if s.inboxes ≠ 0 then
    -- An overflow is counted, and the event with its reservation is gone.
    if s.closed || s.capacity ≤ s.taken then s.stamp ipc else s.send ipc reservation
  else { s.stamp ipc with delivered := s.delivered ++ reservation.toList }

end

inductive Step : Lane → Lane → Prop
  | registerDeliveryAdmitter (s : Lane) (hfree : s.deliveryAdmitter ≠ some true) :
      Step s { s with deliveryAdmitter := some true }
  | dropAdmitter (s : Lane) (hlive : s.deliveryAdmitter = some true) :
      Step s { s with deliveryAdmitter := some false }
  | subscribeOrderedDelivery (s : Lane) (hclosed : s.closed = true) :
      Step s { s with inboxes := s.inboxes + 1, closed := false, queue := [] }
  | reserve (s : Lane) (ipc delivery : Bool)
      (hadmitter : s.deliveryAdmitter = if delivery then some true else none) :
      Step s { s with
        publications := s.publications.insert s.started ⟨ipc, delivery, .admitted⟩
        started := s.started + 1 }
  | readSlot (s : Lane) (number : Nat) (p : ReservedPublication)
      (hp : s.publications[number]? = some p) (hphase : p.phase = .admitted) :
      Step s { s with publications := s.publications.insert number { p with
        phase := if s.inboxes = 0 then .ready none else .waiting s.inboxes } }
  | permit (s : Lane) (number inbox : Nat) (p : ReservedPublication)
      (hp : s.publications[number]? = some p) (hphase : p.phase = .waiting inbox)
      (hopen : s.isClosed inbox = false) (hroom : s.taken < s.capacity) :
      Step s { s with
        publications := s.publications.insert number { p with phase := .ready (some inbox) } }
  /-- The reservation fails, is cancelled while it waits, or is dropped. -/
  | abandon (s : Lane) (number : Nat) (p : ReservedPublication)
      (hp : s.publications[number]? = some p) :
      Step s { s with
        publications := s.publications.erase number, refused := s.refused ++ [number] }
  | commit (s : Lane) (number : Nat) (p : ReservedPublication) (handoff : Option Nat)
      (guards : Except DeliveryAdmissionError Unit)
      (hp : s.publications[number]? = some p) (hphase : p.phase = .ready handoff)
      (hok : s.commitGuards p.delivery handoff guards = .ok ()) :
      Step s { s.publishReserved p.ipc (p.reservation number) handoff with
        publications := s.publications.erase number
        committed := s.committed ++ (p.reservation number).toList }
  | commitFails (s : Lane) (number : Nat) (p : ReservedPublication) (handoff : Option Nat)
      (guards : Except DeliveryAdmissionError Unit) (e : DeliveryAdmissionError)
      (hp : s.publications[number]? = some p) (hphase : p.phase = .ready handoff)
      (herror : s.commitGuards p.delivery handoff guards = .error e) :
      Step s { s with
        publications := s.publications.erase number, refused := s.refused ++ [number] }
  | publish (s : Lane) (ipc : Bool) : Step s (s.publishReserved ipc none none)
  | recv (s : Lane) (delivery : OrderedDelivery) (rest : List OrderedDelivery)
      (hopen : s.closed = false) (hqueue : s.queue = delivery :: rest) :
      Step s { s.handOut [delivery] with queue := rest }
  | dropInbox (s : Lane) (hopen : s.closed = false) :
      Step s { s.handOut s.queue with queue := [], closed := true }

/-! ## Delivered or queued -/

/-- The reservations that are delivered or in the inbox. -/
def accepted (s : Lane) : List Nat :=
  s.delivered ++ s.queue.filterMap OrderedDelivery.reservation

/-- The numbers of the messages that are handed out or in the inbox. -/
def numbers (s : Lane) : List Nat := s.handed ++ s.queue.filterMap OrderedDelivery.seq

/-- Until the counter comes round, the numbers increase and the next one is above them. -/
def Ordered (s : Lane) : Prop :=
  s.ipcSeq ≤ wordLimit → s.numbers.Pairwise (· < ·) ∧ ∀ n ∈ s.numbers, n < s.ipcSeq

structure Inv (s : Lane) : Prop where
  accepted_eq : s.accepted = s.committed
  drained : s.closed = true → s.queue = []
  unused : s.inboxes = 0 → s.closed = true
  ordered : s.Ordered
  distinct : (s.committed ++ s.refused).Nodup
  settled : ∀ r ∈ s.committed ++ s.refused, r < s.started ∧ s.publications[r]? = none
  begun : ∀ (r : Nat) (p : ReservedPublication), s.publications[r]? = some p → r < s.started

theorem inv_new (capacity : Nat) : (new capacity).Inv := by
  refine ⟨rfl, fun _ => rfl, fun _ => rfl, fun _ => ⟨.nil, ?_⟩, nodup_nil, ?_, ?_⟩ <;>
    simp [new, numbers]

variable {handoff : Option Nat}

theorem commitGuards_ok {delivery : Bool} {guards : Except DeliveryAdmissionError Unit}
    (h : s.commitGuards delivery handoff guards = .ok ()) :
    (handoff = none → s.inboxes = 0) ∧ ∀ inbox, handoff = some inbox → s.closed = false := by
  unfold commitGuards at h
  split at h
  · cases h
  split at h
  · cases h
  rename_i hslot
  split at h
  · cases h
  rename_i hclosed
  refine ⟨?_, ?_⟩
  · rintro rfl
    simpa using hslot
  · rintro inbox rfl
    simp [isClosed] at hclosed
    exact hclosed.1

theorem accepted_send (s : Lane) (ipc : Bool) (reservation : Option Nat) :
    (s.send ipc reservation).accepted = s.accepted ++ reservation.toList := by
  unfold accepted send
  cases reservation <;> simp [stamp, filterMap_append]

/-- A number that is taken and not used leaves a gap. -/
theorem Ordered.stamp (h : s.Ordered) (ipc : Bool) : (s.stamp ipc).Ordered := by
  cases ipc with
  | false => exact h
  | true =>
    intro hround
    obtain ⟨hincreasing, hstamped⟩ := h ((Nat.le_succ _).trans hround)
    exact ⟨hincreasing, fun n hn => (hstamped n hn).trans (Nat.lt_succ_self _)⟩

theorem Ordered.send (h : s.Ordered) (ipc : Bool) (reservation : Option Nat) :
    (s.send ipc reservation).Ordered := by
  have hnumbers : (s.send ipc reservation).numbers =
      s.numbers ++ if ipc then [s.ipcSeq % wordLimit] else [] := by
    unfold numbers Lane.send
    cases ipc <;> simp [Lane.stamp, filterMap_append]
  intro hround
  rw [hnumbers]
  cases ipc with
  | false =>
    rw [if_neg Bool.false_ne_true, append_nil]
    exact h hround
  | true =>
    obtain ⟨hincreasing, hstamped⟩ := h ((Nat.le_succ _).trans hround)
    rw [if_pos rfl, Nat.mod_eq_of_lt hround]
    refine ⟨pairwise_append.2 ⟨hincreasing, pairwise_singleton _ _, ?_⟩, ?_⟩
    · intro n hn m hm
      rw [mem_singleton.1 hm]
      exact hstamped n hn
    · exact forall_mem_append.2 ⟨fun n hn => (hstamped n hn).trans (Nat.lt_succ_self _),
        forall_mem_singleton.2 (Nat.lt_succ_self _)⟩

/-- What of the invariant is about the inbox. -/
structure Delivers (s s' : Lane) (reservation : Option Nat) : Prop where
  accepted_eq : s'.accepted = s.accepted ++ reservation.toList
  drained : s'.closed = true → s'.queue = []
  ordered : s'.Ordered
  frame : s'.inboxes = s.inboxes ∧ s'.closed = s.closed ∧ s'.publications = s.publications ∧
    s'.started = s.started ∧ s'.committed = s.committed ∧ s'.refused = s.refused

/-- A reservation is never in a publication that the inbox may turn down. -/
theorem Inv.publishReserved (h : s.Inv) (ipc : Bool) {reservation : Option Nat}
    (hhandoff : ∀ inbox, handoff = some inbox → s.closed = false)
    (hslot : handoff = none → reservation ≠ none → s.inboxes = 0) :
    Delivers s (s.publishReserved ipc reservation handoff) reservation := by
  have hsend : s.closed = false → Delivers s (s.send ipc reservation) reservation := by
    intro hopen
    refine ⟨accepted_send s ipc reservation, ?_, h.ordered.send ipc reservation,
      rfl, rfl, rfl, rfl, rfl, rfl⟩
    intro hclosed
    exact absurd (hopen.symm.trans hclosed) (by decide)
  unfold Lane.publishReserved
  cases hcase : handoff with
  | some inbox => exact hsend (hhandoff inbox hcase)
  | none =>
    rw [if_neg (by simp)]
    by_cases hused : s.inboxes ≠ 0
    · obtain rfl : reservation = none := by
        by_contra hne
        exact hused (hslot hcase hne)
      rw [if_pos hused]
      split
      next =>
        exact ⟨(append_nil _).symm, h.drained, h.ordered.stamp ipc, rfl, rfl, rfl, rfl, rfl, rfl⟩
      next hroom =>
        refine hsend ?_
        cases hclosed : s.closed with
        | false => rfl
        | true => exact absurd (by simp [hclosed]) hroom
    · rw [if_neg hused]
      have hqueue : s.queue = [] := h.drained (h.unused (not_not.1 hused))
      refine ⟨?_, h.drained, h.ordered.stamp ipc, rfl, rfl, rfl, rfl, rfl, rfl⟩
      unfold accepted
      simp [hqueue, stamp]

variable {publications : FMap Nat ReservedPublication} {r : Nat} {q : ReservedPublication}

variable {p : ReservedPublication}

section

variable (h : s.Inv) (hp : s.publications[number]? = some p)

include h hp

/-- A reservation that has an end was neither committed nor refused before. -/
theorem Inv.unsettled : number ∉ s.committed ++ s.refused := by
  intro hmem
  rw [(h.settled number hmem).2] at hp
  cases hp

theorem Inv.ended (hr : r = number ∨ r ∈ s.committed ++ s.refused) :
    r < s.started ∧ (s.publications.erase number)[r]? = none := by
  rw [getElem?_erase_of]
  split
  next heq => exact ⟨heq ▸ h.begun number p hp, rfl⟩
  next hne => exact h.settled r (hr.resolve_left (Ne.symm hne))

theorem Inv.refuse :
    Inv { s with
      publications := s.publications.erase number, refused := s.refused ++ [number] } := by
  refine ⟨h.accepted_eq, h.drained, h.unused, h.ordered, ?_, ?_, ?_⟩
  · rw [← append_assoc]
    exact concat_eq_append ▸ h.distinct.concat (h.unsettled hp)
  · intro r hr
    refine h.ended hp ?_
    simp only [mem_append, mem_singleton] at hr ⊢
    tauto
  · intro r q hq
    exact h.begun r q (getElem?_of_erase hq)

/-- A publication that goes on with its reservation. -/
theorem Inv.proceed : Inv { s with publications := s.publications.insert number q } := by
  refine ⟨h.accepted_eq, h.drained, h.unused, h.ordered, h.distinct, ?_, ?_⟩
  · intro r hr
    refine ⟨(h.settled r hr).1, ?_⟩
    rw [getElem?_insert_of, if_neg fun heq : number = r => h.unsettled hp (heq ▸ hr)]
    exact (h.settled r hr).2
  · exact forall_insert (h.begun number p hp) h.begun

end

theorem Inv.published (h : s.Inv) {next : Lane} {reservation : Option Nat}
    (hnext : Delivers s next reservation)
    (hdistinct : (s.committed ++ reservation.toList ++ s.refused).Nodup)
    (hsettled : ∀ r ∈ s.committed ++ reservation.toList ++ s.refused,
      r < s.started ∧ publications[r]? = none)
    (hbegun : ∀ r p, publications[r]? = some p → r < s.started) :
    Inv { next with publications, committed := s.committed ++ reservation.toList } := by
  obtain ⟨hinboxes, hclosed, -, hstarted, -, hrefused⟩ := hnext.frame
  refine ⟨hnext.accepted_eq.trans (congrArg (· ++ _) h.accepted_eq), hnext.drained, ?_,
    hnext.ordered, ?_, ?_, ?_⟩ <;> dsimp only
  · rw [hinboxes, hclosed]
    exact h.unused
  · rw [hrefused]
    exact hdistinct
  · rw [hrefused, hstarted]
    exact hsettled
  · rw [hstarted]
    exact hbegun

/-- What is handed out leaves the inbox at its front. -/
theorem Inv.handOut (h : s.Inv) {taken rest : List OrderedDelivery}
    (hqueue : s.queue = taken ++ rest) {closed : Bool} (hclosed : closed = true → rest = [])
    (hunused : s.inboxes = 0 → closed = true) :
    Inv { s.handOut taken with queue := rest, closed } := by
  have haccepted : s.accepted = (s.delivered ++ taken.filterMap OrderedDelivery.reservation) ++
      rest.filterMap OrderedDelivery.reservation := by
    rw [accepted, hqueue, filterMap_append, append_assoc]
  have hnumbers : s.numbers = (s.handed ++ taken.filterMap OrderedDelivery.seq) ++
      rest.filterMap OrderedDelivery.seq := by
    rw [numbers, hqueue, filterMap_append, append_assoc]
  have hordered := h.ordered
  unfold Ordered at hordered
  rw [hnumbers] at hordered
  exact ⟨haccepted.symm.trans h.accepted_eq, hclosed, hunused, hordered, h.distinct, h.settled,
    h.begun⟩

theorem Inv.step (h : s.Inv) (hstep : Step s s') : s'.Inv := by
  cases hstep with
  | registerDeliveryAdmitter | dropAdmitter => exact ⟨h.1, h.2, h.3, h.4, h.5, h.6, h.7⟩
  | subscribeOrderedDelivery hclosed =>
    -- The inbox before was drained.
    have hqueue := h.drained hclosed
    have haccepted := h.accepted_eq
    have hordered := h.ordered
    unfold accepted at haccepted
    unfold Ordered numbers at hordered
    rw [hqueue] at haccepted hordered
    exact ⟨haccepted, fun _ => rfl, fun hzero => absurd hzero (Nat.succ_ne_zero _), hordered,
      h.distinct, h.settled, h.begun⟩
  | reserve =>
    refine ⟨h.accepted_eq, h.drained, h.unused, h.ordered, h.distinct, ?_, ?_⟩
    · intro r hr
      have hlt := (h.settled r hr).1
      refine ⟨Nat.lt_succ_of_lt hlt, ?_⟩
      rw [getElem?_insert_of, if_neg (ne_of_gt hlt)]
      exact (h.settled r hr).2
    · exact forall_insert (Nat.lt_succ_self _) fun r q hq => Nat.lt_succ_of_lt (h.begun r q hq)
  | readSlot _ _ hp | permit _ _ _ hp => exact h.proceed hp
  | abandon _ _ hp | commitFails _ _ _ _ _ hp => exact h.refuse hp
  | commit number p _ _ hp _ hok =>
    obtain ⟨hslot, hopen⟩ := commitGuards_ok hok
    refine h.published (h.publishReserved p.ipc hopen fun hnone _ => hslot hnone) ?_ ?_ ?_
    · have hperm : (s.committed ++ (p.reservation number).toList ++ s.refused).Perm
          ((p.reservation number).toList ++ (s.committed ++ s.refused)) := by
        rw [← append_assoc]
        exact perm_append_comm.append_right _
      refine hperm.nodup_iff.2 ?_
      unfold ReservedPublication.reservation
      split
      next => exact nodup_cons.2 ⟨h.unsettled hp, h.distinct⟩
      next => exact h.distinct
    · intro r hr
      refine h.ended hp ?_
      unfold ReservedPublication.reservation at hr
      split at hr <;> simp only [mem_append, toList_some, toList_none,
        mem_singleton, not_mem_nil, or_false] at hr ⊢ <;> tauto
    · intro r q hq
      exact h.begun r q (getElem?_of_erase hq)
  | publish ipc =>
    have hnext : Delivers s (s.publishReserved ipc none none) none :=
      h.publishReserved ipc nofun fun _ hne => absurd rfl hne
    have hinv := h.published hnext (by simpa using h.distinct) (by simpa using h.settled) h.begun
    rw [← hnext.frame.2.2.1] at hinv
    simpa [← hnext.frame.2.2.2.2.1] using hinv
  | recv _ _ hopen hqueue =>
    exact h.handOut hqueue (fun hclosed => absurd (hopen.symm.trans hclosed) (by decide)) h.unused
  | dropInbox =>
    exact h.handOut (append_nil _).symm (fun _ => rfl) fun _ => rfl

theorem reachable_inv {capacity : Nat} (hrun : Relation.ReflTransGen Step (new capacity) s) :
    s.Inv := by
  induction hrun with
  | refl => exact inv_new capacity
  | tail _ hstep ih => exact ih.step hstep

/-- In every run the reservations that were committed are the delivered ones followed by those
in the inbox, each once and in the order of their commits, and none is left in a closed inbox; a
reservation that was refused is never delivered; and until `2 ^ 64` IPC messages are stamped the
inboxes hand them out by increasing number. -/
theorem reserved_exactly_once {capacity : Nat}
    (hrun : Relation.ReflTransGen Step (new capacity) s) :
    s.delivered ++ s.queue.filterMap OrderedDelivery.reservation = s.committed ∧
    s.committed.Nodup ∧ (s.closed = true → s.queue = []) ∧
    (∀ r ∈ s.refused, r ∉ s.delivered) ∧
    (s.ipcSeq ≤ wordLimit → s.handed.Pairwise (· < ·)) := by
  have h := reachable_inv hrun
  refine ⟨h.accepted_eq, h.distinct.of_append_left, h.drained, ?_, ?_⟩
  · intro r hr hdelivered
    have hcommitted : r ∈ s.committed := h.accepted_eq ▸ mem_append_left _ hdelivered
    exact disjoint_of_nodup_append h.distinct hcommitted hr
  · intro hround
    exact (h.ordered hround).1.sublist (sublist_append_left _ _)

/-- A reservation is committed to the inbox, and the inbox is dropped. -/
theorem reserved_exactly_once_dropped : ∃ s : Lane, s.committed = [0] ∧ s.closed = true ∧
    s.delivered ++ s.queue.filterMap OrderedDelivery.reservation = s.committed := by
  have hrun : Relation.ReflTransGen Step (new 1) _ :=
    .head (.registerDeliveryAdmitter _ (by decide)) (.head (.subscribeOrderedDelivery _ rfl)
    (.head (.reserve _ true true rfl) (.head (.readSlot _ 0 ⟨true, true, .admitted⟩ (by rfl) rfl)
    (.head (.permit _ 0 1 ⟨true, true, .waiting 1⟩ (by rfl) rfl rfl (by decide))
    (.head (.commit _ 0 ⟨true, true, .ready (some 1)⟩ (some 1) (.ok ()) (by rfl) rfl rfl)
    (.single (.dropInbox _ rfl)))))))
  exact ⟨_, rfl, rfl, (reserved_exactly_once hrun).1⟩

/-- A bus without an inbox that has stamped some messages. -/
theorem stamps_reachable (capacity stamps : Nat) :
    Relation.ReflTransGen Step (new capacity) { new capacity with ipcSeq := stamps + 1 } := by
  induction stamps with
  | zero => exact .refl
  | succ _ ih => exact ih.tail (.publish _ true)

/-- An inbox that is installed before the counter comes round hands out the last number and then
zero. -/
theorem sequence_wraps : ∃ s : Lane, Relation.ReflTransGen Step (new 2) s ∧
    s.handed = [2 ^ 64 - 1, 0] :=
  ⟨_, (stamps_reachable 2 (2 ^ 64 - 2)).trans (.head (.subscribeOrderedDelivery _ rfl)
    (.head (.publish _ true) (.head (.publish _ true)
    (.head (.recv _ ⟨some (2 ^ 64 - 1), none⟩ [⟨some 0, none⟩] rfl rfl)
    (.single (.recv _ ⟨some 0, none⟩ [] rfl rfl)))))), rfl⟩

end Lane

end Astrid.Bus
