import Astrid.Lib.Bytes

/-!
# The fuel-rate limiter

`fuel_ledger.rs` bounds the fuel a principal burns in a second. A call reserves the most it
can burn before it runs (`try_reserve`) and settles what it did burn when it ends
(`settle_reserved`; a dropped reservation settles in full). The settled fuel of the current
second is kept in a window per principal, the promised fuel in a counter of its own that no
window roll touches.

Both calls hold the guard of the principal's map entry from their first read to their last
write, so each is one step of `System`. A prune pass holds no such guard: it visits the
counters and then the windows, one principal at a time, with other calls in between, and it
goes on using the time it was started with. Instants are nanoseconds, and `u64` amounts are
natural numbers under the checked and saturating operations of the source.
-/

namespace Astrid.Fuel

/-- `u64::saturating_add`. -/
def saturatingAdd (a b : Nat) : Nat := min (a + b) (wordLimit - 1)

structure FuelWindow where
  windowStart : Nat
  fuelInWindow : Nat
  deriving DecidableEq

/-- `WINDOW`, one second. -/
def window : Nat := 1000000000

def pruneThreshold : Nat := 1000

def pruneInterval : Nat := 60 * window

def FuelWindow.roll (w : FuelWindow) (now : Nat) : FuelWindow :=
  if now - w.windowStart ≥ window then ⟨now, 0⟩ else w

structure FuelRateLimiter (K : Type) [Key K] where
  inner : FMap K FuelWindow
  reserved : FMap K Nat
  lastPrune : Nat

structure FuelReservation (K : Type) where
  principal : K
  amount : Nat
  settled : Bool
  deriving DecidableEq

namespace FuelRateLimiter

variable {K : Type} [Key K] (self : FuelRateLimiter K)

/-- `Default::default`, with the instant it reads. -/
def new (now : Nat) : FuelRateLimiter K := ⟨∅, ∅, now⟩

variable (principal : K)

def reservedAmount : Nat := self.reserved[principal]?.getD 0

/-- `entry(principal).or_insert_with`: the window there is, or a fresh one. -/
def cell (now : Nat) : FuelWindow := self.inner[principal]?.getD ⟨now, 0⟩

def tryReserve (maxFuelPerSec amount now : Nat) : Option (FuelReservation K) × FuelRateLimiter K :=
  if maxFuelPerSec = 0 then (some ⟨principal, 0, false⟩, self)
  else
    let w := (self.cell principal now).roll now
    let rolled := { self with inner := self.inner.insert principal w }
    let reserved := self.reservedAmount principal
    let total := (checkedAdd w.fuelInWindow reserved).bind fun total => checkedAdd total amount
    if total.all fun total => decide (total > maxFuelPerSec) then (none, rolled)
    else
      (some ⟨principal, amount, false⟩, { rolled with
          reserved := self.reserved.insert principal (saturatingAdd reserved amount) })

/-- The guarded part of `settle_reserved`; the prune pass it may start comes later. -/
def settleReserved (amount actualFuel now : Nat) : FuelRateLimiter K :=
  let w := (self.cell principal now).roll now
  { self with
    inner := self.inner.insert principal
      { w with fuelInWindow := saturatingAdd w.fuelInWindow actualFuel }
    reserved :=
      match self.reserved[principal]? with
      | some value =>
        if amount ≠ 0 then self.reserved.insert principal (value - amount) else self.reserved
      | none => self.reserved }

/-- The effect of `over_budget`, which rolls a window it finds. -/
def overBudget (maxFuelPerSec now : Nat) : Bool × FuelRateLimiter K :=
  if maxFuelPerSec = 0 then (false, self)
  else
    match self.inner[principal]? with
    | none => (decide (self.reservedAmount principal > maxFuelPerSec), self)
    | some cell =>
      let w := cell.roll now
      ((checkedAdd w.fuelInWindow (self.reservedAmount principal)).all fun total =>
          decide (total > maxFuelPerSec),
        { self with inner := self.inner.insert principal w })

/-- The effect of `capacity_changed`, which makes the window it listens to. -/
def capacityChanged (now : Nat) : FuelRateLimiter K :=
  { self with inner := self.inner.insert principal (self.cell principal now) }

/-- The guard of `maybe_prune`: a pass starts on a large map, at most once a minute. -/
def maybePrune (now : Nat) : Option (FuelRateLimiter K) :=
  if self.inner.size ≤ pruneThreshold then none
  else if now - self.lastPrune < pruneInterval then none
  else some { self with lastPrune := now }

/-- A pass at one counter: `reserved.retain`. -/
def retainReserved : FuelRateLimiter K :=
  if self.reservedAmount principal > 0 then self
  else { self with reserved := self.reserved.erase principal }

/-- A pass at one window: `inner.retain`. A window that is locked by someone or has
listeners is `held`. -/
def retainWindow (now : Nat) (held : Bool) : FuelRateLimiter K :=
  match self.inner[principal]? with
  | none => self
  | some w =>
    if now - w.windowStart < window ∨ held = true ∨ self.reservedAmount principal > 0 then self
    else { self with inner := self.inner.erase principal }

end FuelRateLimiter

namespace FuelReservation

variable {K : Type} [Key K]

/-- The first call takes effect, every other does nothing. -/
def settle (self : FuelReservation K) (limiter : FuelRateLimiter K) (actualFuel now : Nat) :
    FuelReservation K × FuelRateLimiter K :=
  if self.settled then (self, limiter)
  else ({ self with settled := true },
    limiter.settleReserved self.principal self.amount actualFuel now)

end FuelReservation

/-! ## Any number of callers -/

/-- One settled call: the fuel it was charged, when, and the start of the window charged. -/
structure Settlement where
  windowStart : Nat
  time : Nat
  fuel : Nat

/-- The fuel settled in the calls that `P` selects. -/
def spent (history : List Settlement) (P : Settlement → Prop) [DecidablePred P] : Nat :=
  (history.map fun e => if P e then e.fuel else 0).sum

/-- The limiter with every reservation handed out, the times of the prune passes that were
started, the latest time anyone passed in, and what was settled so far. -/
structure System (K : Type) [Key K] where
  limiter : FuelRateLimiter K
  handles : List (FuelReservation K)
  passes : List Nat
  clock : Nat
  settlements : List (K × Settlement)

namespace System

variable {K : Type} [Key K]

def initial (now : Nat) : System K := ⟨.new now, [], [], now, []⟩

/-- The reservation at `i` settles. -/
def settleAt (s : System K) (i : Nat) (handle : FuelReservation K) (actualFuel now : Nat) :
    System K :=
  let (handle', limiter) := handle.settle s.limiter actualFuel now
  { s with
    limiter := limiter
    handles := s.handles.set i handle'
    clock := now
    settlements :=
      if handle.settled then s.settlements
      else (handle.principal,
        ⟨((s.limiter.cell handle.principal now).roll now).windowStart, now, actualFuel⟩) ::
          s.settlements }

/-- One step of anyone. The principal `owner` is given the budget `B` in all its calls and
settles no more than it reserved; the calls of the other principals are not restricted. -/
inductive Step (owner : K) (B : Nat) : System K → System K → Prop
  | refused (s : System K) (principal : K) (maxFuelPerSec amount now : Nat)
      (limiter : FuelRateLimiter K) (hclock : s.clock ≤ now)
      (hbudget : principal = owner → maxFuelPerSec = B)
      (h : s.limiter.tryReserve principal maxFuelPerSec amount now = (none, limiter)) :
      Step owner B s { s with limiter := limiter, clock := now }
  | reserved (s : System K) (principal : K) (maxFuelPerSec amount now : Nat)
      (handle : FuelReservation K) (limiter : FuelRateLimiter K) (hclock : s.clock ≤ now)
      (hbudget : principal = owner → maxFuelPerSec = B)
      (h : s.limiter.tryReserve principal maxFuelPerSec amount now = (some handle, limiter)) :
      Step owner B s
        { s with limiter := limiter, handles := s.handles ++ [handle], clock := now }
  | settle (s : System K) (i : Nat) (handle : FuelReservation K) (actualFuel now : Nat)
      (hclock : s.clock ≤ now) (hhandle : s.handles[i]? = some handle)
      (hactual : handle.principal = owner → actualFuel ≤ handle.amount) :
      Step owner B s (s.settleAt i handle actualFuel now)
  | drop (s : System K) (i : Nat) (handle : FuelReservation K) (now : Nat)
      (hclock : s.clock ≤ now) (hhandle : s.handles[i]? = some handle) :
      Step owner B s (s.settleAt i handle handle.amount now)
  | overBudget (s : System K) (principal : K) (maxFuelPerSec now : Nat)
      (hclock : s.clock ≤ now) :
      Step owner B s
        { s with limiter := (s.limiter.overBudget principal maxFuelPerSec now).2, clock := now }
  | capacityChanged (s : System K) (principal : K) (now : Nat) (hclock : s.clock ≤ now) :
      Step owner B s { s with limiter := s.limiter.capacityChanged principal now, clock := now }
  | maybePrune (s : System K) (now : Nat) (limiter : FuelRateLimiter K) (hclock : s.clock ≤ now)
      (h : s.limiter.maybePrune now = some limiter) :
      Step owner B s { s with limiter := limiter, passes := now :: s.passes, clock := now }
  | retainReserved (s : System K) (principal : K) (now : Nat) (hpass : now ∈ s.passes) :
      Step owner B s { s with limiter := s.limiter.retainReserved principal }
  | retainWindow (s : System K) (principal : K) (now : Nat) (held : Bool)
      (hpass : now ∈ s.passes) :
      Step owner B s { s with limiter := s.limiter.retainWindow principal now held }

def Reachable (owner : K) (B : Nat) (s : System K) : Prop :=
  ∃ now, Relation.ReflTransGen (Step owner B) (initial now) s

/-- What `owner` has reserved and not settled. -/
def outstanding (s : System K) (owner : K) : Nat :=
  (s.handles.map fun handle =>
    if handle.principal = owner ∧ handle.settled = false then handle.amount else 0).sum

/-- What `owner` settled, the latest first. -/
def history (s : System K) (owner : K) : List Settlement :=
  (s.settlements.filter fun e => e.1 = owner).map Prod.snd

end System

end Astrid.Fuel
