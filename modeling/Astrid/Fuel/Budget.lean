import Astrid.Fuel.Limiter

/-!
# A fuel budget is not multiplied by concurrent calls

An `Account` is one principal's part of the limiter: its window, its counter, what it has
promised, what it settled. What the calls and the prune passes do to it are six moves, and
each keeps `Account.Inv`: promised and counted fuel agree, settled and promised fuel fit the
budget together, and the windows that fuel was settled in start a second or more apart
(`Inv.apart`). Two instants of one second then meet two windows at most, which is the bound
`2 * B` on what any second sees settled.

`System.simulates` says that every step of the limiter makes moves of each account.
-/

namespace Astrid.Fuel

open List Option

open Relation (ReflTransGen)

variable {B : Nat} {a : Account}

/-- One principal's part of the limiter. -/
structure Account where
  window? : Option FuelWindow
  reserved : Nat
  outstanding : Nat
  history : List Settlement
  clock : Nat

namespace Account

/-- The fuel of the current window. -/
def current (a : Account) : Nat := a.window?.elim 0 FuelWindow.fuelInWindow

inductive Move (B : Nat) : Account → Account → Prop
  | wait (a : Account) (now : Nat) (hclock : a.clock ≤ now) : Move B a { a with clock := now }
  | start (a : Account) (hnone : a.window? = none) :
      Move B a { a with window? := some ⟨a.clock, 0⟩ }
  | roll (a : Account) (w : FuelWindow) (hw : a.window? = some w)
      (hstale : w.windowStart + window ≤ a.clock) :
      Move B a { a with window? := some ⟨a.clock, 0⟩ }
  | reserve (a : Account) (amount : Nat) (hroom : a.current + a.reserved + amount ≤ B) :
      Move B a { a with
        reserved := a.reserved + amount
        outstanding := a.outstanding + amount }
  | settle (a : Account) (w : FuelWindow) (amount fuel : Nat) (hw : a.window? = some w)
      (hfresh : a.clock < w.windowStart + window) (hamount : amount ≤ a.outstanding)
      (hfuel : fuel ≤ amount) :
      Move B a { a with
        window? := some ⟨w.windowStart, w.fuelInWindow + fuel⟩
        reserved := a.reserved - amount
        outstanding := a.outstanding - amount
        history := ⟨w.windowStart, a.clock, fuel⟩ :: a.history }
  | forget (a : Account) (w : FuelWindow) (hw : a.window? = some w)
      (hstale : w.windowStart + window ≤ a.clock) :
      Move B a { a with window? := none }

structure Inv (B : Nat) (a : Account) : Prop where
  counted : a.reserved = a.outstanding
  room : a.current + a.reserved ≤ B
  bounded : ∀ start, spent a.history (·.windowStart = start) ≤ B
  within : ∀ e ∈ a.history, e.windowStart ≤ e.time ∧ e.time < e.windowStart + window
  apart : ∀ e ∈ a.history, ∀ e' ∈ a.history, e.windowStart < e'.windowStart →
    e.windowStart + window ≤ e'.windowStart
  started : ∀ w, a.window? = some w → w.windowStart ≤ a.clock
  exact : ∀ w, a.window? = some w → w.fuelInWindow = spent a.history (·.windowStart = w.windowStart)
  latest : ∀ w, a.window? = some w → ∀ e ∈ a.history,
    e.windowStart = w.windowStart ∨ e.windowStart + window ≤ w.windowStart
  past : a.window? = none → ∀ e ∈ a.history, e.windowStart + window ≤ a.clock

theorem spent_eq_zero {history : List Settlement} {P : Settlement → Prop} [DecidablePred P]
    (h : ∀ e ∈ history, ¬P e) : spent history P = 0 := by
  unfold spent
  rw [map_congr_left fun e he => if_neg (h e he)]
  simp

/-- A window that starts a second after the last settled one is empty. -/
theorem Inv.restart (h : a.Inv B) (hlate : ∀ e ∈ a.history, e.windowStart + window ≤ a.clock) :
    ({ a with window? := some ⟨a.clock, 0⟩ } : Account).Inv B where
  __ := h
  room := by
    have := h.room
    show 0 + a.reserved ≤ B
    omega
  started := by
    intro w hw
    obtain rfl := Option.some.inj hw
    exact le_rfl
  exact := by
    intro w hw
    obtain rfl := Option.some.inj hw
    refine (spent_eq_zero fun e he => ?_).symm
    have := hlate e he
    show ¬e.windowStart = a.clock
    unfold window at this
    omega
  latest := by
    intro w hw e he
    obtain rfl := Option.some.inj hw
    exact .inr (hlate e he)
  past := by
    intro hnone
    cases hnone

variable {w : FuelWindow}

/-- Once a window is a second old, so is everything that was settled. -/
theorem Inv.late (h : a.Inv B) (hw : a.window? = some w)
    (hstale : w.windowStart + window ≤ a.clock) :
    ∀ e ∈ a.history, e.windowStart + window ≤ a.clock := by
  intro e he
  rcases h.latest w hw e he with heq | hle
  · omega
  · omega

theorem Inv.settle (h : a.Inv B) {amount fuel : Nat} (hw : a.window? = some w)
    (hfresh : a.clock < w.windowStart + window) (hamount : amount ≤ a.outstanding)
    (hfuel : fuel ≤ amount) :
    ({ a with
        window? := some ⟨w.windowStart, w.fuelInWindow + fuel⟩
        reserved := a.reserved - amount
        outstanding := a.outstanding - amount
        history := ⟨w.windowStart, a.clock, fuel⟩ :: a.history } : Account).Inv B := by
  have hcounted := h.counted
  have hroom := h.room
  rw [current, hw] at hroom
  change w.fuelInWindow + a.reserved ≤ B at hroom
  have hspent : ∀ start, spent (⟨w.windowStart, a.clock, fuel⟩ :: a.history)
      (·.windowStart = start) =
        (if w.windowStart = start then fuel else 0) + spent a.history (·.windowStart = start) := by
    intro start
    rfl
  refine ⟨?_, ?_, ?_, ?_, ?_, ?_, ?_, ?_, ?_⟩
  · show a.reserved - amount = a.outstanding - amount
    omega
  · show w.fuelInWindow + fuel + (a.reserved - amount) ≤ B
    omega
  · intro start
    rw [hspent]
    split
    next heq =>
      -- Only the current window gains fuel, and it is counted with what is still promised.
      rw [← heq, ← h.exact w hw]
      omega
    next =>
      rw [zero_add]
      exact h.bounded start
  · exact forall_mem_cons.2 ⟨⟨h.started w hw, hfresh⟩, h.within⟩
  · intro e he e' he' hlt
    rcases mem_cons.1 he with rfl | he
    · rcases mem_cons.1 he' with rfl | he'
      · exact absurd hlt (lt_irrefl _)
      · rcases h.latest w hw e' he' with heq | hle
        · exact absurd hlt (by show ¬w.windowStart < _; omega)
        · exact absurd hlt (by show ¬w.windowStart < _; omega)
    · rcases mem_cons.1 he' with rfl | he'
      · rcases h.latest w hw e he with heq | hle
        · exact absurd hlt (by show ¬_ < w.windowStart; omega)
        · exact hle
      · exact h.apart e he e' he' hlt
  · intro w' hw'
    obtain rfl := Option.some.inj hw'
    exact h.started w hw
  · intro w' hw'
    obtain rfl := Option.some.inj hw'
    rw [hspent, if_pos rfl, ← h.exact w hw, add_comm]
  · intro w' hw'
    obtain rfl := Option.some.inj hw'
    exact forall_mem_cons.2 ⟨.inl rfl, h.latest w hw⟩
  · intro hnone
    cases hnone

variable {b : Account}

/-- What one move keeps. -/
theorem Inv.move (h : a.Inv B) (hmove : Move B a b) : b.Inv B := by
  cases hmove with
  | wait _ hclock =>
    refine ⟨h.counted, h.room, h.bounded, h.within, h.apart, ?_, h.exact, h.latest, ?_⟩
    · intro w hw
      exact (h.started w hw).trans hclock
    · intro hnone e he
      exact (h.past hnone e he).trans hclock
  | start hnone => exact h.restart (h.past hnone)
  | roll _ hw hstale => exact h.restart (h.late hw hstale)
  | reserve amount =>
    refine ⟨?_, ?_, h.bounded, h.within, h.apart, h.started, h.exact, h.latest, h.past⟩
    · rw [h.counted]
    · show a.current + (a.reserved + amount) ≤ B
      omega
  | settle _ _ _ hw hfresh hamount hfuel => exact h.settle hw hfresh hamount hfuel
  | forget _ hw hstale =>
    refine ⟨h.counted, ?_, h.bounded, h.within, h.apart, ?_, ?_, ?_, fun _ => h.late hw hstale⟩
    · have := h.room
      show 0 + a.reserved ≤ B
      omega
    · intro w' hw'
      cases hw'
    · intro w' hw'
      cases hw'
    · intro w' hw'
      cases hw'

theorem Inv.moves (h : a.Inv B) (hmoves : ReflTransGen (Move B) a b) : b.Inv B := by
  induction hmoves with
  | refl => exact h
  | tail _ hmove ih => exact ih.move hmove

end Account

/-! ## Any second meets two windows at most -/

namespace Account

theorem spent_or {history : List Settlement} {P Q R : Settlement → Prop} [DecidablePred P]
    [DecidablePred Q] [DecidablePred R] (h : ∀ e ∈ history, P e → Q e ∨ R e) :
    spent history P ≤ spent history Q + spent history R := by
  unfold spent
  rw [← sum_map_add]
  refine sum_le_sum fun e he => ?_
  split_ifs <;> grind

/-- Of three settlements within a second, two fall into one window: the windows of three
would start two seconds apart. -/
theorem Inv.two_windows (h : a.Inv B) {t : Nat} {e₁ e₂ e₃ : Settlement} (h₁ : e₁ ∈ a.history)
    (h₂ : e₂ ∈ a.history) (h₃ : e₃ ∈ a.history) (ht₁ : t ≤ e₁.time ∧ e₁.time ≤ t + window)
    (ht₂ : t ≤ e₂.time ∧ e₂.time ≤ t + window) (ht₃ : t ≤ e₃.time ∧ e₃.time ≤ t + window)
    (hne : e₂.windowStart ≠ e₁.windowStart) :
    e₃.windowStart = e₁.windowStart ∨ e₃.windowStart = e₂.windowStart := by
  by_contra hcon
  have hw₁ := h.within e₁ h₁
  have hw₂ := h.within e₂ h₂
  have hw₃ := h.within e₃ h₃
  have h₁₂ := h.apart e₁ h₁ e₂ h₂
  have h₂₁ := h.apart e₂ h₂ e₁ h₁
  have h₁₃ := h.apart e₁ h₁ e₃ h₃
  have h₃₁ := h.apart e₃ h₃ e₁ h₁
  have h₂₃ := h.apart e₂ h₂ e₃ h₃
  have h₃₂ := h.apart e₃ h₃ e₂ h₂
  omega

theorem Inv.second (h : a.Inv B) (t : Nat) :
    spent a.history (fun e => t ≤ e.time ∧ e.time ≤ t + window) ≤ 2 * B := by
  by_cases hfirst : ∃ e₁ ∈ a.history, t ≤ e₁.time ∧ e₁.time ≤ t + window
  · obtain ⟨e₁, h₁, ht₁⟩ := hfirst
    have hB₁ := h.bounded e₁.windowStart
    by_cases hother : ∃ e₂ ∈ a.history, (t ≤ e₂.time ∧ e₂.time ≤ t + window) ∧
        e₂.windowStart ≠ e₁.windowStart
    · obtain ⟨e₂, h₂, ht₂, hne⟩ := hother
      have hB₂ := h.bounded e₂.windowStart
      have hsplit : spent a.history (fun e => t ≤ e.time ∧ e.time ≤ t + window) ≤
          spent a.history (·.windowStart = e₁.windowStart) +
            spent a.history (·.windowStart = e₂.windowStart) :=
        spent_or fun e he ht => h.two_windows h₁ h₂ he ht₁ ht₂ ht hne
      omega
    · -- Everything settled in this second was settled in the window of `e₁`.
      have hsplit : spent a.history (fun e => t ≤ e.time ∧ e.time ≤ t + window) ≤
          spent a.history (·.windowStart = e₁.windowStart) +
            spent a.history (·.windowStart = e₁.windowStart) := by
        refine spent_or fun e he ht => .inl ?_
        by_contra hne
        exact hother ⟨e, he, ht, hne⟩
      omega
  · rw [spent_eq_zero fun e he ht => hfirst ⟨e, he, ht⟩]
    exact Nat.zero_le _

end Account

/-! ## The limiter moves its accounts -/

namespace System

variable {K : Type} [Key K]

def account (s : System K) (owner : K) : Account where
  window? := s.limiter.inner[owner]?
  reserved := s.limiter.reservedAmount owner
  outstanding := s.outstanding owner
  history := s.history owner
  clock := s.clock

variable {s s' : System K} {owner : K}

/-- A step that changes nothing of the account lets time pass. -/
theorem waits (hclock : s.clock ≤ s'.clock)
    (hinner : s'.limiter.inner[owner]? = s.limiter.inner[owner]?)
    (hreserved : s'.limiter.reservedAmount owner = s.limiter.reservedAmount owner)
    (houtstanding : s'.outstanding owner = s.outstanding owner)
    (hhistory : s'.history owner = s.history owner) :
    ReflTransGen (Account.Move B) (s.account owner) (s'.account owner) := by
  have heq : s'.account owner = { s.account owner with clock := s'.clock } := by
    unfold account
    rw [hinner, hreserved, houtstanding, hhistory]
  rw [heq]
  exact .single (.wait _ _ hclock)

variable {now : Nat}

/-- Entering the guarded section: the window there is, rolled, or a fresh one. -/
theorem enters (s : System K) (owner : K) (hclock : s.clock ≤ now) :
    ReflTransGen (Account.Move B) (s.account owner)
      { s.account owner with
        window? := some ((s.limiter.cell owner now).roll now), clock := now } := by
  refine .head (.wait _ now hclock) ?_
  cases hw : s.limiter.inner[owner]? with
  | none =>
    have hcell : (s.limiter.cell owner now).roll now = ⟨now, 0⟩ := by
      unfold FuelRateLimiter.cell
      rw [hw]
      exact if_neg (by unfold window; simp)
    rw [hcell]
    exact .single (.start _ hw)
  | some w =>
    have hcell : s.limiter.cell owner now = w := by
      unfold FuelRateLimiter.cell
      rw [hw]
      rfl
    rw [hcell]
    unfold FuelWindow.roll
    split
    next hstale => exact .single (.roll _ w hw (by show _ ≤ now; unfold window at *; omega))
    next =>
      have hsame : (s.account owner).window? = some w := hw
      rw [← hsame]

theorem roll_fresh (w : FuelWindow) (now : Nat) : now < (w.roll now).windowStart + window := by
  unfold FuelWindow.roll
  split
  next => exact Nat.lt_add_of_pos_right (by unfold window; omega)
  next hfresh => omega

/-- The three outcomes of `try_reserve`. -/
theorem tryReserve_cases (self : FuelRateLimiter K) (principal : K) (max amount now : Nat) :
    let w := (self.cell principal now).roll now
    let reserved := self.reservedAmount principal
    (max = 0 ∧ self.tryReserve principal max amount now = (some ⟨principal, 0, false⟩, self)) ∨
    self.tryReserve principal max amount now =
      (none, { self with inner := self.inner.insert principal w }) ∨
    (w.fuelInWindow + reserved + amount ≤ max ∧ w.fuelInWindow + reserved + amount < wordLimit ∧
      self.tryReserve principal max amount now = (some ⟨principal, amount, false⟩, { self with
          inner := self.inner.insert principal w
          reserved := self.reserved.insert principal (saturatingAdd reserved amount) })) := by
  intro w reserved
  unfold FuelRateLimiter.tryReserve
  by_cases hmax : max = 0
  · exact .inl ⟨hmax, if_pos hmax⟩
  rw [if_neg hmax]
  refine .inr ?_
  dsimp only
  by_cases hfits : w.fuelInWindow + reserved + amount < wordLimit
  · have htotal : ((checkedAdd w.fuelInWindow reserved).bind fun total =>
        checkedAdd total amount) = some (w.fuelInWindow + reserved + amount) := by
      rw [checkedAdd_eq_some.2 ⟨rfl, by omega⟩]
      exact checkedAdd_eq_some.2 ⟨rfl, hfits⟩
    rw [htotal]
    by_cases hover : w.fuelInWindow + reserved + amount > max
    · exact .inl (if_pos (decide_eq_true hover))
    · exact .inr ⟨by omega, hfits, if_neg (by simpa using hover)⟩
  · have htotal : ((checkedAdd w.fuelInWindow reserved).bind fun total =>
        checkedAdd total amount) = none := by
      cases hsum : checkedAdd w.fuelInWindow reserved with
      | none => rfl
      | some =>
        obtain ⟨rfl, _⟩ := checkedAdd_eq_some.1 hsum
        exact if_neg hfits
    exact .inl (by rw [htotal]; rfl)

theorem reservedAmount_insert (self : FuelRateLimiter K) (inner : FMap K FuelWindow)
    (principal owner : K) (value : Nat) :
    FuelRateLimiter.reservedAmount
      { self with inner := inner, reserved := self.reserved.insert principal value } owner =
        if principal = owner then value else self.reservedAmount owner := by
  unfold FuelRateLimiter.reservedAmount
  rw [getElem?_insert_of]
  split <;> rfl

theorem outstanding_append (s : System K) (limiter : FuelRateLimiter K) (now : Nat)
    (handle : FuelReservation K) (owner : K) :
    System.outstanding { s with limiter, handles := s.handles ++ [handle], clock := now } owner =
      s.outstanding owner +
        if handle.principal = owner ∧ handle.settled = false then handle.amount else 0 := by
  unfold outstanding
  rw [map_append, sum_append, map_singleton, sum_singleton]

variable {i : Nat}

/-- One element of a sum is exchanged for another. -/
theorem sum_set {α : Type} {l : List α} {x y : α} (h : l[i]? = some x) (f : α → Nat) :
    ((l.set i y).map f).sum + f x = (l.map f).sum + f y := by
  induction l generalizing i with
  | nil => cases h
  | cons _ _ ih =>
    cases i with
    | zero =>
      obtain rfl := Option.some.inj h
      simp only [set_cons_zero, map_cons, sum_cons]
      omega
    | succ i =>
      have := ih (i := i) h
      simp only [set_cons_succ, map_cons, sum_cons]
      omega

theorem account_insert_window (s : System K) (owner : K) (w : FuelWindow) (now : Nat) :
    System.account { s with
      limiter := { s.limiter with inner := s.limiter.inner.insert owner w }
      clock := now } owner = { s.account owner with window? := some w, clock := now } := by
  unfold account
  rw [getElem?_insert_of, if_pos rfl]
  rfl

variable {principal : K}

theorem inner_insert_of_ne (m : FMap K FuelWindow) (hne : principal ≠ owner) (w : FuelWindow) :
    (m.insert principal w)[owner]? = m[owner]? := by
  rw [getElem?_insert_of, if_neg hne]

theorem reservedAmount_settleReserved (self : FuelRateLimiter K) (principal owner : K)
    (amount fuel now : Nat) :
    (self.settleReserved principal amount fuel now).reservedAmount owner =
      if principal = owner then self.reservedAmount owner - amount
      else self.reservedAmount owner := by
  unfold FuelRateLimiter.settleReserved FuelRateLimiter.reservedAmount
  cases hvalue : self.reserved[principal]? with
  | none =>
    by_cases howner : principal = owner
    · rw [if_pos howner, ← howner, hvalue, getD_none, Nat.zero_sub]
    · rw [if_neg howner]
  | some =>
    by_cases hamount : amount = 0
    · simp [hamount]
    simp only [hamount, ne_eq, not_false_eq_true, if_true]
    rw [getElem?_insert_of]
    split
    next heq => rw [← heq, hvalue, getD_some, getD_some]
    next => rfl

variable {amount max : Nat} {handle : FuelReservation K} {limiter : FuelRateLimiter K}

/-- A granted reservation is counted and promised. -/
theorem moves_reserved (hclock : s.clock ≤ now) (hbudget : principal = owner → max = B)
    (h : s.limiter.tryReserve principal max amount now = (some handle, limiter)) :
    ReflTransGen (Account.Move B) (s.account owner)
      (System.account { s with limiter, handles := s.handles ++ [handle], clock := now }
        owner) := by
  rcases tryReserve_cases s.limiter principal max amount now with
    ⟨_, hrun⟩ | hrun | ⟨hroom, hword, hrun⟩
  · -- No budget: a reservation of nothing.
    obtain ⟨rfl, rfl⟩ := Prod.mk.inj (hrun.symm.trans h) |>.imp_left Option.some.inj
    refine waits hclock rfl rfl ?_ rfl
    rw [outstanding_append]
    simp
  · cases hrun.symm.trans h
  · obtain ⟨rfl, rfl⟩ := Prod.mk.inj (hrun.symm.trans h) |>.imp_left Option.some.inj
    by_cases howner : principal = owner
    · obtain rfl := howner
      obtain rfl := hbudget rfl
      refine (s.enters principal hclock).trans (.single ?_)
      have heq : System.account { s with
          limiter := { s.limiter with
            inner := s.limiter.inner.insert principal ((s.limiter.cell principal now).roll now)
            reserved := s.limiter.reserved.insert principal
              (saturatingAdd (s.limiter.reservedAmount principal) amount) }
          handles := s.handles ++ [⟨principal, amount, false⟩]
          clock := now } principal =
          { window? := some ((s.limiter.cell principal now).roll now)
            reserved := s.limiter.reservedAmount principal + amount
            outstanding := s.outstanding principal + amount
            history := s.history principal
            clock := now } := by
        unfold account
        rw [outstanding_append, reservedAmount_insert, getElem?_insert_of, saturatingAdd,
          min_eq_left (by omega)]
        simp only [and_self, if_true]
        rfl
      rw [heq]
      exact .reserve _ amount hroom
    · refine waits hclock (inner_insert_of_ne _ howner _) ?_ ?_ rfl
      · rw [reservedAmount_insert, if_neg howner]
      · rw [outstanding_append, if_neg fun hand => howner hand.1, add_zero]

/-- A refused reservation has rolled the window. -/
theorem moves_refused (hclock : s.clock ≤ now)
    (h : s.limiter.tryReserve principal max amount now = (none, limiter)) :
    ReflTransGen (Account.Move B) (s.account owner)
      (System.account { s with limiter, clock := now } owner) := by
  rcases tryReserve_cases s.limiter principal max amount now with ⟨_, hrun⟩ | hrun | ⟨_, _, hrun⟩
  · cases hrun.symm.trans h
  · obtain ⟨-, rfl⟩ := Prod.mk.inj (hrun.symm.trans h)
    by_cases howner : principal = owner
    · obtain rfl := howner
      rw [account_insert_window]
      exact s.enters principal hclock
    · exact waits hclock (inner_insert_of_ne _ howner _) rfl rfl rfl
  · cases hrun.symm.trans h

/-- A reservation settles in the window of its time, whichever window it was made in. -/
theorem moves_settle (hB : B < wordLimit) (hinv : (s.account owner).Inv B) {fuel : Nat}
    (hclock : s.clock ≤ now) (hhandle : s.handles[i]? = some handle)
    (hfuel : handle.principal = owner → fuel ≤ handle.amount) :
    ReflTransGen (Account.Move B) (s.account owner)
      ((s.settleAt i handle fuel now).account owner) := by
  have hsum := sum_set (y := (handle.settle s.limiter fuel now).1) hhandle
    fun handle => if handle.principal = owner ∧ handle.settled = false then handle.amount else 0
  unfold settleAt FuelReservation.settle
  by_cases hsettled : handle.settled = true
  · -- The second call of `settle`, and the drop after it.
    simp only [hsettled, if_true]
    refine waits hclock rfl rfl ?_ rfl
    simp only [FuelReservation.settle, hsettled, if_true, Bool.true_eq_false, and_false,
      if_false, add_zero] at hsum
    exact hsum
  · have hlive : handle.settled = false := by simpa using hsettled
    simp only [hlive, Bool.false_eq_true, if_false]
    simp only [FuelReservation.settle, hlive, Bool.false_eq_true, if_false, Bool.true_eq_false,
      and_true, and_false, add_zero] at hsum
    by_cases howner : handle.principal = owner
    · obtain rfl := howner
      rw [if_pos rfl] at hsum
      have hentered := s.enters (B := B) handle.principal hclock
      have hroom := (hinv.moves hentered).room
      have hcounted := hinv.counted
      change ((s.limiter.cell handle.principal now).roll now).fuelInWindow +
        s.limiter.reservedAmount handle.principal ≤ B at hroom
      change s.limiter.reservedAmount handle.principal = s.outstanding handle.principal at hcounted
      have hamount : handle.amount ≤ s.outstanding handle.principal := by
        unfold outstanding
        omega
      refine hentered.trans (.single ?_)
      -- The window saturates only beyond the budget.
      have hword : saturatingAdd ((s.limiter.cell handle.principal now).roll now).fuelInWindow
        fuel =
          ((s.limiter.cell handle.principal now).roll now).fuelInWindow + fuel := by
        have := hfuel rfl
        exact min_eq_left (by omega)
      convert Account.Move.settle
        { s.account handle.principal with
          window? := some ((s.limiter.cell handle.principal now).roll now), clock := now }
        ((s.limiter.cell handle.principal now).roll now) handle.amount fuel rfl
        (roll_fresh _ now) hamount (hfuel rfl) using 1
      unfold account
      rw [reservedAmount_settleReserved, if_pos rfl]
      congr 1
      · show (s.limiter.inner.insert handle.principal _)[handle.principal]? = _
        rw [getElem?_insert_of, if_pos rfl, hword]
      · exact Nat.eq_sub_of_add_eq hsum
      · unfold history
        rw [filter_cons_of_pos (by simp)]
        rfl
    · refine waits hclock (inner_insert_of_ne _ howner _) ?_ ?_ ?_
      · rw [reservedAmount_settleReserved, if_neg howner]
      · rw [if_neg howner] at hsum
        exact hsum
      · unfold history
        rw [filter_cons_of_neg (by simpa using howner)]

/-- A prune pass drops only a counter at zero. -/
theorem reservedAmount_retainReserved (self : FuelRateLimiter K) (principal owner : K) :
    (self.retainReserved principal).reservedAmount owner = self.reservedAmount owner := by
  unfold FuelRateLimiter.retainReserved
  split
  next => rfl
  next hzero =>
    unfold FuelRateLimiter.reservedAmount at hzero ⊢
    rw [getElem?_erase_of]
    split_ifs with howner
    · rw [getD_none, ← howner]
      omega
    · rfl

/-- Every step makes moves of every account. A prune pass drops a window only by a time that
has passed, so the window is a second old by then. -/
theorem simulates (hB : B < wordLimit) (hpasses : ∀ t ∈ s.passes, t ≤ s.clock)
    (hinv : (s.account owner).Inv B) (hstep : Step owner B s s') :
    ReflTransGen (Account.Move B) (s.account owner) (s'.account owner) := by
  cases hstep with
  | refused _ _ _ _ _ hclock _ h => exact moves_refused hclock h
  | reserved _ _ _ _ _ _ hclock hbudget h =>
    exact moves_reserved hclock hbudget h
  | settle _ _ _ _ hclock hhandle hfuel =>
    exact moves_settle hB hinv hclock hhandle hfuel
  | drop _ _ _ hclock hhandle =>
    exact moves_settle hB hinv hclock hhandle fun _ => le_rfl
  | overBudget principal _ now hclock =>
    unfold FuelRateLimiter.overBudget
    split
    next => exact waits hclock rfl rfl rfl rfl
    next =>
      cases hw : s.limiter.inner[principal]? with
      | none => exact waits hclock rfl rfl rfl rfl
      | some w =>
        have hcell : s.limiter.cell principal now = w := by
          unfold FuelRateLimiter.cell
          rw [hw]
          rfl
        by_cases howner : principal = owner
        · obtain rfl := howner
          rw [account_insert_window, ← hcell]
          exact s.enters principal hclock
        · exact waits hclock (inner_insert_of_ne _ howner _) rfl rfl rfl
  | capacityChanged principal now hclock =>
    by_cases howner : principal = owner
    · obtain rfl := howner
      unfold FuelRateLimiter.capacityChanged
      rw [account_insert_window]
      refine .head (.wait _ now hclock) ?_
      unfold FuelRateLimiter.cell
      cases hw : s.limiter.inner[principal]? with
      | none => exact .single (.start _ hw)
      | some =>
        rw [getD_some, ← hw]
        exact .refl
    · exact waits hclock (inner_insert_of_ne _ howner _) rfl rfl rfl
  | maybePrune _ _ hclock h =>
    unfold FuelRateLimiter.maybePrune at h
    split at h
    · cases h
    split at h
    · cases h
    obtain rfl := Option.some.inj h
    exact waits hclock rfl rfl rfl rfl
  | retainReserved principal =>
    refine waits (le_rfl) ?_ ?_ rfl rfl
    · unfold FuelRateLimiter.retainReserved
      split <;> rfl
    · exact reservedAmount_retainReserved s.limiter principal owner
  | retainWindow principal now _ hpass =>
    unfold FuelRateLimiter.retainWindow
    cases hw : s.limiter.inner[principal]? with
    | none => exact .refl
    | some w =>
      dsimp only
      split
      next => exact .refl
      next hstale =>
        by_cases howner : principal = owner
        · obtain rfl := howner
          have hold : w.windowStart + window ≤ s.clock := by
            have := hpasses now hpass
            have hwindow : ¬now - w.windowStart < window := fun h => hstale (.inl h)
            unfold window at hwindow ⊢
            omega
          convert ReflTransGen.single (Account.Move.forget (s.account principal) w hw hold) using 1
          unfold account
          rw [getElem?_erase_of, if_pos rfl]
          rfl
        · refine waits (le_rfl) ?_ rfl rfl rfl
          rw [getElem?_erase_of, if_neg howner]

/-- Prune passes use times that have passed. -/
theorem passes_step (hpasses : ∀ t ∈ s.passes, t ≤ s.clock) (hstep : Step owner B s s') :
    ∀ t ∈ s'.passes, t ≤ s'.clock := by
  intro t ht
  cases hstep with
  | maybePrune _ _ hclock =>
    rcases mem_cons.1 ht with rfl | ht
    · exact le_rfl
    · exact (hpasses t ht).trans hclock
  | refused _ _ _ _ _ hclock => exact (hpasses t ht).trans hclock
  | reserved _ _ _ _ _ _ hclock => exact (hpasses t ht).trans hclock
  | settle _ _ _ _ hclock => exact (hpasses t ht).trans hclock
  | drop _ _ _ hclock => exact (hpasses t ht).trans hclock
  | overBudget _ _ _ hclock | capacityChanged _ _ hclock => exact (hpasses t ht).trans hclock
  | retainReserved | retainWindow => exact hpasses t ht

theorem inv_initial (owner : K) (B now : Nat) : ((initial now).account owner).Inv B := by
  have hwindow : ((initial now).account owner).window? = none := by
    exact Std.ExtTreeMap.getElem?_empty
  have hhistory : ((initial now).account owner).history = [] := rfl
  have hreserved : ((initial now).account owner).reserved = 0 := by
    rfl
  refine ⟨hreserved, ?_, ?_, ?_, ?_, ?_, ?_, ?_, ?_⟩
  · exact Nat.zero_le _
  all_goals simp [hwindow, hhistory, spent]

theorem inv_of_reachable (hB : B < wordLimit) (hrun : Reachable owner B s) :
    (s.account owner).Inv B := by
  obtain ⟨now, hsteps⟩ := hrun
  have hboth : (s.account owner).Inv B ∧ ∀ t ∈ s.passes, t ≤ s.clock := by
    induction hsteps with
    | refl =>
      refine ⟨inv_initial owner B now, ?_⟩
      intro t ht
      cases ht
    | tail _ hstep ih =>
      exact ⟨ih.1.moves (simulates hB ih.2 ih.1 hstep), passes_step ih.2 hstep⟩
  exact hboth.1

/-- The counter is the sum of what is outstanding, also while a prune pass runs. Settled and
reserved fuel fit the budget together, so no window sees more than the budget settled, and
no second more than twice the budget. -/
theorem budget_not_multiplied (owner : K) (B : UInt64) (s : System K)
    (hrun : Reachable owner B.toNat s) :
    s.limiter.reservedAmount owner = s.outstanding owner ∧
    (∀ w, s.limiter.inner[owner]? = some w →
      w.fuelInWindow = spent (s.history owner) (·.windowStart = w.windowStart)) ∧
    s.limiter.inner[owner]?.elim 0 FuelWindow.fuelInWindow + s.limiter.reservedAmount owner ≤
      B.toNat ∧
    (∀ start, spent (s.history owner) (·.windowStart = start) ≤ B.toNat) ∧
    (∀ t, spent (s.history owner) (fun e => t ≤ e.time ∧ e.time ≤ t + window) ≤ 2 * B.toNat) ∧
    (∀ principal, (s.limiter.retainReserved principal).reservedAmount owner = s.outstanding owner) ∧
    ∀ principal now held, (s.limiter.retainWindow principal now held).reservedAmount owner =
      s.outstanding owner := by
  have hinv := inv_of_reachable B.toNat_lt hrun
  refine ⟨hinv.counted, hinv.exact, hinv.room, hinv.bounded, hinv.second, ?_, ?_⟩
  · intro principal
    rw [reservedAmount_retainReserved]
    exact hinv.counted
  · intro principal now held
    refine Eq.trans ?_ hinv.counted
    unfold FuelRateLimiter.retainWindow
    split
    next => rfl
    next => split <;> rfl

/-- Of two calls that would burn six units each under a budget of ten, one runs. -/
theorem budget_not_multiplied_of_two_calls :
    ∃ s : System Nat, s.outstanding 1 = 6 ∧ (s.limiter.tryReserve 1 10 6 7).1 = none ∧
      s.limiter.reservedAmount 1 = s.outstanding 1 := by
  have hgrant : (FuelRateLimiter.new 5 : FuelRateLimiter Nat).tryReserve 1 10 6 6 =
      (some ⟨1, 6, false⟩, ((FuelRateLimiter.new 5).tryReserve 1 10 6 6).2) := by
    rw [Prod.ext_iff]
    exact ⟨by decide, rfl⟩
  refine ⟨_, ?_, ?_, (budget_not_multiplied 1 10 _ ⟨5, .single
    (.reserved (initial 5) 1 10 6 6 _ _ (by decide) (fun _ => rfl) hgrant)⟩).1⟩
  · decide
  · decide

end System

end Astrid.Fuel
