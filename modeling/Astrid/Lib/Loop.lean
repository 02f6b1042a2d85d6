import Mathlib

/-!
# Loops with a measure

A loop is a turn function, which goes on with a new state or stops with a
result, together with a size that every turn shrinks. `Loop.run` runs it to its
end: it computes (the size bounds the number of turns) and it satisfies the two
equations of the loop, `run_again` and `run_stop`, so a proof about a loop is an
induction with one step lemma (`run_induct`) and never sees the bound.
-/

namespace Astrid

/-- What one turn of a loop decides. -/
inductive Turn (σ ρ : Type)
  | again (s : σ)
  | stop (r : ρ)

structure Loop (σ ρ : Type) where
  turn : σ → Turn σ ρ
  size : σ → Nat
  shrinks : ∀ {s s' : σ}, turn s = .again s' → size s' < size s

namespace Loop

variable {σ ρ : Type} (l : Loop σ ρ)

/-- At most `fuel` turns. -/
def runFor : Nat → σ → Option ρ
  | 0, _ => none
  | fuel + 1, s =>
    match l.turn s with
    | .again s' => runFor fuel s'
    | .stop r => some r

theorem runFor_isSome : ∀ {fuel : Nat} {s : σ}, l.size s < fuel → (l.runFor fuel s).isSome := by
  intro fuel
  induction fuel with
  | zero => intro s h; omega
  | succ _ ih =>
    intro s h
    unfold runFor
    split
    next s' hturn =>
      have := l.shrinks hturn
      exact ih (by omega)
    next => rfl

/-- Enough turns are enough: the result does not depend on the bound. -/
theorem runFor_eq : ∀ {fuel fuel' : Nat} {s : σ}, l.size s < fuel → l.size s < fuel' →
    l.runFor fuel s = l.runFor fuel' s := by
  intro fuel
  induction fuel with
  | zero => intro fuel' s h _; omega
  | succ _ ih =>
    intro fuel' s h h'
    cases fuel' with
    | zero => omega
    | succ =>
      unfold runFor
      split
      next s' hturn =>
        have := l.shrinks hturn
        exact ih (by omega) (by omega)
      next => rfl

/-- The loop, run to its end. -/
def run (s : σ) : ρ := (l.runFor (l.size s + 1) s).get (l.runFor_isSome (Nat.lt_succ_self _))

variable {s : σ}

theorem some_run {fuel : Nat} (h : l.size s < fuel) : some (l.run s) = l.runFor fuel s := by
  unfold run
  rw [Option.some_get]
  exact l.runFor_eq (Nat.lt_succ_self _) h

theorem run_again {s' : σ} (h : l.turn s = .again s') : l.run s = l.run s' := by
  have hlt := l.shrinks h
  have hs : some (l.run s) = l.runFor (l.size s + 1) s := l.some_run (Nat.lt_succ_self _)
  have hs' : some (l.run s') = l.runFor (l.size s) s' := l.some_run hlt
  apply Option.some.inj
  rw [hs, hs']
  simp only [runFor, h]

theorem run_stop {r : ρ} (h : l.turn s = .stop r) : l.run s = r := by
  have hs : some (l.run s) = l.runFor (l.size s + 1) s := l.some_run (Nat.lt_succ_self _)
  apply Option.some.inj
  rw [hs]
  simp only [runFor, h]

/-- The loop rule: what a turn keeps and what stopping then gives holds of the result. -/
theorem run_induct {I : σ → Prop} {Q : σ → ρ → Prop}
    (hagain : ∀ s s', I s → l.turn s = .again s' → I s' ∧ ∀ r, Q s' r → Q s r)
    (hstop : ∀ s r, I s → l.turn s = .stop r → Q s r) : ∀ s, I s → Q s (l.run s) := by
  intro s
  induction hn : l.size s using Nat.strong_induction_on generalizing s with
  | _ _ ih =>
    intro hI
    cases hturn : l.turn s with
    | stop r =>
      rw [l.run_stop hturn]
      exact hstop s r hI hturn
    | again s' =>
      obtain ⟨hI', hQ⟩ := hagain s s' hI hturn
      rw [l.run_again hturn]
      exact hQ _ (ih (l.size s') (hn ▸ l.shrinks hturn) s' rfl hI')

end Loop

/-! ## Loops without a measure

A loop over data that someone else supplies may not end. It is run for a number of turns,
and `Returns` says that some number is enough. -/

section Iterate

variable {σ ρ α β : Type}

/-- At most `fuel` turns; nothing if that is not enough. -/
def iterate (turn : σ → Turn σ ρ) : Nat → σ → Option ρ
  | 0, _ => none
  | fuel + 1, s =>
    match turn s with
    | .again s' => iterate turn fuel s'
    | .stop r => some r

/-- A computation with a bound on its turns comes to `a` whenever the bound is large enough. -/
def Returns (f : Nat → Option α) (a : α) : Prop := ∃ bound, ∀ fuel, bound ≤ fuel → f fuel = some a

variable {f : Nat → Option α} {a : α}

theorem Returns.unique {b : α} (ha : Returns f a) (hb : Returns f b) : a = b := by
  obtain ⟨bound, ha⟩ := ha
  obtain ⟨bound', hb⟩ := hb
  have hsome := ha (max bound bound') (Nat.le_max_left _ _)
  rw [hb (max bound bound') (Nat.le_max_right _ _)] at hsome
  exact (Option.some.inj hsome).symm

theorem Returns.map (h : Returns f a) (g : α → β) : Returns (fun fuel => (f fuel).map g) (g a) := by
  obtain ⟨bound, h⟩ := h
  refine ⟨bound, fun fuel hfuel => ?_⟩
  dsimp only
  rw [h fuel hfuel]
  rfl

theorem returns_some (a : α) : Returns (fun _ => some a) a := ⟨0, fun _ _ => rfl⟩

variable {turn : σ → Turn σ ρ} {s s' : σ} {r : ρ}

theorem returns_stop (h : turn s = .stop r) : Returns (fun fuel => iterate turn fuel s) r := by
  refine ⟨1, fun fuel hfuel => ?_⟩
  obtain ⟨_, rfl⟩ := Nat.exists_eq_add_of_le' hfuel
  simp only [iterate, h]

theorem returns_again (h : turn s = .again s') (hr : Returns (fun fuel => iterate turn fuel s') r) :
    Returns (fun fuel => iterate turn fuel s) r := by
  obtain ⟨bound, hr⟩ := hr
  refine ⟨bound + 1, fun fuel hfuel => ?_⟩
  obtain ⟨more, rfl⟩ := Nat.exists_eq_add_of_le hfuel
  have hstep := hr (bound + more) (Nat.le_add_right _ _)
  rw [show bound + 1 + more = (bound + more) + 1 by omega]
  simp only [iterate, h]
  exact hstep

end Iterate

end Astrid
