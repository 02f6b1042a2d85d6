import Mathlib

/-!
# Checked computations in `Except`

A fallible function is a `do` block of checks (`require`), optional results with
an error for `none` (`okOr`) and calls. What a successful run went through is
read off with `bind_eq_ok` and the two lemmas beside the checks.
-/

namespace Astrid

open List

variable {ε α β : Type}

/-- Go on only if `c` holds. -/
def require (c : Prop) [Decidable c] (e : ε) : Except ε Unit :=
  if c then .ok () else .error e

/-- The value of an optional result, or an error. -/
def okOr (o : Option α) (e : ε) : Except ε α :=
  match o with
  | some a => .ok a
  | none => .error e

variable {x : Except ε α} {f : α → Except ε β}

theorem bind_eq_ok {b : β} : (x >>= f) = .ok b ↔ ∃ a, x = .ok a ∧ f a = .ok b := by
  cases x with
  | error e =>
    show Except.error e = .ok b ↔ _
    simp
  | ok a =>
    show f a = .ok b ↔ _
    simp

@[simp] theorem ok_bind (a : α) (f : α → Except ε β) : (Except.ok a >>= f) = f a := rfl

@[simp] theorem error_bind (e : ε) (f : α → Except ε β) :
    (Except.error e >>= f) = .error e := rfl

variable {c : Prop} {e : ε}

theorem require_eq_ok [Decidable c] {u : Unit} : require c e = .ok u ↔ c := by
  unfold require
  split <;> simp_all

theorem require_pos [Decidable c] (h : c) (e : ε) : require c e = .ok () :=
  if_pos h

theorem require_neg [Decidable c] (h : ¬ c) (e : ε) : require c e = .error e :=
  if_neg h

variable {a : α}

theorem okOr_eq_ok {o : Option α} : okOr o e = .ok a ↔ o = some a := by
  unfold okOr
  split <;> simp

variable {ε' : Type}

theorem mapError_eq_ok {f : ε → ε'} : x.mapError f = .ok a ↔ x = .ok a := by
  cases x <;> simp [Except.mapError]

theorem mapError_ok (a : α) (f : ε → ε') : (Except.ok a : Except ε α).mapError f = .ok a := rfl

/-- A list of calls that all succeed. -/
theorem mapM_eq_ok {xs : List α} {ys : List β} :
    xs.mapM f = .ok ys ↔ List.Forall₂ (fun x y => f x = .ok y) xs ys := by
  induction xs generalizing ys with
  | nil =>
    rw [forall₂_nil_left_iff]
    exact ⟨fun h => by cases h; rfl, fun h => by rw [h]; rfl⟩
  | cons _ _ ih =>
    rw [mapM_cons, forall₂_cons_left_iff, bind_eq_ok]
    constructor
    · rintro ⟨y, hy, h⟩
      obtain ⟨rest, hrest, hout⟩ := bind_eq_ok.1 h
      cases hout
      exact ⟨y, rest, hy, ih.1 hrest, rfl⟩
    · rintro ⟨y, rest, hy, hrest, rfl⟩
      refine ⟨y, hy, ?_⟩
      rw [ih.2 hrest]
      rfl

/-- A fold that may fail keeps what each of its steps keeps. -/
theorem foldlM_keeps {σ : Type} {xs : List α} {f : σ → α → Except ε σ} {P : σ → Prop}
    (hstep : ∀ s s', ∀ x ∈ xs, P s → f s x = .ok s' → P s') {s s' : σ} (hs : P s)
    (h : xs.foldlM f s = .ok s') : P s' := by
  induction xs generalizing s with
  | nil =>
    cases h
    exact hs
  | cons x xs ih =>
    rw [foldlM_cons] at h
    obtain ⟨next, hnext, h⟩ := bind_eq_ok.1 h
    obtain ⟨hfirst, hrest⟩ := forall_mem_cons.1 fun x hx s s' => hstep s s' x hx
    exact ih (fun s s' x hx => hrest x hx s s') (hfirst s next hs hnext) h

theorem forM_eq_ok {xs : List α} {f : α → Except ε Unit} :
    xs.forM f = .ok () ↔ ∀ x ∈ xs, f x = .ok () := by
  induction xs with
  | nil => exact ⟨fun _ _ h => absurd h not_mem_nil, fun _ => rfl⟩
  | cons _ _ ih =>
    rw [forall_mem_cons, ← ih]
    exact bind_eq_ok.trans ⟨fun ⟨_, hx, hxs⟩ => ⟨hx, hxs⟩, fun ⟨hx, hxs⟩ => ⟨_, hx, hxs⟩⟩

end Astrid
