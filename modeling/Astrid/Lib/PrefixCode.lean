import Mathlib

/-!
# Self-delimiting codes

A code in which no word is a proper beginning of another can be read from the front of a text
without a separator. `Delimits enc R x y` says that for one pair of words, with `R` for what
equal words say about what they encode; where it holds for the words of two sequences, equal
texts come from sequences related word by word.
-/

namespace Astrid

open List

variable {α β : Type}

/-- Texts that start with the words of `x` and of `y` agree only if `x` and `y` are related and
the rests are equal. -/
def Delimits (enc : β → List α) (R : β → β → Prop) (x y : β) : Prop :=
  ∀ rest rest', enc x ++ rest = enc y ++ rest' → R x y ∧ rest = rest'

/-- A sequence of words is read one word at a time. -/
theorem flatMap_delimits {enc : β → List α} {R : β → β → Prop} {xs ys : List β}
    (hdelimits : ∀ x ∈ xs, ∀ y ∈ ys, Delimits enc R x y) (hlength : xs.length = ys.length) :
    ∀ {rest rest' : List α}, xs.flatMap enc ++ rest = ys.flatMap enc ++ rest' →
      List.Forall₂ R xs ys ∧ rest = rest' := by
  induction xs generalizing ys with
  | nil =>
    intro rest rest' h
    obtain rfl := eq_nil_of_length_eq_zero hlength.symm
    exact ⟨.nil, h⟩
  | cons x _ ih =>
    intro rest rest' h
    cases ys with
    | nil => cases hlength
    | cons y =>
      rw [flatMap_cons, flatMap_cons, append_assoc, append_assoc] at h
      obtain ⟨hword, hrest⟩ := hdelimits x mem_cons_self y mem_cons_self _ _ h
      obtain ⟨hwords, hrest⟩ := ih (fun x hx y hy => hdelimits x (mem_cons_of_mem _ hx) y
        (mem_cons_of_mem _ hy)) (Nat.succ.inj hlength) hrest
      exact ⟨.cons hword hwords, hrest⟩

/-- The pair of two words is read one word after the other. -/
theorem pair_delimits {x y : List α × List α} (hfirst : Delimits id Eq x.1 y.1)
    (hsecond : Delimits id Eq x.2 y.2) : Delimits (fun pair => pair.1 ++ pair.2) Eq x y := by
  intro rest rest' h
  rw [append_assoc, append_assoc] at h
  obtain ⟨heq, h⟩ := hfirst _ _ h
  obtain ⟨heq', hrest⟩ := hsecond _ _ h
  exact ⟨Prod.ext heq heq', hrest⟩

end Astrid
