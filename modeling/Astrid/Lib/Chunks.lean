import Mathlib

/-!
# Cutting a sequence into pieces

A content-defined chunker cuts a sequence by a rule that looks only so far: where the
first piece of `xs` ends depends on the piece and on at most `window` further elements.
`Cutter` states this twice. A cut inside `xs` stays where it is when more elements
follow (`stable`), and a cut that leaves `window` elements of `xs` behind it is already
made in `xs` (`near`).

Iterating a cutter gives `chunks`. Two things follow from the locality. A list of pieces
is the chunking of its concatenation if every boundary is the cut of the left piece and
the first `window` elements of the right one (`chunks_flatten`), so a reader can check a
chunking piece by piece. And appending to a sequence keeps every piece but the last
(`chunks_append`).
-/

namespace Astrid

open List

structure Cutter (α : Type) (window : Nat) where
  cut : List α → Nat
  pos : ∀ {xs : List α}, xs ≠ [] → 0 < cut xs
  le : ∀ xs : List α, cut xs ≤ xs.length
  wide : ∀ {xs : List α}, cut xs < xs.length → window ≤ cut xs
  stable : ∀ {xs : List α} (ys : List α), cut xs < xs.length → cut (xs ++ ys) = cut xs
  near : ∀ {xs : List α} (ys : List α), cut (xs ++ ys) + window ≤ xs.length →
    cut xs = cut (xs ++ ys)

namespace Cutter

variable {α : Type} {window : Nat} (c : Cutter α window)

/-- At most `fuel` pieces. -/
def pieces : Nat → List α → List (List α)
  | 0, _ => []
  | _ + 1, [] => []
  | fuel + 1, x :: xs =>
    (x :: xs).take (c.cut (x :: xs)) :: pieces fuel ((x :: xs).drop (c.cut (x :: xs)))

/-- Cut until nothing is left; every piece takes at least one element. -/
def chunks (xs : List α) : List (List α) := c.pieces xs.length xs

theorem pieces_eq {fuel fuel' : Nat} {xs : List α} (h : xs.length ≤ fuel) (h' : xs.length ≤ fuel') :
    c.pieces fuel xs = c.pieces fuel' xs := by
  induction fuel generalizing fuel' xs with
  | zero =>
    obtain rfl := eq_nil_of_length_eq_zero (Nat.le_zero.1 h)
    cases fuel' <;> rfl
  | succ _ ih =>
    cases xs with
    | nil => cases fuel' <;> rfl
    | cons x xs =>
      cases fuel' with
      | zero => cases h'
      | succ =>
        have hpos := c.pos (cons_ne_nil x xs)
        have hdrop : ((x :: xs).drop (c.cut (x :: xs))).length ≤ xs.length := by
          rw [length_drop, length_cons]
          omega
        rw [length_cons] at h h'
        exact congrArg (cons _) (ih (by omega) (by omega))

theorem chunks_nil : c.chunks [] = [] := rfl

theorem chunks_of_ne_nil {xs : List α} (h : xs ≠ []) :
    c.chunks xs = xs.take (c.cut xs) :: c.chunks (xs.drop (c.cut xs)) := by
  cases xs with
  | nil => exact absurd rfl h
  | cons x xs =>
    have hpos := c.pos h
    have hdrop : ((x :: xs).drop (c.cut (x :: xs))).length ≤ xs.length := by
      rw [length_drop, length_cons]
      omega
    show _ :: c.pieces xs.length _ = _ :: c.pieces _ _
    rw [c.pieces_eq hdrop (le_refl _)]

/-- Induction along the cuts. -/
theorem chunks_induction {P : List α → Prop} (nil : P [])
    (cut : ∀ xs, xs ≠ [] → P (xs.drop (c.cut xs)) → P xs) : ∀ xs, P xs := by
  intro xs
  induction hn : xs.length using Nat.strong_induction_on generalizing xs with
  | _ _ ih =>
    by_cases hxs : xs = []
    · rw [hxs]
      exact nil
    have hpos := c.pos hxs
    have hlen : 0 < xs.length := length_pos_of_ne_nil hxs
    refine cut xs hxs (ih (xs.drop (c.cut xs)).length ?_ _ rfl)
    rw [length_drop]
    omega

theorem chunks_flatten (xs : List α) : (c.chunks xs).flatten = xs := by
  induction xs using c.chunks_induction with
  | nil => rfl
  | cut _ hxs ih => rw [c.chunks_of_ne_nil hxs, flatten_cons, ih, take_append_drop]

theorem chunks_ne_nil {xs : List α} (h : xs ≠ []) : c.chunks xs ≠ [] := by
  rw [c.chunks_of_ne_nil h]
  exact cons_ne_nil _ _

theorem chunk_ne_nil (xs : List α) : ∀ piece ∈ c.chunks xs, piece ≠ [] := by
  induction xs using c.chunks_induction with
  | nil =>
    intro piece hpiece
    cases hpiece
  | cut _ hxs ih =>
    rw [c.chunks_of_ne_nil hxs, forall_mem_cons]
    refine ⟨?_, ih⟩
    rw [ne_eq, take_eq_nil_iff, not_or]
    exact ⟨(c.pos hxs).ne', hxs⟩

/-! ## Checking a chunking -/

/-- Every boundary is the cut of the piece before it and `window` elements behind it. -/
def Checked : List (List α) → Prop
  | [] => True
  | [last] => last ≠ [] ∧ c.cut last = last.length
  | left :: right :: rest =>
    left ≠ [] ∧ right ≠ [] ∧ (window ≤ right.length ∨ rest = []) ∧
      c.cut (left ++ right.take window) = left.length ∧ Checked (right :: rest)

/-- The window behind a piece lies in the next piece. -/
theorem take_flatten {right : List α} {rest : List (List α)}
    (h : window ≤ right.length ∨ rest = []) :
    (right :: rest).flatten.take window = right.take window := by
  rw [flatten_cons]
  rcases h with hwide | rfl
  · exact take_append_of_le_length hwide
  · rw [flatten_nil, append_nil]

/-- A boundary is a cut exactly if the window shows it. -/
theorem cut_window_iff {left right : List α} (hright : right ≠ [])
    (hwindow : 0 < window) :
    c.cut (left ++ right.take window) = left.length ↔ c.cut (left ++ right) = left.length := by
  have hlen : 0 < right.length := length_pos_of_ne_nil hright
  have hsplit : left ++ right = (left ++ right.take window) ++ right.drop window := by
    rw [append_assoc, take_append_drop]
  have htake : (left ++ right.take window).length = left.length + min window right.length := by
    rw [length_append, length_take]
  constructor
  · intro h
    rw [hsplit, c.stable _ (by omega), h]
  · intro h
    by_cases hshort : right.length ≤ window
    · rw [take_of_length_le hshort]
      exact h
    rw [c.near (right.drop window)]
    · rw [← hsplit, h]
    · rw [← hsplit]
      omega

/-- A checked list of pieces is the chunking of its concatenation. -/
theorem Checked.chunks_eq (hwindow : 0 < window) {pieces : List (List α)} (h : c.Checked pieces) :
    c.chunks pieces.flatten = pieces := by
  induction pieces with
  | nil =>
    rfl
  | cons left rest ih =>
    have hne : left ≠ [] := by
      cases rest with
      | nil | cons => exact h.1
    have hcut : c.cut (left :: rest).flatten = left.length := by
      cases rest with
      | nil =>
        rw [flatten_cons, flatten_nil, append_nil]
        exact h.2
      | cons right rest =>
        obtain ⟨_, hright, hwide, hcut, _⟩ := h
        have hflat : (right :: rest).flatten ≠ [] := by
          exact append_ne_nil_of_left_ne_nil hright _
        rw [flatten_cons, ← c.cut_window_iff hflat hwindow, take_flatten hwide]
        exact hcut
    have hrest : c.Checked rest := by
      cases rest with
      | nil => trivial
      | cons => exact h.2.2.2.2
    have hflat : (left :: rest).flatten ≠ [] := by
      exact append_ne_nil_of_left_ne_nil hne _
    rw [c.chunks_of_ne_nil hflat, hcut, flatten_cons, take_left, drop_left, ih hrest]

/-- A chunking passes the check. -/
theorem checked_chunks (hwindow : 0 < window) : ∀ xs : List α, c.Checked (c.chunks xs) := by
  intro xs
  induction xs using c.chunks_induction with
  | nil => trivial
  | cut xs hxs ih =>
    have hleft : xs.take (c.cut xs) ≠ [] := by
      rw [ne_eq, take_eq_nil_iff, not_or]
      exact ⟨(c.pos hxs).ne', hxs⟩
    have hlen : (xs.take (c.cut xs)).length = c.cut xs :=
      length_take_of_le (c.le xs)
    rw [c.chunks_of_ne_nil hxs]
    by_cases hrest : xs.drop (c.cut xs) = []
    · rw [hrest]
      have hall : c.cut xs = xs.length :=
        le_antisymm (c.le xs) (drop_eq_nil_iff.1 hrest)
      refine ⟨hleft, ?_⟩
      rw [hlen, take_of_length_le hall.ge]
    · -- The next piece is the cut of the rest; unless it is the last, it fills the window.
      have hcut : c.cut (xs.take (c.cut xs) ++ xs.drop (c.cut xs)) =
          (xs.take (c.cut xs)).length := by
        rw [take_append_drop, hlen]
      rw [c.chunks_of_ne_nil hrest] at ih ⊢
      generalize xs.drop (c.cut xs) = rest at hrest hcut ih ⊢
      have hwide : window ≤ (rest.take (c.cut rest)).length ∨
          c.chunks (rest.drop (c.cut rest)) = [] := by
        by_cases hall : c.cut rest < rest.length
        · left
          rw [length_take_of_le (c.le rest)]
          exact c.wide hall
        · right
          rw [drop_of_length_le (not_lt.1 hall), c.chunks_nil]
      refine ⟨hleft, ?_, hwide, ?_, ih⟩
      · rw [ne_eq, take_eq_nil_iff, not_or]
        exact ⟨(c.pos hrest).ne', hrest⟩
      · rw [← take_flatten hwide, ← c.chunks_of_ne_nil hrest, c.chunks_flatten,
          c.cut_window_iff hrest hwindow]
        exact hcut

/-! ## Appending -/

/-- Appended elements change the last piece only. -/
theorem chunks_append {init : List (List α)} {last xs : List α} (h : c.chunks xs = init ++ [last]) :
    ∀ ys, c.chunks (xs ++ ys) = init ++ c.chunks (last ++ ys) := by
  induction init generalizing last xs with
  | nil =>
    intro ys
    have hxs : xs = last := by
      rw [← c.chunks_flatten xs, h, nil_append, flatten_singleton]
    rw [hxs, nil_append]
  | cons _ init ih =>
    intro ys
    have hxs : xs ≠ [] := by
      intro hnil
      rw [hnil] at h
      cases h
    rw [c.chunks_of_ne_nil hxs, cons_append, cons.injEq] at h
    obtain ⟨hpiece, hrest⟩ := h
    have hlt : c.cut xs < xs.length := by
      by_contra hge
      rw [drop_of_length_le (not_lt.1 hge)] at hrest
      exact append_ne_nil_of_right_ne_nil init (cons_ne_nil last []) hrest.symm
    rw [c.chunks_of_ne_nil (append_ne_nil_of_left_ne_nil hxs ys), c.stable ys hlt,
      take_append_of_le_length hlt.le, drop_append_of_le_length hlt.le, hpiece,
      ih hrest ys, cons_append]

end Cutter

end Astrid
