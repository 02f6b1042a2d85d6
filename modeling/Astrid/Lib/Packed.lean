import Astrid.Lib.Chunks

/-!
# Left-packed trees of fixed fanout

A builder packs leaves level by level: `groups` takes `n` neighbours at a time, the last
group possibly fewer, and every group becomes one node. A reader goes through the same
tree from the top: a node of `d + 1` levels (`packed`) has a child for every `n ^ d` of
its leaves. `groups_level` connects the two, level by level.
-/

namespace Astrid

open List

variable {α β : Type}

/-- Pieces of `n` elements, the last one possibly shorter. -/
def every (n : Nat) [NeZero n] : Cutter α 0 where
  cut xs := min n xs.length
  pos := by
    intro xs hxs
    have hn := NeZero.pos n
    have hlen : 0 < xs.length := List.length_pos_of_ne_nil hxs
    omega
  le xs := by omega
  wide _ := Nat.zero_le _
  stable := by
    intro xs ys h
    rw [List.length_append]
    omega
  near := by
    intro xs ys h
    rw [List.length_append] at h ⊢
    omega

/-- Pieces of full size, but for the last one. -/
def Full (n : Nat) : List (List α) → Prop
  | [] => True
  | [last] => 0 < last.length ∧ last.length ≤ n
  | left :: right :: rest => left.length = n ∧ Full n (right :: rest)

variable {pieces : List (List α)}

/-- The number of elements in pieces of full size. -/
theorem Full.length_flatten {n : Nat} (h : Full n pieces) (hne : pieces ≠ []) :
    (pieces.length - 1) * n < pieces.flatten.length ∧
      pieces.flatten.length ≤ pieces.length * n := by
  induction pieces with
  | nil => exact absurd rfl hne
  | cons first rest ih =>
    cases rest with
    | nil =>
      rw [flatten_singleton, length_singleton]
      have := h.1
      have := h.2
      omega
    | cons _ rest =>
      have hrest := ih h.2 (cons_ne_nil _ _)
      have hfirst := h.1
      rw [flatten_cons, length_append, length_cons (a := first)]
      rw [length_cons] at hrest ⊢
      have hmul : (rest.length + 1 + 1 - 1) * n = (rest.length + 1 - 1) * n + n := by
        rw [Nat.add_sub_cancel, Nat.add_sub_cancel, Nat.succ_mul]
      have hmul' : (rest.length + 1 + 1) * n = (rest.length + 1) * n + n := by
        rw [Nat.succ_mul]
      omega

section Groups

variable {n : Nat} [NeZero n]

def groups (n : Nat) [NeZero n] (xs : List α) : List (List α) := (every n).chunks xs

variable {xs : List α}

theorem groups_of_le (hxs : xs ≠ []) (hle : xs.length ≤ n) : groups n xs = [xs] := by
  have hcut : (every n : Cutter α 0).cut xs = xs.length := min_eq_right hle
  unfold groups
  rw [Cutter.chunks_of_ne_nil _ hxs, hcut, take_length, drop_length, Cutter.chunks_nil]

/-- A first group of full size comes off. -/
theorem groups_cons {first rest : List α} (h : first.length = n) :
    groups n (first ++ rest) = first :: groups n rest := by
  have hn := NeZero.pos n
  have hne : first ++ rest ≠ [] := by
    apply append_ne_nil_of_left_ne_nil
    apply ne_nil_of_length_pos
    omega
  have hcut : (every n).cut (first ++ rest) = first.length := by
    show min n (first ++ rest).length = first.length
    rw [length_append]
    omega
  unfold groups
  rw [Cutter.chunks_of_ne_nil _ hne, hcut, take_left, drop_left]

/-- Whole groups in front are grouped on their own. -/
theorem groups_append (count : Nat) {xs : List α} (ys : List α) (h : xs.length = count * n) : groups
    n (xs ++ ys) = groups n xs ++ groups n ys := by
  induction count generalizing xs ys with
  | zero =>
    rw [zero_mul] at h
    obtain rfl := eq_nil_of_length_eq_zero h
    rfl
  | succ count ih =>
    rw [Nat.succ_mul] at h
    have hfirst : (xs.take n).length = n := length_take_of_le (by omega)
    have hrest : (xs.drop n).length = count * n := by
      rw [length_drop]
      omega
    have hsplit : xs = xs.take n ++ xs.drop n := (take_append_drop n xs).symm
    rw [hsplit, append_assoc, groups_cons hfirst, groups_cons hfirst, ih ys hrest, cons_append]

theorem full_groups : ∀ xs : List α, Full n (groups n xs) := by
  intro xs
  unfold groups
  induction xs using (every n : Cutter α 0).chunks_induction with
  | nil => trivial
  | cut xs hxs ih =>
    have hn := NeZero.pos n
    have hlen : 0 < xs.length := length_pos_of_ne_nil hxs
    have hcut : (every n : Cutter α 0).cut xs = min n xs.length := rfl
    rw [Cutter.chunks_of_ne_nil _ hxs]
    have htake : (xs.take ((every n).cut xs)).length = min n xs.length := by
      rw [length_take]
      omega
    by_cases hrest : xs.drop ((every n).cut xs) = []
    · rw [hrest]
      show 0 < _ ∧ _ ≤ n
      omega
    have hlong : min n xs.length < xs.length := by
      have hdrop : 0 < (xs.drop ((every n).cut xs)).length := length_pos_of_ne_nil hrest
      rw [length_drop] at hdrop
      omega
    rw [Cutter.chunks_of_ne_nil _ hrest] at ih ⊢
    refine ⟨?_, ih⟩
    omega

theorem Full.groups_eq {pieces : List (List α)} (h : Full n pieces) : groups n pieces.flatten =
    pieces := by
  induction pieces with
  | nil =>
    rfl
  | cons _ rest ih =>
    cases rest with
    | nil =>
      rw [flatten_singleton]
      exact groups_of_le (ne_nil_of_length_pos h.1) h.2
    | cons =>
      rw [flatten_cons, groups_cons h.1, ih h.2]

theorem Full.mem (h : Full n pieces) : ∀ piece ∈ pieces, 0 < piece.length ∧ piece.length ≤ n := by
  have hn := NeZero.pos n
  induction pieces with
  | nil =>
    intro piece hpiece
    cases hpiece
  | cons _ rest ih =>
    cases rest with
    | nil => exact forall_mem_singleton.2 h
    | cons =>
      have hlen := h.1
      exact forall_mem_cons.2 ⟨by omega, ih h.2⟩

/-- Grouping two or more elements leaves fewer. -/
theorem length_groups_lt (hn : 1 < n) (h : 1 < xs.length) : (groups n xs).length < xs.length := by
  have hne : xs ≠ [] := ne_nil_of_length_pos (by omega)
  have hcount := ((full_groups (n := n) xs).length_flatten (Cutter.chunks_ne_nil _ hne)).1
  have hflat : (groups n xs).flatten = xs := Cutter.chunks_flatten _ xs
  rw [hflat] at hcount
  have hmul : ((groups n xs).length - 1) * 2 ≤ ((groups n xs).length - 1) * n :=
    Nat.mul_le_mul_left _ hn
  omega

end Groups

/-! ## Levels -/

section Levels

variable {n : Nat}

theorem flatten_groups [NeZero n] (xs : List α) : (groups n xs).flatten = xs :=
  Cutter.chunks_flatten _ xs

variable {xs : List α}

theorem groups_ne_nil [NeZero n] (h : xs ≠ []) : groups n xs ≠ [] :=
  Cutter.chunks_ne_nil _ h

variable {count : Nat}

theorem length_groups_le [NeZero n] (h : xs.length ≤ count * n) : (groups n xs).length ≤ count := by
  by_cases hnil : groups n xs = []
  · rw [hnil]
    exact Nat.zero_le _
  have hlt := ((full_groups xs).length_flatten hnil).1
  rw [flatten_groups] at hlt
  have := Nat.lt_of_mul_lt_mul_right (lt_of_lt_of_le hlt h)
  omega

theorem length_groups [NeZero n] (h : xs.length = count * n) : (groups n xs).length = count := by
  have hle := length_groups_le h.le
  by_cases hnil : groups n xs = []
  · have hxs : xs = [] := by
      rw [← flatten_groups (n := n) xs, hnil, flatten_nil]
    rw [hxs] at h
    have := Nat.mul_eq_zero.1 h.symm
    have := NeZero.pos n
    omega
  · have hge := ((full_groups xs).length_flatten hnil).2
    rw [flatten_groups, h] at hge
    exact le_antisymm hle (Nat.le_of_mul_le_mul_right hge (NeZero.pos n))

theorem groups_map [NeZero n] (f : α → β) (xs : List α) :
    groups n (xs.map f) = (groups n xs).map (List.map f) := by
  induction xs using (every n : Cutter α 0).chunks_induction with
  | nil => rfl
  | cut xs hxs ih =>
    have hmap : xs.map f ≠ [] := fun h => hxs (map_eq_nil_iff.1 h)
    have hcut : (every n : Cutter β 0).cut (xs.map f) = (every n : Cutter α 0).cut xs := by
      show min n (xs.map f).length = min n xs.length
      rw [length_map]
    unfold groups at ih ⊢
    rw [Cutter.chunks_of_ne_nil _ hmap, Cutter.chunks_of_ne_nil _ hxs, hcut, map_cons,
      ← map_take, ← map_drop, ih]

theorem groups_one (xs : List α) : groups 1 xs = xs.map fun x => [x] := by
  induction xs with
  | nil => rfl
  | cons x xs ih =>
    have hfirst : groups 1 ([x] ++ xs) = [x] :: groups 1 xs := groups_cons rfl
    rw [map_cons, ← ih]
    exact hfirst

/-- Groups of groups are the groups of larger groups. -/
theorem groups_groups {m : Nat} [NeZero m] [NeZero n] (xs : List α) :
    groups n (groups m xs) = (groups (n * m) xs).map (groups m) := by
  induction xs using (every (n * m) : Cutter α 0).chunks_induction with
  | nil => rfl
  | cut xs hxs ih =>
    have hcut : (every (n * m) : Cutter α 0).cut xs = min (n * m) xs.length := rfl
    by_cases hshort : xs.length ≤ n * m
    · rw [groups_of_le hxs hshort, groups_of_le (groups_ne_nil hxs) (length_groups_le hshort)]
      rfl
    rw [hcut, min_eq_left (by omega)] at ih
    have hfirst : (xs.take (n * m)).length = n * m := length_take_of_le (by omega)
    rw [← take_append_drop (n * m) xs, groups_append n _ hfirst,
      groups_cons (length_groups hfirst), groups_cons hfirst, map_cons, ih]

/-- The node over all of `xs` when they are packed `n` at a time, `d` levels high. -/
def packed (n : Nat) [NeZero n] (node : List β → β) (leaf : List α → β) : Nat → List α → β
  | 0, xs => leaf xs
  | d + 1, xs => node ((groups (n ^ d) xs).map (packed n node leaf d))

/-- One level up, in elements. -/
theorem groups_pow_succ [NeZero n] (d : Nat) (xs : List α) :
    groups n (groups (n ^ d) xs) = (groups (n ^ (d + 1)) xs).map (groups (n ^ d)) := by
  have hpow : groups (n ^ (d + 1)) xs = groups (n * n ^ d) xs := by
    simp only [pow_succ']
  rw [groups_groups, hpow]

/-- One level up: the groups of a level that stands for groups of `n ^ d` elements. -/
theorem groups_level [NeZero n] (f : List α → β) (d : Nat) (xs : List α) :
    groups n ((groups (n ^ d) xs).map f) =
      (groups (n ^ (d + 1)) xs).map fun group => (groups (n ^ d) group).map f := by
  rw [groups_map, groups_pow_succ, map_map]
  rfl

end Levels

end Astrid
