import Mathlib

/-!
# Redoing a log of compare-and-swaps

A log holds swaps of keyed cells, each with the value it expects and the value it
installs. `redo` performs a swap whose cell is as expected, and passes over a swap
whose value is installed already. Redoing a whole log over cells that an earlier,
interrupted pass has already moved works as long as no cell was moved twice: a cell
that was moved further than a swap's own value is neither as the swap expects it nor
as the swap leaves it.

Values are ranked, and every swap of a log raises the rank of its cell. This is what
keeps a value from coming back.
-/

namespace Astrid

open List Function

variable {κ ρ : Type}

structure Swap (κ ρ : Type) where
  key : κ
  expected : Option ρ
  replacement : ρ

namespace Swap

variable [DecidableEq κ]

/-- Install the value of a swap. -/
def install (s : Swap κ ρ) (cells : κ → Option ρ) : κ → Option ρ :=
  Function.update cells s.key (some s.replacement)

theorem install_self (s : Swap κ ρ) (cells : κ → Option ρ) :
    s.install cells s.key = some s.replacement := update_self ..

variable {key : κ}

theorem install_of_ne {s : Swap κ ρ} (h : key ≠ s.key) (cells : κ → Option ρ) :
    s.install cells key = cells key := update_of_ne h ..

def installAll (log : List (Swap κ ρ)) (cells : κ → Option ρ) : κ → Option ρ :=
  log.foldl (fun cells s => s.install cells) cells

theorem installAll_append (log more : List (Swap κ ρ)) (cells : κ → Option ρ) :
    installAll (log ++ more) cells = installAll more (installAll log cells) := foldl_append

variable {log : List (Swap κ ρ)}

/-- A cell without a swap keeps its value. -/
theorem installAll_of_not_mem (h : key ∉ log.map Swap.key) :
    ∀ cells : κ → Option ρ, installAll log cells key = cells key := by
  induction log with
  | nil =>
    intro cells
    rfl
  | cons s log ih =>
    intro cells
    rw [map_cons, mem_cons, not_or] at h
    show installAll log (s.install cells) key = cells key
    rw [ih h.2, install_of_ne h.1]

/-- A cell has the value of its last swap. -/
theorem installAll_eq_find (log : List (Swap κ ρ)) (cells : κ → Option ρ) (key : κ) :
    installAll log cells key = match log.reverse.find? (fun s => decide (s.key = key)) with
      | some s => some s.replacement
      | none => cells key := by
  induction log using reverseRecOn with
  | nil => rfl
  | append_singleton log s ih =>
    rw [installAll_append, reverse_append, reverse_singleton, singleton_append, find?_cons]
    show s.install (installAll log cells) key = _
    by_cases hkey : s.key = key
    · rw [decide_eq_true hkey, ← hkey, install_self]
    · rw [decide_eq_false hkey, install_of_ne (Ne.symm hkey), ih]

/-! ## Logs -/

/-- Every swap of the log finds what it expects, and raises the rank. -/
def Chained (rank : Option ρ → Nat) : (κ → Option ρ) → List (Swap κ ρ) → Prop
  | _, [] => True
  | cells, s :: log =>
    cells s.key = s.expected ∧ rank s.expected < rank (some s.replacement) ∧
      Chained rank (s.install cells) log

variable {rank : Option ρ → Nat}

theorem Chained.append {more : List (Swap κ ρ)} {cells : κ → Option ρ}
    (h : Chained rank cells (log ++ more)) :
    Chained rank cells log ∧ Chained rank (installAll log cells) more := by
  induction log generalizing cells with
  | nil =>
    exact ⟨trivial, h⟩
  | cons _ _ ih =>
    obtain ⟨hexpected, hrank, hrest⟩ := h
    exact ⟨⟨hexpected, hrank, (ih hrest).1⟩, (ih hrest).2⟩

/-- No cell falls in rank. -/
theorem Chained.rank_le : ∀ {cells : κ → Option ρ},
    Chained rank cells log → ∀ key, rank (cells key) ≤ rank (installAll log cells key) := by
  induction log with
  | nil =>
    intro cells _ key
    exact le_refl _
  | cons s _ ih =>
    intro cells h key
    obtain ⟨hexpected, hrank, hrest⟩ := h
    refine le_trans ?_ (ih hrest key)
    by_cases hkey : key = s.key
    · rw [hkey, install_self, hexpected]
      exact hrank.le
    · rw [install_of_ne hkey]

/-- A cell with a swap rises in rank. -/
theorem Chained.rank_lt (hkey : key ∈ log.map Swap.key) :
    ∀ {cells : κ → Option ρ}, Chained rank cells log →
      rank (cells key) < rank (installAll log cells key) := by
  induction log with
  | nil => cases hkey
  | cons s log ih =>
    intro cells h
    obtain ⟨hexpected, hrank, hrest⟩ := h
    by_cases heq : key = s.key
    · have hle := hrest.rank_le s.key
      rw [install_self] at hle
      rw [heq, hexpected]
      exact lt_of_lt_of_le hrank hle
    have hmem : key ∈ log.map Swap.key := (mem_cons.1 hkey).resolve_left heq
    have hlt := ih hmem hrest
    rw [install_of_ne heq] at hlt
    exact hlt

/-! ## Redoing -/

variable [DecidableEq ρ]

/-- Perform a swap, unless its value is installed already. -/
def redo (s : Swap κ ρ) (cells : κ → Option ρ) : Option (κ → Option ρ) :=
  if cells s.key = some s.replacement then some cells
  else if cells s.key = s.expected then some (s.install cells)
  else none

def redoAll (log : List (Swap κ ρ)) (cells : κ → Option ρ) : Option (κ → Option ρ) :=
  log.foldlM (fun cells s => s.redo cells) cells

/-- Over the cells it was written for, a log is redone as it was done. -/
theorem Chained.redoAll_start {cells : κ → Option ρ} (h : Chained rank cells log) : redoAll log
    cells = some (installAll log cells) := by
  induction log generalizing cells with
  | nil =>
    rfl
  | cons s log ih =>
    obtain ⟨hexpected, hrank, hrest⟩ := h
    have hne : cells s.key ≠ some s.replacement := by
      intro heq
      rw [← hexpected, heq] at hrank
      exact lt_irrefl _ hrank
    have hredo : s.redo cells = some (s.install cells) := by
      unfold redo
      rw [if_neg hne, if_pos hexpected]
    show s.redo cells >>= redoAll log = _
    rw [hredo]
    exact ih hrest

/-- Over the cells it leaves, a log is redone exactly if it moves no cell twice. -/
theorem Chained.redoAll_done {cells : κ → Option ρ} (h : Chained rank cells log) : redoAll log
    (installAll log cells) = if (log.map Swap.key).Nodup then some (installAll log cells) else none
    := by
  induction log generalizing cells with
  | nil =>
    rfl
  | cons s log ih =>
    obtain ⟨_, _, hrest⟩ := h
    have hcells : installAll (s :: log) cells = installAll log (s.install cells) := rfl
    show s.redo (installAll (s :: log) cells) >>= redoAll log = _
    rw [hcells, map_cons]
    by_cases hkey : s.key ∈ log.map Swap.key
    · -- The cell was moved again: its rank is above both values of the swap.
      have hlt := hrest.rank_lt hkey
      rw [install_self] at hlt
      have hredo : s.redo (installAll log (s.install cells)) = none := by
        unfold redo
        rw [if_neg, if_neg]
        · intro heq
          rw [heq] at hlt
          omega
        · intro heq
          rw [heq] at hlt
          exact lt_irrefl _ hlt
      rw [hredo, if_neg fun hnodup => (nodup_cons.1 hnodup).1 hkey]
      rfl
    · have hredo : s.redo (installAll log (s.install cells)) =
          some (installAll log (s.install cells)) := by
        unfold redo
        rw [if_pos]
        rw [installAll_of_not_mem hkey, install_self]
      rw [hredo]
      show redoAll log (installAll log (s.install cells)) = _
      rw [ih hrest]
      refine if_congr ?_ rfl rfl
      rw [nodup_cons, and_iff_right hkey]

/-- Redoing a log over the cells its first part leaves. -/
theorem Chained.redoAll_part {done rest : List (Swap κ ρ)} {cells : κ → Option ρ}
    (h : Chained rank cells (done ++ rest)) : redoAll (done ++ rest) (installAll done cells) =
      if (done.map Swap.key).Nodup then some (installAll (done ++ rest) cells) else none := by
  obtain ⟨hdone, hrest⟩ := h.append
  rw [redoAll, foldlM_append, ← redoAll, hdone.redoAll_done]
  split_ifs with hnodup
  · rw [installAll_append]
    exact hrest.redoAll_start
  · rfl

end Swap

end Astrid
