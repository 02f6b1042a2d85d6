import Mathlib

/-!
# Ordered finite maps

The storage code keeps every index in an ordered map or set, and reads them by
key, by key range and in key order. Here they are `Std.ExtTreeMap` and
`Std.ExtTreeSet`: two maps with the same lookups are equal, so an update that
changes no lookup changes nothing. `Key` bundles the order a key type needs.
-/

namespace Astrid

open Std List ExtTreeMap

/-- A type that can key an ordered map: a lawful order whose `eq` is equality,
and equality itself decidable. -/
class Key (α : Type) extends Ord α, TransOrd α, LawfulEqOrd α where
  decEq : DecidableEq α := by infer_instance

instance (priority := low) {α : Type} [Key α] : DecidableEq α := Key.decEq

instance : Key Nat where

instance : Key UInt8 where

instance : Key UInt64 where

instance : Key String where

instance {w : Nat} : Key (BitVec w) where

instance {α : Type} [Key α] : Key (Option α) where

instance {α : Type} [Key α] : Key (List α) where

/-- Pairs are ordered by the first component, then the second. -/
instance {α β : Type} [Key α] [Key β] : Ord (α × β) := lexOrd

instance transOrdProd {α β : Type} [Key α] [Key β] : TransOrd (α × β) :=
  inferInstanceAs (TransCmp (compareLex (compareOn Prod.fst) (compareOn Prod.snd)))

instance lawfulEqOrdProd {α β : Type} [Key α] [Key β] : LawfulEqOrd (α × β) where
  compare_self := ReflCmp.compare_self
  eq_of_compare := by
    rintro ⟨a, b⟩ ⟨c, d⟩ h
    have h' : (compare a c).then (compare b d) = .eq := h
    rw [Ordering.then_eq_eq] at h'
    rw [LawfulEqOrd.eq_of_compare h'.1, LawfulEqOrd.eq_of_compare h'.2]

instance {α β : Type} [Key α] [Key β] : Key (α × β) where

/-- An increasing list grows at its end. -/
theorem pairwise_snoc {α : Type} {R : α → α → Prop} (htrans : ∀ {a b c}, R a b → R b c → R a c)
    {l : List α} {x : α} (h : l.Pairwise R) (hlast : ∀ y ∈ l.getLast?, R y x) :
    (l ++ [x]).Pairwise R := by
  rw [pairwise_append]
  refine ⟨h, pairwise_singleton _ _, ?_⟩
  intro a ha b hb
  obtain rfl := mem_singleton.1 hb
  rcases eq_nil_or_concat l with rfl | ⟨_, y, rfl⟩
  · cases ha
  rw [concat_eq_append] at h hlast ha
  have hy : R y b := hlast y (by simp)
  rcases mem_append.1 ha with hinit | hy'
  · exact htrans ((pairwise_append.1 h).2.2 a hinit y (by simp)) hy
  · obtain rfl := mem_singleton.1 hy'
    exact hy

abbrev FMap (κ β : Type) [Key κ] := ExtTreeMap κ β compare

abbrev FSet (κ : Type) [Key κ] := ExtTreeSet κ compare

section Lookup

variable {κ β : Type} [Key κ]

theorem getElem?_insert_of (m : FMap κ β) (k : κ) (v : β) (a : κ) :
    (m.insert k v)[a]? = if k = a then some v else m[a]? := by
  rw [ExtTreeMap.getElem?_insert]
  exact if_congr LawfulEqOrd.compare_eq_iff_eq rfl rfl

theorem getElem?_erase_of (m : FMap κ β) (k a : κ) :
    (m.erase k)[a]? = if k = a then none else m[a]? := by
  rw [getElem?_erase]
  exact if_congr LawfulEqOrd.compare_eq_iff_eq rfl rfl

variable {m : FMap κ β} {a : κ}

theorem mem_iff_getElem? : a ∈ m ↔ ∃ v, m[a]? = some v := by
  rw [mem_iff_isSome_getElem?, Option.isSome_iff_exists]

theorem getElem?_eq_none_of_not_mem (h : a ∉ m) : m[a]? = none := by
  cases hv : m[a]? with
  | none => rfl
  | some v => exact absurd (mem_iff_getElem?.2 ⟨v, hv⟩) h

theorem mem_insert_set {s : FSet κ} {b : κ} : a ∈ s.insert b ↔ b = a ∨ a ∈ s := by
  rw [ExtTreeSet.mem_insert, LawfulEqOrd.compare_eq_iff_eq]

section

variable {k : κ} {v x : β}

theorem getElem?_of_erase (h : (m.erase k)[a]? = some v) : m[a]? = some v := by
  rw [getElem?_erase_of] at h
  split at h
  next => cases h
  next => exact h

/-- An entry after an insertion is the new one or was there. -/
theorem insert_cases (h : (m.insert k v)[a]? = some x) :
    k = a ∧ v = x ∨ k ≠ a ∧ m[a]? = some x := by
  rw [getElem?_insert_of] at h
  split at h
  next heq => exact .inl ⟨heq, Option.some.inj h⟩
  next hne => exact .inr ⟨hne, h⟩

/-- What the entries have, they have with a new one that has it. -/
theorem forall_insert {P : κ → β → Prop} (hnew : P k v) (hold : ∀ a x, m[a]? = some x → P a x)
    (a : κ) (x : β) (h : (m.insert k v)[a]? = some x) : P a x := by
  rcases insert_cases h with ⟨rfl, rfl⟩ | ⟨_, h⟩
  · exact hnew
  · exact hold a x h

end

/-- The keys after the first stay fresh when the first one is entered. -/
theorem fresh_insert {γ : Type} {entry : κ × γ} {rest : List (κ × γ)}
    (hnew : entry.1 ∉ rest.map Prod.fst) (hfresh : ∀ other ∈ entry :: rest, m[other.1]? = none)
    (v : β) : ∀ other ∈ rest, (m.insert entry.1 v)[other.1]? = none := by
  intro other hother
  rw [getElem?_insert_of, if_neg ?_]
  · exact hfresh other (mem_cons_of_mem _ hother)
  · intro heq
    exact hnew (heq ▸ mem_map_of_mem hother)

variable {l : List (κ × β)}

/-- A map filled from a list with distinct keys holds exactly the list. -/
theorem getElem?_insertMany_iff (m : FMap κ β) (hnodup : (l.map Prod.fst).Nodup)
    (hfresh : ∀ entry ∈ l, m[entry.1]? = none) (k : κ) (v : β) :
    (m.insertMany l)[k]? = some v ↔ m[k]? = some v ∨ (k, v) ∈ l := by
  induction l generalizing m with
  | nil => simp
  | cons entry _ ih =>
    rw [map_cons, nodup_cons] at hnodup
    rw [insertMany_cons, ih _ hnodup.2 (fresh_insert hnodup.1 hfresh _), getElem?_insert_of]
    split_ifs with hkey
    · subst hkey
      rw [hfresh entry mem_cons_self]
      obtain ⟨_, _⟩ := entry
      simp [eq_comm]
    · have hne : (k, v) ≠ entry := fun heq => hkey (by rw [← heq])
      simp [hne]

/-- Erasing an absent key changes nothing. -/
theorem erase_of_not_mem {k : κ} (h : m[k]? = none) : m.erase k = m := by
  refine ext_getElem? fun a => ?_
  rw [getElem?_erase_of]
  split
  next heq => rw [← heq, h]
  next => rfl

/-- A list in key order with the entries of a map is its list. -/
theorem eq_toList_of_sorted (hsorted : l.Pairwise fun a b => compare a.1 b.1 = .lt)
    (hmem : ∀ k v, (k, v) ∈ l ↔ m[k]? = some v) : l = m.toList := by
  have hordered : m.toList.Pairwise fun a b => compare a.1 b.1 = .lt :=
    ordered_keys_toList
  have hnodup : ∀ {l : List (κ × β)}, (l.Pairwise fun a b => compare a.1 b.1 = .lt) → l.Nodup := by
    intro l h
    refine h.imp fun {a b} hlt heq => ?_
    have hself : compare b.1 b.1 = .eq := ReflCmp.compare_self
    rw [heq, hself] at hlt
    cases hlt
  refine List.Perm.eq_of_pairwise ?_ hsorted hordered
    ((perm_ext_iff_of_nodup (hnodup hsorted) (hnodup hordered)).2 ?_)
  · intro a b _ _ hlt hgt
    have hswap : compare b.1 a.1 = (compare a.1 b.1).swap := OrientedCmp.eq_swap
    rw [hlt, hgt] at hswap
    cases hswap
  · intro ⟨k, v⟩
    rw [hmem, mem_toList_iff_getElem?_eq_some]

end Lookup

end Astrid
