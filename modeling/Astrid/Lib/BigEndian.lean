import Astrid.Lib.Bytes

/-!
# Big-endian words

Labels that carry an index spell it big-endian, with a fixed number of bytes: byte
strings are ordered lexicographically, and so are the labels in the order of their
indices.
-/

namespace Astrid

open List

/-- The `n` low bytes of `x`, most significant first. -/
def beBytes (n x : Nat) : Bytes := (leBytes n x).reverse

@[simp]
theorem length_beBytes (n x : Nat) : (beBytes n x).length = n := by
  rw [beBytes, length_reverse, length_leBytes]

theorem beBytes_succ (n x : Nat) :
    beBytes (n + 1) x = beBytes n (x / 256) ++ [UInt8.ofNat (x % 256)] := by
  rw [beBytes, leBytes, reverse_cons, beBytes]

theorem beBytes_inj {n x y : Nat} (hx : x < 256 ^ n) (hy : y < 256 ^ n)
    (h : beBytes n x = beBytes n y) : x = y :=
  leBytes_inj hx hy (reverse_injective h)

/-- Lists of one length are compared part by part. -/
theorem compare_append_of_length {α : Type} [Ord α] {first first' : List α} (rest rest' : List α)
    (h : first.length = first'.length) :
    compare (first ++ rest) (first' ++ rest') =
      (compare first first').then (compare rest rest') := by
  induction first generalizing first' rest rest' with
  | nil =>
    obtain rfl := eq_nil_of_length_eq_zero h.symm
    rfl
  | cons _ _ ih =>
    cases first' with
    | nil => cases h
    | cons =>
      rw [List.cons_append, List.cons_append, List.compare_cons_cons, List.compare_cons_cons,
        ih rest rest' (Nat.succ.inj h), Ordering.then_assoc]

theorem compare_ofNat_byte {a b : Nat} (ha : a < 256) (hb : b < 256) :
    compare (UInt8.ofNat a) (UInt8.ofNat b) = compare a b := by
  have hlt : UInt8.ofNat a < UInt8.ofNat b ↔ a < b := by
    rw [UInt8.lt_iff_toNat_lt, UInt8.toNat_ofNat', UInt8.toNat_ofNat', Nat.mod_eq_of_lt ha,
      Nat.mod_eq_of_lt hb]
  have heq : UInt8.ofNat a = UInt8.ofNat b ↔ a = b := by
    rw [← UInt8.toNat_inj, UInt8.toNat_ofNat', UInt8.toNat_ofNat', Nat.mod_eq_of_lt ha,
      Nat.mod_eq_of_lt hb]
  show compareOfLessAndEq _ _ = compareOfLessAndEq _ _
  unfold compareOfLessAndEq
  simp only [hlt, heq]

/-- Big-endian words of one length are ordered as the numbers. -/
theorem compare_beBytes {n x y : Nat} (hx : x < 256 ^ n) (hy : y < 256 ^ n) : compare (beBytes n x)
    (beBytes n y) = compare x y := by
  induction n generalizing x y with
  | zero =>
    rw [pow_zero, Nat.lt_one_iff] at hx hy
    rw [hx, hy]
    rfl
  | succ _ ih =>
    rw [pow_succ'] at hx hy
    rw [beBytes_succ, beBytes_succ, compare_append_of_length _ _ (by simp),
      ih (Nat.div_lt_of_lt_mul hx) (Nat.div_lt_of_lt_mul hy), List.compare_cons_cons,
      List.compare_nil_nil, Ordering.then_eq,
      compare_ofNat_byte (Nat.mod_lt x (by decide)) (Nat.mod_lt y (by decide))]
    -- The quotients decide, and the remainders where the quotients are equal.
    rcases lt_trichotomy x y with hlt | rfl | hgt
    · rw [Nat.compare_eq_lt.2 hlt, Ordering.then_eq_lt, Nat.compare_eq_lt, Nat.compare_eq_eq,
        Nat.compare_eq_lt]
      omega
    · rw [Nat.compare_eq_eq.2 rfl, Nat.compare_eq_eq.2 rfl, Nat.compare_eq_eq.2 rfl]
      rfl
    · rw [Nat.compare_eq_gt.2 hgt, Ordering.then_eq_gt, Nat.compare_eq_gt, Nat.compare_eq_eq,
        Nat.compare_eq_gt]
      omega

end Astrid
