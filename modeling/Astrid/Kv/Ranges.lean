import Astrid.Kv.Overlay
import Astrid.Lib.Bytes
import Astrid.Lib.Try

/-!
# Namespaces and prefixes as key ranges

`astrid-storage`, `kv/mod.rs`. A key is stored under its namespace, a zero byte and itself, so what
a namespace holds below a prefix is one range of byte strings. Strings are their UTF-8 bytes.
-/

namespace Astrid.Kv

open List Std Overlay

def validateNamespace (space : Bytes) : Except String Unit := do
  require (space ≠ []) "namespace must not be empty"
  require (0 ∉ space) "namespace must not contain null bytes"

def compositeKey (space key : Bytes) : Bytes := space ++ 0 :: key

def namespaceRangeEnd (space : Bytes) : Bytes := space ++ [1]

/-- The loop of `prefix_range_end`: bytes `0xFF` at the end are dropped and the last one left is
incremented. -/
def increment : Bytes → Option Bytes
  | [] => none
  | byte :: rest =>
    match increment rest with
    | some next => some (byte :: next)
    | none => if byte = 255 then none else some [byte + 1]

def prefixRangeEnd (space start : Bytes) : Bytes :=
  if start = [] then namespaceRangeEnd space
  else (increment (compositeKey space start)).getD (namespaceRangeEnd space)

theorem compare_cons_eq_lt {a b : UInt8} {as bs : Bytes} :
    compare (a :: as) (b :: bs) = .lt ↔ a < b ∨ a = b ∧ compare as bs = .lt := by
  rw [List.compare_cons_cons, Ordering.then_eq_lt, compare_eq_lt, Std.compare_eq_iff_eq]

/-- From a byte string to its increment, or to the end if there is none, lies just what begins with
it. -/
theorem inRange_iff {bytes key : Bytes} :
    (compare key bytes ≠ .lt ∧ ∀ stop ∈ increment bytes, compare key stop = .lt) ↔
      bytes <+: key := by
  induction bytes generalizing key with
  | nil => cases key <;> simp [increment]
  | cons byte rest ih =>
    cases key with
    | nil => simp
    | cons first key =>
      have hnil : compare key [] ≠ .lt := by cases key <;> simp
      rw [ne_eq, compare_cons_eq_lt, cons_prefix_cons, ← ih, increment]
      cases increment rest with
      | some next =>
        simp only [Option.mem_some_iff, forall_eq', compare_cons_eq_lt]
        grind
      | none =>
        by_cases hbyte : byte = 255
        · subst hbyte
          grind
        · simp only [if_neg hbyte, Option.mem_some_iff, forall_eq', compare_cons_eq_lt]
          grind

theorem increment_append {bytes stop : Bytes} (front : Bytes) (h : increment bytes = some stop) :
    increment (front ++ bytes) = some (front ++ stop) := by
  induction front with
  | nil => exact h
  | cons _ _ ih => rw [cons_append, increment, ih]; rfl

theorem increment_compositeKey (space start : Bytes) :
    increment (compositeKey space start) = some (prefixRangeEnd space start) := by
  unfold prefixRangeEnd
  split_ifs with hstart
  · subst hstart
    exact increment_append space (rfl : increment [0] = some [1])
  · obtain ⟨stop, hstop⟩ : ∃ stop, increment (0 :: start) = some stop := by
      unfold increment
      split <;> exact ⟨_, rfl⟩
    rw [compositeKey, increment_append space hstop]
    rfl

theorem compositeKey_prefix {space other start key : Bytes} (hspace : 0 ∉ space)
    (hother : 0 ∉ other) :
    compositeKey space start <+: compositeKey other key ↔ other = space ∧ start <+: key := by
  constructor
  · rintro ⟨more, hmore⟩
    simp only [compositeKey, append_assoc, cons_append, append_eq_append_iff,
      cons_eq_append_iff] at hmore
    grind
  · rintro ⟨rfl, hkey⟩
    exact (prefix_append_right_inj other).2 (cons_prefix_cons.2 ⟨rfl, hkey⟩)

/-- The range of a prefix gives, of the entries of all namespaces in an overlay, those of its own
whose keys begin with the prefix, with the values that a read gives. -/
theorem mem_prefix_range {overlay : Node Bytes (Option Bytes)} (hordered : overlay.Ordered)
    {space : Bytes} (hspace : validateNamespace space = .ok ()) (start : Bytes) :
    ∀ other key value, validateNamespace other = .ok () →
      ((compositeKey other key, value) ∈
          overlay.range (compositeKey space start) (prefixRangeEnd space start) ↔
        other = space ∧ start <+: key ∧ overlay.get (compositeKey space key) = some value) := by
  intro other key value hother
  have hrange := @inRange_iff (compositeKey space start) (compositeKey other key)
  simp only [increment_compositeKey, Option.mem_some_iff, forall_eq'] at hrange
  simp only [validateNamespace, bind_eq_ok, require_eq_ok, exists_const] at hspace hother
  rw [Node.range_eq_filter hordered, mem_filter, decide_eq_true_iff, hrange,
    compositeKey_prefix hspace.2 hother.2, ← Node.get_eq_some hordered]
  grind

/-- Keys below `k`, `0xFF` in three namespaces: the range has the one of its own namespace, and
neither a shorter key nor that of another namespace. -/
theorem mem_prefix_range_mixed :
    let overlay : Node Bytes (Option Bytes) :=
      [(compositeKey [97] [107, 255, 1], some [1]), (compositeKey [97] [107], some [2]),
        (compositeKey [98] [107, 255, 1], some [3]),
        (compositeKey [97, 98] [107, 255, 2], none)].foldr Node.insert .leaf
    let found := overlay.range (compositeKey [97] [107, 255]) (prefixRangeEnd [97] [107, 255])
    (compositeKey [97] [107, 255, 1], some [1]) ∈ found ∧
      (∀ value, (compositeKey [97] [107], value) ∉ found) ∧
      ∀ value, (compositeKey [98] [107, 255, 1], value) ∉ found := by
  intro overlay found
  have hordered : overlay.Ordered := by
    unfold overlay Node.Ordered
    decide +kernel
  have hspace : validateNamespace [97] = .ok () := rfl
  have hfound := mem_prefix_range hordered hspace [107, 255]
  refine ⟨(hfound [97] _ _ rfl).2 ⟨rfl, by decide, by decide +kernel⟩, fun value hmem => ?_,
    fun value hmem => ?_⟩
  · have hstart := ((hfound [97] _ _ rfl).1 hmem).2.1
    exact absurd hstart (by decide)
  · have hsame := ((hfound [98] _ _ rfl).1 hmem).1
    cases hsame

end Astrid.Kv
