import Astrid.Lib.Maps

/-!
# Byte strings and machine words

Byte strings are lists. A machine word is a natural number written as a fixed
number of bytes, little-endian (`leBytes`) unless a format says otherwise, and
read back by `ofLe`; both directions are exact, so an encoding that is parsed
and written again is the same string.

`checkedAdd`, `checkedMul` are the 64-bit operations that report overflow.
-/

namespace Astrid

open List

abbrev Bytes := List UInt8

/-! ## Checked 64-bit arithmetic -/

/-- One more than the largest 64-bit value. -/
def wordLimit : Nat := 2 ^ 64

theorem one_lt_wordLimit : 1 < wordLimit := by decide

def checkedAdd (a b : Nat) : Option Nat := if a + b < wordLimit then some (a + b) else none

def checkedMul (a b : Nat) : Option Nat := if a * b < wordLimit then some (a * b) else none

def checkedSub (a b : Nat) : Option Nat := if b ≤ a then some (a - b) else none

variable {a b c : Nat}

theorem checkedAdd_eq_some : checkedAdd a b = some c ↔ a + b = c ∧ c < wordLimit := by
  unfold checkedAdd
  split
  · constructor
    · rintro ⟨⟩; exact ⟨rfl, ‹_›⟩
    · rintro ⟨rfl, _⟩; rfl
  · constructor
    · intro h; cases h
    · rintro ⟨rfl, h⟩; contradiction

theorem checkedMul_eq_some : checkedMul a b = some c ↔ a * b = c ∧ c < wordLimit := by
  unfold checkedMul
  split
  · constructor
    · rintro ⟨⟩; exact ⟨rfl, ‹_›⟩
    · rintro ⟨rfl, _⟩; rfl
  · constructor
    · intro h; cases h
    · rintro ⟨rfl, h⟩; contradiction

theorem checkedSub_eq_some : checkedSub a b = some c ↔ b ≤ a ∧ a - b = c := by
  unfold checkedSub
  split <;> simp_all

/-! ## Little-endian words -/

/-- The `n` low bytes of `x`, least significant first. -/
def leBytes : Nat → Nat → Bytes
  | 0, _ => []
  | n + 1, x => UInt8.ofNat (x % 256) :: leBytes n (x / 256)

/-- The number whose little-endian bytes are given. -/
def ofLe : Bytes → Nat
  | [] => 0
  | b :: rest => b.toNat + 256 * ofLe rest

@[simp]
theorem length_leBytes : ∀ n x : Nat, (leBytes n x).length = n
  | 0, _ => rfl
  | n + 1, x => by rw [leBytes, length_cons, length_leBytes]

theorem ofLe_lt : ∀ bytes : Bytes, ofLe bytes < 256 ^ bytes.length
  | [] => Nat.one_pos
  | b :: rest => by
    have hb : b.toNat < 256 := b.toNat_lt
    have hrest := ofLe_lt rest
    rw [ofLe, length_cons]
    omega

theorem ofLe_leBytes_mod : ∀ n x : Nat, ofLe (leBytes n x) = x % 256 ^ n
  | 0, x => (Nat.mod_one x).symm
  | n + 1, x => by
    have hlow : (UInt8.ofNat (x % 256)).toNat = x % 256 := by
      rw [UInt8.toNat_ofNat', Nat.mod_eq_of_lt (Nat.mod_lt x (by decide))]
    rw [leBytes, ofLe, ofLe_leBytes_mod, hlow, pow_succ', Nat.mod_mul]

theorem ofLe_leBytes {n x : Nat} (h : x < 256 ^ n) : ofLe (leBytes n x) = x := by
  rw [ofLe_leBytes_mod, Nat.mod_eq_of_lt h]

theorem leBytes_ofLe : ∀ bytes : Bytes, leBytes bytes.length (ofLe bytes) = bytes
  | [] => rfl
  | b :: rest => by
    have hb : b.toNat < 256 := b.toNat_lt
    have hlow : (b.toNat + 256 * ofLe rest) % 256 = b.toNat := by omega
    have hhigh : (b.toNat + 256 * ofLe rest) / 256 = ofLe rest := by omega
    rw [ofLe, length_cons, leBytes, hlow, hhigh, leBytes_ofLe rest, UInt8.ofNat_toNat]

theorem ofLe_leBytes_word (x : UInt64) : ofLe (leBytes 8 x.toNat) = x.toNat :=
  ofLe_leBytes x.toNat_lt

/-! ## Slices -/

/-- `len` bytes from `start` on, fewer where the string ends. -/
def slice (bytes : Bytes) (start len : Nat) : Bytes := (bytes.drop start).take len

variable {bytes : Bytes} {start len : Nat}

/-! Fields of a record, read at their offsets. -/

theorem drop_skip {before rest : Bytes} (h : before.length ≤ start) :
    (before ++ rest).drop start = rest.drop (start - before.length) := by
  rw [drop_append, drop_of_length_le h, nil_append]

theorem slice_skip {before rest : Bytes} (h : before.length ≤ start) :
    slice (before ++ rest) start len = slice rest (start - before.length) len := by
  unfold slice
  rw [drop_skip h]

theorem slice_here {field rest : Bytes} (h : field.length = len) :
    slice (field ++ rest) 0 len = field := by
  unfold slice
  rw [drop_zero, ← h, take_left]

theorem slice_all (h : bytes.length = len) : slice bytes 0 len = bytes := by
  unfold slice
  rw [drop_zero, ← h, take_length]

theorem slice_cons (b : UInt8) (rest : Bytes) (start len : Nat) :
    slice (b :: rest) (start + 1) len = slice rest start len := rfl

theorem length_slice (h : start + len ≤ bytes.length) : (slice bytes start len).length = len := by
  unfold slice
  rw [length_take, length_drop]
  omega

theorem slice_append_drop (bytes : Bytes) (start len : Nat) :
    slice bytes start len ++ bytes.drop (start + len) = bytes.drop start := by
  rw [slice, ← drop_drop, take_append_drop]

/-- A slice that ends early enough is a slice of a longer string. -/
theorem slice_take {limit : Nat} (h : start + len ≤ limit) :
    slice (bytes.take limit) start len = slice bytes start len := by
  unfold slice
  rw [drop_take, take_take, min_eq_left (by omega)]

theorem leBytes_inj {n x y : Nat} (hx : x < 256 ^ n) (hy : y < 256 ^ n)
    (h : leBytes n x = leBytes n y) : x = y := by
  rw [← ofLe_leBytes hx, ← ofLe_leBytes hy, h]

end Astrid
