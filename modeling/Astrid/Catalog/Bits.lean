import Astrid.Catalog.Tree
import Astrid.Lib.Patricia

/-!
# Names as bits

A name is read as an endless sequence of bits, the bytes of the name and then zeros. As names
have no null bytes, the sequence determines the name (`eq_of_keyBit`), the order of names is
the order by the first bit that differs (`compare_lt_of_before`), and a name starts with
another one if it has its bits up to the end (`prefix_iff_keyBit`). So names are keys of a
binary Patricia trie, whose order is the order of the names.
-/

namespace Astrid.Catalog

open Std List

/-! ## Bits of a byte -/

/-- Bit `index` of a byte, counted from the most significant one. -/
def byteBit (byte : UInt8) (index : Nat) : Bool := byte.toNat.testBit (7 - index)

variable {index : Nat}

theorem byteBit_eq_mask (byte : UInt8) (h : index < 8) :
    decide (byte &&& ((0x80 : UInt8) >>> UInt8.ofNat index) ≠ 0) = byteBit byte index := by
  have hall : ∀ n < 256, ∀ index < 8,
      decide (UInt8.ofNat n &&& ((0x80 : UInt8) >>> UInt8.ofNat index) ≠ 0) =
        byteBit (UInt8.ofNat n) index := by
    decide +kernel
  have hbyte := hall byte.toNat byte.toNat_lt index h
  rw [UInt8.ofNat_toNat] at hbyte
  exact hbyte

theorem byteBit_zero (index : Nat) : byteBit 0 index = false := Nat.zero_testBit _

/-- The bits of a byte, counted from the other end. -/
theorem testBit_eq_of_bits {left right : UInt8} {i : Nat}
    (h : i < 8 → byteBit left (7 - i) = byteBit right (7 - i)) :
    left.toNat.testBit i = right.toNat.testBit i := by
  by_cases hi : i < 8
  · have hbit := h hi
    unfold byteBit at hbit
    rwa [show 7 - (7 - i) = i by omega] at hbit
  · have hpow : 2 ^ 8 ≤ 2 ^ i := Nat.pow_le_pow_right (by decide) (by omega)
    rw [Nat.testBit_lt_two_pow (Nat.lt_of_lt_of_le left.toNat_lt hpow),
      Nat.testBit_lt_two_pow (Nat.lt_of_lt_of_le right.toNat_lt hpow)]

/-- Eight bits determine a byte. -/
theorem byte_eq_of_bits {left right : UInt8}
    (h : ∀ index < 8, byteBit left index = byteBit right index) : left = right := by
  apply UInt8.toNat_inj.1
  apply Nat.eq_of_testBit_eq
  intro i
  exact testBit_eq_of_bits fun hi => h (7 - i) (by omega)

/-- Bytes are ordered by their first bit that differs. -/
theorem byte_lt_of_bits {left right : UInt8} (hindex : index < 8)
    (hagree : ∀ i < index, byteBit left i = byteBit right i) (hleft : byteBit left index = false)
    (hright : byteBit right index = true) : left < right := by
  apply Nat.lt_of_testBit (7 - index) hleft hright
  intro j hj
  exact testBit_eq_of_bits fun hlow => hagree (7 - j) (by omega)

/-- The first bit in which a byte is set. -/
theorem leadingZeros_spec {byte : UInt8} (h : byte ≠ 0) :
    leadingZeros byte < 8 ∧ byteBit byte (leadingZeros byte) = true ∧
      ∀ i < leadingZeros byte, byteBit byte i = false := by
  unfold leadingZeros
  cases hfind : (range 8).find? fun index => byte.toNat.testBit (7 - index) with
  | none =>
    exfalso
    apply h
    apply byte_eq_of_bits
    intro index hindex
    have hnone := find?_eq_none.1 hfind index (mem_range.2 hindex)
    rw [byteBit_zero]
    exact Bool.not_eq_true _ ▸ hnone
  | some =>
    obtain ⟨hbit, hmem, hbefore⟩ := find?_range_eq_some.1 hfind
    refine ⟨mem_range.1 hmem, hbit, fun i hi => ?_⟩
    have hnot := hbefore i hi
    rw [Bool.not_eq_true'] at hnot
    exact hnot

/-! ## Bits of a byte string -/

/-- Bit `index` of a byte string with zeros behind its end. -/
def bytesBit (bytes : Bytes) (index : Nat) : Bool := byteBit (bytes.getD (index / 8) 0) (index % 8)

theorem keyBit_eq (name : ContentName) (index : Nat) :
    keyBit name index = bytesBit name.bytes index :=
  byteBit_eq_mask _ (Nat.mod_lt _ (by decide))

theorem bytesBit_nil (index : Nat) : bytesBit [] index = false := by
  rw [bytesBit, getD_nil, byteBit_zero]

theorem bytesBit_head (byte : UInt8) (rest : Bytes) (h : index < 8) :
    bytesBit (byte :: rest) index = byteBit byte index := by
  rw [bytesBit, Nat.div_eq_of_lt h, Nat.mod_eq_of_lt h]
  rfl

theorem bytesBit_tail (byte : UInt8) (rest : Bytes) (index : Nat) :
    bytesBit (byte :: rest) (index + 8) = bytesBit rest index := by
  rw [bytesBit, bytesBit, Nat.add_div_right _ (by decide), Nat.add_mod_right, getD_cons_succ]

/-- Without null bytes, the bits determine the string. -/
theorem bytes_eq_of_bits {left right : Bytes} (hleft : 0 ∉ left) (hright : 0 ∉ right)
    (h : ∀ index, bytesBit left index = bytesBit right index) : left = right := by
  induction left generalizing right with
  | nil =>
    cases right with
    | nil => rfl
    | cons byte rest =>
      exfalso
      have hzero : byte = 0 := byte_eq_of_bits fun index hindex => by
        rw [byteBit_zero, ← bytesBit_head byte rest hindex, ← h, bytesBit_nil]
      exact hright (hzero ▸ mem_cons_self)
  | cons byte rest ih =>
    cases right with
    | nil =>
      exfalso
      have hzero : byte = 0 := byte_eq_of_bits fun index hindex => by
        rw [byteBit_zero, ← bytesBit_head byte rest hindex, h, bytesBit_nil]
      exact hleft (hzero ▸ mem_cons_self)
    | cons byte' rest' =>
      have hbyte : byte = byte' := byte_eq_of_bits fun index hindex => by
        rw [← bytesBit_head byte rest hindex, h, bytesBit_head byte' rest' hindex]
      have hrest : rest = rest' := by
        refine ih (fun hmem => hleft (mem_cons_of_mem _ hmem))
          (fun hmem => hright (mem_cons_of_mem _ hmem)) fun index => ?_
        rw [← bytesBit_tail byte rest, h, bytesBit_tail]
      rw [hbyte, hrest]

/-- Strings are ordered by their first bit that differs. -/
theorem compare_lt_of_bits {left right : Bytes} {index : Nat}
    (hagree : ∀ i < index, bytesBit left i = bytesBit right i)
    (hleft : bytesBit left index = false) (hright : bytesBit right index = true) :
    compare left right = .lt := by
  induction left generalizing right index with
  | nil =>
    cases right with
    | nil =>
      rw [bytesBit_nil] at hright
      cases hright
    | cons => rfl
  | cons byte rest ih =>
    cases right with
    | nil =>
      rw [bytesBit_nil] at hright
      cases hright
    | cons byte' rest' =>
      have hcons : compare (byte :: rest) (byte' :: rest') =
        (compare byte byte').then (compare rest rest') := List.compareLex_cons_cons
      rw [hcons]
      by_cases hfirst : index < 8
      · -- The bytes differ in front.
        rw [bytesBit_head _ _ hfirst] at hleft hright
        have hlt : byte < byte' := byte_lt_of_bits hfirst (fun i hi => by
          rw [← bytesBit_head byte rest (by omega), hagree i hi,
            bytesBit_head byte' rest' (by omega)]) hleft hright
        rw [compare_eq_lt.2 hlt]
        rfl
      · have hbyte : byte = byte' := byte_eq_of_bits fun i hi => by
          rw [← bytesBit_head byte rest hi, hagree i (by omega), bytesBit_head byte' rest' hi]
        obtain ⟨_, rfl⟩ := Nat.exists_eq_add_of_le' (Nat.not_lt.1 hfirst)
        rw [bytesBit_tail] at hleft hright
        have hself : compare byte' byte' = .eq := ReflCmp.compare_self
        rw [hbyte, hself]
        refine ih (fun i hi => ?_) hleft hright
        rw [← bytesBit_tail byte, hagree (i + 8) (by omega), bytesBit_tail]

/-- A prefix, bit by bit. -/
theorem prefix_iff_bits {front bytes : Bytes} (hnull : 0 ∉ front) :
    (front <+: bytes ↔ ∀ i < front.length * 8, bytesBit bytes i = bytesBit front i) := by
  induction front generalizing bytes with
  | nil =>
    exact ⟨fun _ i hi => absurd hi (by rw [length_nil]; omega), fun _ => nil_prefix⟩
  | cons byte rest ih =>
    have hrest : 0 ∉ rest := fun hmem => hnull (mem_cons_of_mem _ hmem)
    cases bytes with
    | nil =>
      refine ⟨fun h => absurd (prefix_nil.1 h) (cons_ne_nil _ _), fun h => ?_⟩
      exfalso
      have hzero : byte = 0 := byte_eq_of_bits fun index hindex => by
        rw [byteBit_zero, ← bytesBit_head byte rest hindex, ← h index (by
          rw [length_cons]; omega), bytesBit_nil]
      exact hnull (hzero ▸ mem_cons_self)
    | cons byte' =>
      rw [cons_prefix_cons, ih hrest]
      constructor
      · rintro ⟨rfl, hbits⟩ i hi
        by_cases hfirst : i < 8
        · rw [bytesBit_head _ _ hfirst, bytesBit_head _ _ hfirst]
        obtain ⟨_, rfl⟩ := Nat.exists_eq_add_of_le' (Nat.not_lt.1 hfirst)
        rw [bytesBit_tail, bytesBit_tail]
        apply hbits
        rw [length_cons] at hi
        omega
      · intro hbits
        constructor
        · apply byte_eq_of_bits
          intro index hindex
          rw [← bytesBit_head byte rest hindex, ← hbits index (by rw [length_cons]; omega),
            bytesBit_head _ _ hindex]
        · intro i hi
          rw [← bytesBit_tail byte', hbits (i + 8) (by rw [length_cons]; omega), bytesBit_tail]

/-! ## Bits of a name -/

variable {right left : ContentName}

theorem eq_of_keyBit (h : ∀ index, keyBit left index = keyBit right index) : left = right := by
  apply ContentName.ext_bytes
  apply bytes_eq_of_bits left.no_null right.no_null
  intro index
  rw [← keyBit_eq, ← keyBit_eq, h]

theorem prefix_iff_keyBit {front name : ContentName} : front.bytes <+: name.bytes ↔
    ∀ i < front.bytes.length * 8, keyBit name i = keyBit front i := by
  rw [prefix_iff_bits front.no_null]
  constructor
  · intro h i hi
    rw [keyBit_eq, keyBit_eq, h i hi]
  · intro h i hi
    rw [← keyBit_eq, ← keyBit_eq, h i hi]

/-- The first bit where two names differ. -/
structure FirstDiffer (left right : ContentName) (index : Nat) : Prop where
  agree : ∀ i < index, keyBit left i = keyBit right i
  differ : keyBit left index ≠ keyBit right index

theorem FirstDiffer.ne (h : FirstDiffer left right index) : left ≠ right := by
  rintro rfl
  exact h.differ rfl

theorem exists_firstDiffer (hne : left ≠ right) : ∃ index, FirstDiffer left right index := by
  classical
  have hsome : ∃ index, keyBit left index ≠ keyBit right index := by
    by_contra hall
    push Not at hall
    exact hne (eq_of_keyBit hall)
  refine ⟨Nat.find hsome, fun i hi => ?_, Nat.find_spec hsome⟩
  exact not_not.1 (Nat.find_min hsome hi)

theorem FirstDiffer.unique {index' : Nat} (h : FirstDiffer left right index)
    (h' : FirstDiffer left right index') : index = index' := by
  rcases Nat.lt_trichotomy index index' with hlt | heq | hgt
  · exact absurd (h'.agree index hlt) h.differ
  · exact heq
  · exact absurd (h.agree index' hgt) h'.differ

theorem compare_lt_of_before (h : Trie.Before keyBit left right) : compare left right = .lt := by
  obtain ⟨_, hagree, hlt⟩ := h
  rw [Bool.lt_iff, keyBit_eq, keyBit_eq] at hlt
  refine compare_lt_of_bits (fun i hi => ?_) hlt.1 hlt.2
  rw [← keyBit_eq, ← keyBit_eq, hagree i hi]

/-! ## The bit that is found -/

theorem byteBit_xor (left right : UInt8) (index : Nat) :
    byteBit (left ^^^ right) index = (byteBit left index ^^ byteBit right index) := by
  unfold byteBit
  rw [UInt8.toNat_xor, Nat.testBit_xor]

/-- Two names part in the first byte that differs, at its first bit that does. -/
theorem firstDiffer_of_byte {byteIndex : Nat}
    (hbefore : ∀ i < byteIndex, terminatedByte left i = terminatedByte right i)
    (hdiffers : terminatedByte left byteIndex ^^^ terminatedByte right byteIndex ≠ 0) :
    FirstDiffer left right (byteIndex * 8 +
      leadingZeros (terminatedByte left byteIndex ^^^ terminatedByte right byteIndex)) := by
  obtain ⟨hlt, hset, hclear⟩ := leadingZeros_spec hdiffers
  generalize leadingZeros (terminatedByte left byteIndex ^^^ terminatedByte right byteIndex) =
    within
    at hlt hset hclear
  have hbit : ∀ (name : ContentName) (i : Nat), i < 8 →
      keyBit name (byteIndex * 8 + i) = byteBit (terminatedByte name byteIndex) i := by
    intro name i hi
    rw [keyBit_eq, bytesBit, show (byteIndex * 8 + i) / 8 = byteIndex by omega,
      show (byteIndex * 8 + i) % 8 = i by omega]
    rfl
  constructor
  · intro i hi
    by_cases hearlier : i < byteIndex * 8
    · have hbyte := hbefore (i / 8) (by omega)
      rw [keyBit_eq, keyBit_eq, bytesBit, bytesBit]
      unfold terminatedByte at hbyte
      rw [hbyte]
    obtain ⟨rest, rfl⟩ := Nat.exists_eq_add_of_le (Nat.not_lt.1 hearlier)
    rw [hbit left rest (by omega), hbit right rest (by omega)]
    have hsame := hclear rest (by omega)
    rw [byteBit_xor, bne_eq_false_iff_eq] at hsame
    exact hsame
  · rw [hbit left within hlt, hbit right within hlt]
    rw [byteBit_xor] at hset
    exact Bool.xor_iff_ne.1 hset

/-- The search finds the first bit that differs, if it is a 64-bit position. -/
theorem firstDifferingBit_eq {Id : Type} (h : FirstDiffer left right index) :
    (firstDifferingBit left right : Except (CatalogError Id) Nat) =
      if index < wordLimit then .ok index else .error .accountingOverflow := by
  unfold firstDifferingBit
  dsimp only
  cases hfind : (range (max left.bytes.length right.bytes.length + 1)).find? fun index =>
      decide (terminatedByte left index ^^^ terminatedByte right index ≠ 0) with
  | none =>
    exfalso
    -- Equal up to the end of both, the names are equal.
    apply h.differ
    rw [keyBit_eq, keyBit_eq, bytesBit, bytesBit]
    by_cases hin : index / 8 < max left.bytes.length right.bytes.length + 1
    · have hnone := find?_eq_none.1 hfind (index / 8) (mem_range.2 hin)
      rw [decide_eq_true_eq, not_not, UInt8.xor_eq_zero_iff] at hnone
      unfold terminatedByte at hnone
      rw [hnone]
    · rw [getD_eq_default _ _ (by omega), getD_eq_default _ _ (by omega)]
  | some byteIndex =>
    obtain ⟨hdiffers, _, hbefore⟩ := find?_range_eq_some.1 hfind
    rw [decide_eq_true_eq] at hdiffers
    have hfirst := firstDiffer_of_byte (fun i hi => by
      have hsame := hbefore i hi
      rw [Bool.not_eq_true', decide_eq_false_iff_not, not_not, UInt8.xor_eq_zero_iff] at hsame
      exact hsame) hdiffers
    obtain rfl := hfirst.unique h
    dsimp only
    generalize leadingZeros (terminatedByte left byteIndex ^^^ terminatedByte right byteIndex) =
      within
    by_cases hword : byteIndex * 8 + within < wordLimit
    · rw [if_pos hword, checkedMul_eq_some.2 ⟨rfl, by omega⟩, okOr, ok_bind,
        checkedAdd_eq_some.2 ⟨rfl, hword⟩]
      rfl
    rw [if_neg hword]
    by_cases hmul : byteIndex * 8 < wordLimit
    · rw [checkedMul_eq_some.2 ⟨rfl, hmul⟩, okOr, ok_bind, checkedAdd, if_neg hword]
      rfl
    · rw [checkedMul, if_neg hmul]
      rfl

end Astrid.Catalog
