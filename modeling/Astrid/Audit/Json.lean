import Astrid.Audit.CborUnique

/-!
# JSON values in CBOR

`astrid-audit`, `entry_v2/json.rs`: the CBOR form of a JSON value that an entry commits to.
`serde_json` keeps the members of an object sorted by key, so a value in memory (`Stored`) is
determined by its CBOR encoding (`toCbor_inj`): the encoder sorts the members its own way, but
the members are the same.
-/

namespace Astrid.Audit

open Std List

/-- A `serde_json` number. A negative integer is in the range of `i64`; a double is given by the
text `serde_json` writes for it. -/
inductive Number
  | posInt (value : UInt64)
  | negInt (value : Int) (range : -2 ^ 63 ≤ value ∧ value < 0)
  | float (text : String)

/-- A `serde_json` value. -/
inductive Value
  | null
  | bool (value : Bool)
  | number (number : Number)
  | string (text : String)
  | array (items : List Value)
  | object (members : List (String × Value))

/-- A negative integer `v` is stored as `-1 - v`, which is `!v`. -/
def numberToCbor : Number → Cbor
  | .posInt value => .uint value
  | .negInt value _ => .nint (UInt64.ofNat (-1 - value).toNat)
  | .float text => .bytes (Cbor.utf8 text)

mutual

def toCbor : Value → Cbor
  | .null => .null
  | .bool value => .bool value
  | .number number => numberToCbor number
  | .string text => .text text
  | .array items => .array (toCborItems items)
  | .object members => .map (toCborMembers members)

def toCborItems : List Value → List Cbor
  | [] => []
  | item :: items => toCbor item :: toCborItems items

def toCborMembers : List (String × Value) → List (Cbor × Cbor)
  | [] => []
  | (key, value) :: members => (.text key, toCbor value) :: toCborMembers members

end

theorem toCborItems_eq (items : List Value) : toCborItems items = items.map toCbor := by
  induction items with
  | nil => rw [toCborItems, map_nil]
  | cons _ _ ih => rw [toCborItems, map_cons, ih]

theorem toCborMembers_eq (members : List (String × Value)) :
    toCborMembers members = members.map fun member => (.text member.1, toCbor member.2) := by
  induction members with
  | nil => rw [toCborMembers, map_nil]
  | cons _ _ ih => rw [toCborMembers, map_cons, ih]

/-- Keys in the order of a `BTreeMap`. -/
def KeyLt {β : Type} (left right : String × β) : Prop :=
  compare (Cbor.utf8 left.1) (Cbor.utf8 right.1) = .lt

/-- A value as it exists in memory: lengths fit a 64-bit word, and objects are sorted. -/
inductive Stored : Value → Prop
  | null : Stored .null
  | bool (value : Bool) : Stored (.bool value)
  | posInt (value : UInt64) : Stored (.number (.posInt value))
  | negInt (value : Int) (range : -2 ^ 63 ≤ value ∧ value < 0) :
      Stored (.number (.negInt value range))
  | float {text : String} : (Cbor.utf8 text).length < 2 ^ 64 → Stored (.number (.float text))
  | string {text : String} : (Cbor.utf8 text).length < 2 ^ 64 → Stored (.string text)
  | array {items : List Value} : items.length < 2 ^ 64 → (∀ item ∈ items, Stored item) →
      Stored (.array items)
  | object {members : List (String × Value)} : members.length < 2 ^ 64 →
      (∀ member ∈ members, (Cbor.utf8 member.1).length < 2 ^ 64) → members.Pairwise KeyLt →
      (∀ member ∈ members, Stored member.2) → Stored (.object members)

variable {value : Value}

theorem Stored.fits (h : Stored value) : (toCbor value).Fits := by
  induction h with
  | null => rw [toCbor]; exact .null
  | bool value => rw [toCbor]; exact .bool value
  | posInt value => rw [toCbor]; exact .uint value
  | negInt => rw [toCbor]; exact .nint _
  | float hlength => rw [toCbor]; exact .bytes hlength
  | string hlength => rw [toCbor]; exact .text hlength
  | array _ _ ih =>
    rw [toCbor, toCborItems_eq]
    refine .array (by rwa [length_map]) ?_
    intro item hitem
    obtain ⟨value, hvalue, rfl⟩ := mem_map.1 hitem
    exact ih value hvalue
  | object _ hkeys _ _ ih =>
    rw [toCbor, toCborMembers_eq]
    refine .map (by rwa [length_map]) ?_ ?_
    · intro entry hentry
      obtain ⟨member, hmember, rfl⟩ := mem_map.1 hentry
      exact .text (hkeys member hmember)
    · intro entry hentry
      obtain ⟨member, hmember, rfl⟩ := mem_map.1 hentry
      exact ih member hmember

/-! ## Objects -/

variable {β : Type}

theorem KeyLt.trans {a b c : String × β} (h : KeyLt a b) (h' : KeyLt b c) :
    KeyLt a c := TransCmp.lt_trans h h'

theorem KeyLt.ne {a b : String × β} (h : KeyLt a b) : a.1 ≠ b.1 := by
  intro heq
  have hself : compare (Cbor.utf8 b.1) (Cbor.utf8 b.1) = .eq := ReflCmp.compare_self
  unfold KeyLt at h
  rw [heq, hself] at h
  cases h

/-- A sorted list has one member of each name. -/
theorem eq_of_key_eq {xs : List (String × β)} (h : xs.Pairwise KeyLt) {a b : String × β}
    (ha : a ∈ xs) (hb : b ∈ xs) (heq : a.1 = b.1) : a = b := by
  induction h with
  | nil => cases ha
  | @cons _ _ hx _ ih =>
    rw [mem_cons] at ha hb
    rcases ha with rfl | ha <;> rcases hb with rfl | hb
    · rfl
    · exact absurd heq (hx b hb).ne
    · exact absurd heq.symm (hx a ha).ne
    · exact ih ha hb

/-- Sorted members with the same elements are the same list. -/
theorem eq_of_sorted {xs ys : List (String × β)} (hxs : xs.Pairwise KeyLt) (hys : ys.Pairwise KeyLt)
    (hsub : xs ⊆ ys) (hlength : xs.length = ys.length) : xs = ys := by
  have hnodup : xs.Nodup := hxs.imp fun h heq => h.ne (by rw [heq])
  have hperm := (subperm_of_subset hnodup hsub).perm_of_length_le hlength.ge
  refine hperm.eq_of_pairwise ?_ hxs hys
  intro a b _ _ hab hba
  exact absurd rfl (hab.trans hba).ne

/-- The members of objects with equal CBOR maps. -/
theorem members_subset {members members' : List (String × Value)}
    (h : (Cbor.encodeEntries (toCborMembers members)).Perm
      (Cbor.encodeEntries (toCborMembers members')))
    (hvalues : ∀ member ∈ members, ∀ member' ∈ members',
      Cbor.Same (toCbor member.2) (toCbor member'.2) → member.2 = member'.2) :
    members ⊆ members' := by
  intro member hmember
  rw [Cbor.encodeEntries_eq, Cbor.encodeEntries_eq, toCborMembers_eq, toCborMembers_eq,
    map_map, map_map] at h
  obtain ⟨member', hmember', heq⟩ := mem_map.1
    (h.subset (mem_map.2 ⟨member, hmember, rfl⟩))
  obtain ⟨hkey, hvalue⟩ := Prod.mk.injEq .. ▸ heq
  have hkey' : Cbor.Same (.text member'.1) (.text member.1) := hkey
  have hvalue' : Cbor.Same (toCbor member.2) (toCbor member'.2) := hvalue.symm
  have hmember_eq : member = member' :=
    Prod.ext hkey'.text_inj.symm (hvalues member hmember member' hmember' hvalue')
  rwa [hmember_eq]

theorem toCborItems_inj {items items' : List Value}
    (h : List.Forall₂ Cbor.Same (toCborItems items) (toCborItems items'))
    (hitems : ∀ item ∈ items, ∀ item' ∈ items',
      Cbor.Same (toCbor item) (toCbor item') → item = item') : items = items' := by
  rw [toCborItems_eq, toCborItems_eq, forall₂_map_left_iff, forall₂_map_right_iff] at h
  induction h with
  | nil => rfl
  | @cons item item' _ _ hsame _ ih =>
    rw [hitems item mem_cons_self item' mem_cons_self hsame,
      ih fun x hx y hy => hitems x (mem_cons_of_mem _ hx) y (mem_cons_of_mem _ hy)]

/-- The kind of the CBOR form, by which values of different shapes differ. -/
def Value.kind : Value → UInt8
  | .null => Cbor.simpleNull
  | .bool false => Cbor.simpleFalse
  | .bool true => Cbor.simpleTrue
  | .number (.posInt _) => Cbor.majorUint
  | .number (.negInt _ _) => Cbor.majorNint
  | .number (.float _) => Cbor.majorBytes
  | .string _ => Cbor.majorText
  | .array _ => Cbor.majorArray
  | .object _ => Cbor.majorMap

theorem kind_toCbor (value : Value) : (toCbor value).kind = value.kind := by
  cases value with
  | number number => cases number <;> (rw [toCbor]; rfl)
  | bool value => cases value <;> (rw [toCbor]; rfl)
  | _ => rw [toCbor]; rfl

/-- The shape of a value, from its kind. -/
theorem Value.eq_of_kind (value : Value) :
    (value.kind = Cbor.simpleNull → value = .null) ∧
    (value.kind = Cbor.simpleFalse → value = .bool false) ∧
    (value.kind = Cbor.simpleTrue → value = .bool true) ∧
    (value.kind = Cbor.majorUint → ∃ n, value = .number (.posInt n)) ∧
    (value.kind = Cbor.majorNint → ∃ n range, value = .number (.negInt n range)) ∧
    (value.kind = Cbor.majorBytes → ∃ text, value = .number (.float text)) ∧
    (value.kind = Cbor.majorText → ∃ text, value = .string text) ∧
    (value.kind = Cbor.majorArray → ∃ items, value = .array items) ∧
    (value.kind = Cbor.majorMap → ∃ members, value = .object members) := by
  have hmajors : [Cbor.simpleNull, Cbor.simpleFalse, Cbor.simpleTrue, Cbor.majorUint,
    Cbor.majorNint, Cbor.majorBytes, Cbor.majorText, Cbor.majorArray, Cbor.majorMap].Nodup := by
    decide
  cases value with
  | number number =>
    cases number with
    | negInt =>
      simp_all [kind, eq_comm]
      omega
    | _ => simp_all [kind, eq_comm]
  | bool value => cases value <;> simp_all [kind, eq_comm]
  | _ => simp_all [kind, eq_comm]

theorem nint_inj {value value' : Int} (range : -2 ^ 63 ≤ value ∧ value < 0)
    (range' : -2 ^ 63 ≤ value' ∧ value' < 0)
    (h : UInt64.ofNat (-1 - value).toNat = UInt64.ofNat (-1 - value').toNat) :
    value = value' := by
  rw [← UInt64.toNat_inj, UInt64.toNat_ofNat', UInt64.toNat_ofNat'] at h
  omega

variable {value' : Value}

theorem kind_eq_of_same (h : Cbor.Same (toCbor value) (toCbor value')) :
    value'.kind = value.kind := by
  rw [← kind_toCbor, ← kind_toCbor, h.split.1]

/-- A value in memory is determined by its CBOR encoding. -/
theorem toCbor_inj (h : Stored value) (h' : Stored value')
    (hsame : Cbor.Same (toCbor value) (toCbor value')) : value = value' := by
  induction h generalizing value' with
  | null => exact (value'.eq_of_kind.1 (kind_eq_of_same hsame)).symm
  | bool value =>
    obtain ⟨-, hfalse, htrue, -⟩ := value'.eq_of_kind
    cases value
    · exact (hfalse (kind_eq_of_same hsame)).symm
    · exact (htrue (kind_eq_of_same hsame)).symm
  | posInt =>
    obtain ⟨-, -, -, huint, -⟩ := value'.eq_of_kind
    obtain ⟨value', rfl⟩ := huint (kind_eq_of_same hsame)
    rw [hsame.uint_inj]
  | negInt _ range =>
    obtain ⟨-, -, -, -, hnint, -⟩ := value'.eq_of_kind
    obtain ⟨value', range', rfl⟩ := hnint (kind_eq_of_same hsame)
    obtain rfl := nint_inj range range' hsame.nint_inj
    rfl
  | @float text =>
    obtain ⟨-, -, -, -, -, hbytes, -⟩ := value'.eq_of_kind
    obtain ⟨text', rfl⟩ := hbytes (kind_eq_of_same hsame)
    have hutf8 : Cbor.utf8 text = Cbor.utf8 text' := hsame.bytes_inj
    rw [Cbor.utf8_inj hutf8]
  | string =>
    obtain ⟨-, -, -, -, -, -, htext, -⟩ := value'.eq_of_kind
    obtain ⟨_, rfl⟩ := htext (kind_eq_of_same hsame)
    rw [hsame.text_inj]
  | array hlength hitems ih =>
    obtain ⟨-, -, -, -, -, -, -, harray, -⟩ := value'.eq_of_kind
    obtain ⟨_, rfl⟩ := harray (kind_eq_of_same hsame)
    have hfits := (Stored.array hlength hitems).fits
    have hfits' := h'.fits
    cases h' with
    | array _ hitems' =>
      rw [toCborItems_inj (hsame.array_inj hfits hfits') fun item hitem item' hitem' =>
        ih item hitem (hitems' item' hitem')]
  | object hlength hkeys hsorted hvalues ih =>
    obtain ⟨-, -, -, -, -, -, -, -, hmap⟩ := value'.eq_of_kind
    obtain ⟨_, rfl⟩ := hmap (kind_eq_of_same hsame)
    have hfits := (Stored.object hlength hkeys hsorted hvalues).fits
    have hfits' := h'.fits
    have hperm := hsame.map_inj hfits hfits'
    have hlengths := hperm.length_eq
    rw [Cbor.encodeEntries_eq, Cbor.encodeEntries_eq, toCborMembers_eq, toCborMembers_eq,
      length_map, length_map, length_map, length_map] at hlengths
    cases h' with
    | object _ _ hsorted' hvalues' =>
      rw [eq_of_sorted hsorted hsorted' (members_subset hperm fun member hmember member' hmember' =>
        ih member hmember (hvalues' member' hmember')) hlengths]

end Astrid.Audit
