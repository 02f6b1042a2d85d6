import Mathlib

/-!
# Patricia tries

A trie over keys that are read digit by digit. A node stands at the first position where its
keys differ, and has one child for each digit that occurs there; positions before it, in
which all of its keys agree, are skipped. Children are a function of the digit, with `empty`
for the digits that do not occur, so binary and wide tries are the same type.

There is one canonical trie for each finite map (`Canonical.unique`): the position of the
root is the first one where two keys differ, and its children are the canonical tries of the
parts. An update is therefore correct as soon as its result is canonical and has the right
entries, however it was come by.
-/

namespace Astrid

open List Option Function

inductive Trie (κ β δ : Type)
  | empty
  | leaf (key : κ) (value : β)
  | node (position : Nat) (child : δ → Trie κ β δ)

namespace Trie

variable {κ β δ : Type}

/-- The trie has the entry. -/
def Has : Trie κ β δ → κ → β → Prop
  | empty, _, _ => False
  | leaf key value, k, v => k = key ∧ v = value
  | node _ child, k, v => ∃ d, (child d).Has k v

variable (digit : κ → Nat → δ)

/-- What makes a node canonical: children have the keys with their digit, all keys agree
before the position, and at least two digits occur. -/
structure Splits (position : Nat) (child : δ → Trie κ β δ) : Prop where
  digit_eq : ∀ {d k v}, (child d).Has k v → digit k position = d
  agree : ∀ {d d' k k' v v'}, (child d).Has k v → (child d').Has k' v' →
    ∀ i < position, digit k i = digit k' i
  two : ∃ d d' k k' v v', d ≠ d' ∧ (child d).Has k v ∧ (child d').Has k' v'

def Canonical : Trie κ β δ → Prop
  | empty => True
  | leaf _ _ => True
  | node position child => (∀ d, (child d).Canonical) ∧ Splits digit position child

variable {digit} {t t' : Trie κ β δ} {k : κ} {v : β} {position : Nat} {child : δ → Trie κ β δ}

theorem Splits.has_iff (h : Splits digit position child) :
    (node position child).Has k v ↔ (child (digit k position)).Has k v := by
  constructor
  · rintro ⟨d, hd⟩
    rw [h.digit_eq hd]
    exact hd
  · intro hchild
    exact ⟨_, hchild⟩

theorem Canonical.exists_has (h : t.Canonical digit) (hne : t ≠ empty) : ∃ k v, t.Has k v := by
  cases t with
  | empty => exact absurd rfl hne
  | leaf key value => exact ⟨key, value, rfl, rfl⟩
  | node =>
    obtain ⟨d, _, k, _, v, _, _, hk, _⟩ := h.2.two
    exact ⟨k, v, d, hk⟩

variable {v' : β}

/-- A key has one value. -/
theorem Canonical.has_unique (h : t.Canonical digit) (hv : t.Has k v) (hv' : t.Has k v') :
    v = v' := by
  induction t with
  | empty => cases hv
  | leaf => exact hv.2.trans hv'.2.symm
  | node _ _ ih =>
    rw [h.2.has_iff] at hv hv'
    exact ih _ (h.1 _) hv hv'

/-! ## Uniqueness -/

/-- The position of a canonical node is the first where two of its keys differ. -/
theorem Splits.position_le {position' : Nat} {child' : δ → Trie κ β δ}
    (h : Splits digit position child) (h' : Splits digit position' child')
    (hsame : ∀ k v, (node position child).Has k v → (node position' child').Has k v) :
    position' ≤ position := by
  obtain ⟨d, d', k, k', v, v', hne, hk, hk'⟩ := h.two
  by_contra hlt
  obtain ⟨_, he⟩ := hsame k v ⟨d, hk⟩
  obtain ⟨_, he'⟩ := hsame k' v' ⟨d', hk'⟩
  -- Before the position of the other node its keys agree, but these two do not.
  have hagree := h'.agree he he' position (not_le.1 hlt)
  rw [h.digit_eq hk, h.digit_eq hk'] at hagree
  exact hne hagree

theorem not_leaf_of_node {key : κ} {value : β} (h : Splits digit position child)
    (hsame : ∀ k v, (node position child).Has k v → (leaf key value : Trie κ β δ).Has k v) :
    False := by
  obtain ⟨d, d', k, k', v, v', hne, hk, hk'⟩ := h.two
  have hkey : k = key := (hsame k v ⟨d, hk⟩).1
  have hkey' : k' = key := (hsame k' v' ⟨d', hk'⟩).1
  apply hne
  rw [← h.digit_eq hk, ← h.digit_eq hk', hkey, hkey']

/-- Canonical tries with the same entries are equal. -/
theorem Canonical.unique (h : t.Canonical digit) (h' : t'.Canonical digit)
    (hsame : ∀ k v, t.Has k v ↔ t'.Has k v) : t = t' := by
  induction t generalizing t' with
  | empty =>
    by_contra hne
    obtain ⟨k, v, hk⟩ := h'.exists_has (Ne.symm hne)
    exact (hsame k v).2 hk
  | leaf key value =>
    have hkey := (hsame key value).1 ⟨rfl, rfl⟩
    cases t' with
    | empty => cases hkey
    | leaf =>
      obtain ⟨rfl, rfl⟩ := hkey
      rfl
    | node => exact (not_leaf_of_node h'.2 fun k v => (hsame k v).2).elim
  | node position _ ih =>
    cases t' with
    | empty =>
      obtain ⟨d, _, k, _, v, _, _, hk, _⟩ := h.2.two
      exact ((hsame k v).1 ⟨d, hk⟩).elim
    | leaf => exact (not_leaf_of_node h.2 fun k v => (hsame k v).1).elim
    | node position' =>
      have hle := h.2.position_le h'.2 fun k v => (hsame k v).1
      have hge := h'.2.position_le h.2 fun k v => (hsame k v).2
      obtain rfl : position = position' := le_antisymm hge hle
      congr 1
      funext d
      refine ih d (h.1 d) (h'.1 d) fun k v => ?_
      constructor
      · intro hk
        have hother := (hsame k v).1 ⟨d, hk⟩
        rw [h'.2.has_iff, h.2.digit_eq hk] at hother
        exact hother
      · intro hk
        have hother := (hsame k v).2 ⟨d, hk⟩
        rw [h.2.has_iff, h'.2.digit_eq hk] at hother
        exact hother

/-! ## Lookups -/

/-- Follow the digits of the key to a leaf. -/
def nearest (digit : κ → Nat → δ) (k : κ) : Trie κ β δ → Option (κ × β)
  | empty => none
  | leaf key value => some (key, value)
  | node position child => (child (digit k position)).nearest digit k

variable {found : κ × β}

theorem nearest_has (h : t.nearest digit k = some found) : t.Has found.1 found.2 := by
  induction t with
  | empty => cases h
  | leaf =>
    cases h
    exact ⟨rfl, rfl⟩
  | node _ _ ih => exact ⟨_, ih _ h⟩

/-- A key that is there is found. -/
theorem Canonical.nearest_of_has (h : t.Canonical digit) (hk : t.Has k v) :
    t.nearest digit k = some (k, v) := by
  induction t with
  | empty => cases hk
  | leaf =>
    obtain ⟨rfl, rfl⟩ := hk
    rfl
  | node _ _ ih =>
    rw [h.2.has_iff] at hk
    exact ih _ (h.1 _) hk

section Find

variable [DecidableEq κ]

def find (digit : κ → Nat → δ) (k : κ) (t : Trie κ β δ) : Option β :=
  (t.nearest digit k).bind fun found => if found.1 = k then some found.2 else none

theorem find_of_nearest (h : t.nearest digit k = some found) :
    t.find digit k = if found.1 = k then some found.2 else none := by
  rw [find, h, bind_some]

theorem Canonical.find_eq_some (h : t.Canonical digit) : t.find digit k = some v ↔ t.Has k v := by
  constructor
  · intro hfind
    obtain ⟨_, hnearest, hvalue⟩ := bind_eq_some_iff.1 hfind
    split at hvalue
    next hkey =>
      cases hvalue
      have hhas := nearest_has hnearest
      rw [hkey] at hhas
      exact hhas
    next => cases hvalue
  · intro hk
    rw [find_of_nearest (h.nearest_of_has hk), if_pos rfl]

end Find

/-! ## Updates -/

/-- `t'` is `t` with a value put under `k`. -/
def Updates (k : κ) (v : β) (t t' : Trie κ β δ) : Prop :=
  ∀ k' v', t'.Has k' v' ↔ (k' = k ∧ v' = v) ∨ (k' ≠ k ∧ t.Has k' v')

/-- `t'` is `t` without `k`. -/
def Erases (k : κ) (t t' : Trie κ β δ) : Prop :=
  ∀ k' v', t'.Has k' v' ↔ k' ≠ k ∧ t.Has k' v'

theorem Updates.has_self (h : Updates k v t t') : t'.Has k v := (h k v).2 (.inl ⟨rfl, rfl⟩)

/-- Every key of an updated trie is the new one or an old one. -/
theorem Updates.key {k' : κ} (h : Updates k v t t') (hk : t'.Has k' v') : k' = k ∨ t.Has k' v' := by
  rcases (h k' v').1 hk with ⟨hkey, _⟩ | ⟨_, hold⟩
  · exact .inl hkey
  · exact .inr hold

theorem updates_leaf (k : κ) (v w : β) :
    Updates k v (leaf k w : Trie κ β δ) (leaf k v) := by
  intro k' v'
  constructor
  · intro h
    exact .inl h
  · rintro (h | ⟨hne, hkey, _⟩)
    · exact h
    · exact absurd hkey hne

theorem Canonical.updates_self (h : t.Canonical digit) (hk : t.Has k v) : Updates k v t t := by
  intro k' v'
  constructor
  · intro hk'
    by_cases hkey : k' = k
    · subst hkey
      exact .inl ⟨rfl, h.has_unique hk' hk⟩
    · exact .inr ⟨hkey, hk'⟩
  · rintro (⟨rfl, rfl⟩ | ⟨_, hk'⟩)
    · exact hk
    · exact hk'

theorem updates_empty (k : κ) (v : β) : Updates k v (empty : Trie κ β δ) (leaf k v) := by
  intro k' v'
  constructor
  · intro h
    exact .inl h
  · rintro (h | ⟨_, h⟩)
    · exact h
    · cases h

section Node

variable [DecidableEq δ] {position : Nat} {child : δ → Trie κ β δ}

/-- A node with two children. -/
def fork (position : Nat) (d : δ) (t : Trie κ β δ) (e : δ) (t' : Trie κ β δ) : Trie κ β δ :=
  node position fun c => if c = d then t else if c = e then t' else empty

variable {d e : δ}

theorem has_fork (hne : d ≠ e) : (fork position d t e t').Has k v ↔ t.Has k v ∨ t'.Has k v := by
  constructor
  · rintro ⟨c, hc⟩
    dsimp only at hc
    split at hc
    next => exact .inl hc
    next =>
      split at hc
      next => exact .inr hc
      next => cases hc
  · rintro (h | h)
    · refine ⟨d, ?_⟩
      dsimp only
      rw [if_pos rfl]
      exact h
    · refine ⟨e, ?_⟩
      dsimp only
      rw [if_neg (Ne.symm hne), if_pos rfl]
      exact h

/-- Two tries that part at a position. -/
theorem canonical_fork (hne : d ≠ e) (ht : t.Canonical digit) (ht' : t'.Canonical digit)
    (hnonempty : ∃ k v, t.Has k v) (hnonempty' : ∃ k v, t'.Has k v)
    (hd : ∀ {k v}, t.Has k v → digit k position = d)
    (he : ∀ {k v}, t'.Has k v → digit k position = e)
    (hagree : ∀ {k k' v v'}, (t.Has k v ∨ t'.Has k v) → (t.Has k' v' ∨ t'.Has k' v') →
      ∀ i < position, digit k i = digit k' i) :
    (fork position d t e t').Canonical digit := by
  refine ⟨fun c => ?_, fun {c k v} hc => ?_, fun {c c' k k' v v'} hc hc' => ?_, ?_⟩
  · show Canonical digit (if c = d then t else if c = e then t' else empty)
    split
    next => exact ht
    next =>
      split
      next => exact ht'
      next => trivial
  · split at hc
    next heq => rw [hd hc, heq]
    next =>
      split at hc
      next heq => rw [he hc, heq]
      next => cases hc
  · have hall : (fork position d t e t').Has k v := ⟨c, hc⟩
    have hall' : (fork position d t e t').Has k' v' := ⟨c', hc'⟩
    exact hagree ((has_fork hne).1 hall) ((has_fork hne).1 hall')
  · obtain ⟨k, v, hk⟩ := hnonempty
    obtain ⟨k', v', hk'⟩ := hnonempty'
    refine ⟨d, e, k, k', v, v', hne, ?_, ?_⟩
    · rw [if_pos rfl]
      exact hk
    · rw [if_neg (Ne.symm hne), if_pos rfl]
      exact hk'

/-- A new key that leaves the common path of a trie at `position`. -/
theorem canonical_fork_leaf (ht : t.Canonical digit) (hnonempty : ∃ k v, t.Has k v)
    (hagree : ∀ {k' v'}, t.Has k' v' → ∀ i < position, digit k' i = digit k i)
    (he : ∀ {k' v'}, t.Has k' v' → digit k' position = e) (hne : digit k position ≠ e) :
    (fork position (digit k position) (leaf k v) e t).Canonical digit ∧
      Updates k v t (fork position (digit k position) (leaf k v) e t) := by
  constructor
  · refine canonical_fork hne trivial ht ⟨k, v, rfl, rfl⟩ hnonempty ?_ he ?_
    · rintro k' v' ⟨rfl, _⟩
      rfl
    · rintro k₁ k₂ v₁ v₂ (⟨rfl, _⟩ | h₁) (⟨rfl, _⟩ | h₂) i hi
      · rfl
      · exact (hagree h₂ i hi).symm
      · exact hagree h₁ i hi
      · rw [hagree h₁ i hi, hagree h₂ i hi]
  · intro k' v'
    rw [has_fork hne]
    constructor
    · rintro (h | h)
      · exact .inl h
      · refine .inr ⟨?_, h⟩
        rintro rfl
        exact hne (he h)
    · rintro (h | ⟨_, h⟩)
      · exact .inl h
      · exact .inr h

variable {child' : Trie κ β δ}

theorem has_update :
    (node position (Function.update child d child')).Has k v ↔
      child'.Has k v ∨ ∃ c, c ≠ d ∧ (child c).Has k v := by
  constructor
  · rintro ⟨c, hc⟩
    by_cases hcd : c = d
    · subst hcd
      rw [update_self] at hc
      exact .inl hc
    · rw [update_of_ne hcd] at hc
      exact .inr ⟨c, hcd, hc⟩
  · rintro (h | ⟨c, hcd, h⟩)
    · refine ⟨d, ?_⟩
      rw [update_self]
      exact h
    · refine ⟨c, ?_⟩
      rw [update_of_ne hcd]
      exact h

section

variable (h : (node position child).Canonical digit)

include h

/-- A node keeps its position when one child is replaced by a trie that has the digit and
the path of the node, is not empty, and another child occurs. -/
theorem canonical_update (hchild : child'.Canonical digit) (hnonempty : ∃ k v, child'.Has k v)
    (hdigit : ∀ {k v}, child'.Has k v → digit k position = d)
    (hagree : ∀ {k v k' v'}, child'.Has k v → (node position child).Has k' v' →
      ∀ i < position, digit k i = digit k' i) :
    (node position (Function.update child d child')).Canonical digit := by
  obtain ⟨hchildren, hsplits⟩ := h
  -- Any two new keys agree through an old one.
  obtain ⟨c, c', x, x', w, w', hcc, hx, hx'⟩ := hsplits.two
  have hpath : ∀ {e k v}, (update child d child' e).Has k v →
      ∀ i < position, digit k i = digit x i := by
    intro e k v hk i hi
    have hall : (node position (update child d child')).Has k v := ⟨e, hk⟩
    rcases has_update.1 hall with hnew | ⟨e', _, hold⟩
    · exact hagree hnew ⟨c, hx⟩ i hi
    · exact hsplits.agree hold hx i hi
  refine ⟨fun e => ?_, fun {e k v} hk => ?_, fun {e e' k k' v v'} hk hk' i hi => ?_, ?_⟩
  · by_cases he : e = d
    · subst he
      rw [update_self]
      exact hchild
    · rw [update_of_ne he]
      exact hchildren e
  · by_cases he : e = d
    · subst he
      rw [update_self] at hk
      exact hdigit hk
    · rw [update_of_ne he] at hk
      exact hsplits.digit_eq hk
  · rw [hpath hk i hi, hpath hk' i hi]
  · obtain ⟨k, v, hk⟩ := hnonempty
    -- One of the two digits that occurred is not the replaced one.
    by_cases hcd : c = d
    · have hcd' : c' ≠ d := fun heq => hcc (hcd.trans heq.symm)
      refine ⟨d, c', k, x', v, w', Ne.symm hcd', ?_, ?_⟩
      · rw [update_self]
        exact hk
      · rw [update_of_ne hcd']
        exact hx'
    · refine ⟨d, c, k, x, v, w, Ne.symm hcd, ?_, ?_⟩
      · rw [update_self]
        exact hk
      · rw [update_of_ne hcd]
        exact hx

/-- An update of the child that a key selects is an update of the node. -/
theorem canonical_update_child
    (hpath : ∀ {k' v'}, (node position child).Has k' v' → ∀ i < position, digit k' i = digit k i)
    (hchild : child'.Canonical digit) (hupdates : Updates k v (child (digit k position)) child') :
    (node position (Function.update child (digit k position) child')).Canonical digit ∧
      Updates k v (node position child)
        (node position (Function.update child (digit k position) child')) := by
  have hkeys : ∀ {k' v'}, child'.Has k' v' → digit k' position = digit k position := by
    intro k' v' hk'
    rcases hupdates.key hk' with rfl | hold
    · rfl
    · exact h.2.digit_eq hold
  constructor
  · refine canonical_update h hchild ⟨k, v, hupdates.has_self⟩ hkeys ?_
    intro k₁ v₁ k₂ v₂ h₁ h₂ i hi
    rcases hupdates.key h₁ with rfl | hold
    · exact (hpath h₂ i hi).symm
    · rw [hpath ⟨_, hold⟩ i hi, hpath h₂ i hi]
  · intro k' v'
    rw [has_update, hupdates k' v']
    constructor
    · rintro ((hnew | ⟨hne, hold⟩) | ⟨c, hc, hold⟩)
      · exact .inl hnew
      · exact .inr ⟨hne, _, hold⟩
      · refine .inr ⟨?_, c, hold⟩
        rintro rfl
        exact hc (h.2.digit_eq hold).symm
    · rintro (hnew | ⟨hne, c, hold⟩)
      · exact .inl (.inl hnew)
      · by_cases hc : c = digit k position
        · subst hc
          exact .inl (.inr ⟨hne, hold⟩)
        · exact .inr ⟨c, hc, hold⟩

/-- Erasing from the child that a key selects, where something is left of it. -/
theorem canonical_erase_child (hchild : child'.Canonical digit) (hnonempty : ∃ k v, child'.Has k v)
    (herases : Erases k (child (digit k position)) child') :
    (node position (Function.update child (digit k position) child')).Canonical digit ∧
      Erases k (node position child)
        (node position (Function.update child (digit k position) child')) := by
  constructor
  · refine canonical_update h hchild hnonempty ?_ ?_
    · intro k' v' hk'
      exact h.2.digit_eq ((herases k' v').1 hk').2
    · rintro k₁ v₁ k₂ v₂ h₁ ⟨c, h₂⟩
      exact h.2.agree ((herases k₁ v₁).1 h₁).2 h₂
  · intro k' v'
    rw [has_update, herases k' v']
    constructor
    · rintro (⟨hne, hold⟩ | ⟨c, hc, hold⟩)
      · exact ⟨hne, _, hold⟩
      · refine ⟨?_, c, hold⟩
        rintro rfl
        exact hc (h.2.digit_eq hold).symm
    · rintro ⟨hne, c, hold⟩
      by_cases hc : c = digit k position
      · subst hc
        exact .inl ⟨hne, hold⟩
      · exact .inr ⟨c, hc, hold⟩

end

/-! ## Insertion -/

/-- Replace the leaf on the path of a key. -/
def replace (digit : κ → Nat → δ) (k : κ) (v : β) : Trie κ β δ → Trie κ β δ
  | empty => leaf k v
  | leaf _ _ => leaf k v
  | node position child =>
    node position (Function.update child (digit k position)
      ((child (digit k position)).replace digit k v))

/-- Fork off a new leaf at `position`, below the nodes on its path that stand before it. -/
def graft (digit : κ → Nat → δ) (position : Nat) (k : κ) (v : β) (e : δ) :
    Trie κ β δ → Trie κ β δ
  | empty => fork position (digit k position) (leaf k v) e empty
  | leaf key value => fork position (digit k position) (leaf k v) e (leaf key value)
  | node level child =>
    if level < position then
      node level (Function.update child (digit k level)
        ((child (digit k level)).graft digit position k v e))
    else fork position (digit k position) (leaf k v) e (node level child)

theorem canonical_replace {w : β} (h : t.Canonical digit) (hk : t.Has k w) :
    (t.replace digit k v).Canonical digit ∧ Updates k v t (t.replace digit k v) := by
  induction t with
  | empty => cases hk
  | leaf =>
    obtain ⟨rfl, rfl⟩ := hk
    exact ⟨trivial, updates_leaf _ _ _⟩
  | node position child ih =>
    have hchild : (child (digit k position)).Has k w := by
      obtain ⟨_, hc⟩ := hk
      obtain rfl := h.2.digit_eq hc
      exact hc
    obtain ⟨hcanonical, hupdates⟩ := ih _ (h.1 _) hchild
    refine canonical_update_child h ?_ hcanonical hupdates
    rintro k' v' ⟨c', hk'⟩
    exact h.2.agree hk' hchild

/-- The key nearest to a new one says where the new one leaves the trie. -/
theorem canonical_graft {position : Nat} (h : t.Canonical digit)
    (hnearest : t.nearest digit k = some found)
    (hagree : ∀ i < position, digit found.1 i = digit k i) (he : digit found.1 position = e)
    (hne : digit k position ≠ e) :
    (t.graft digit position k v e).Canonical digit ∧
      Updates k v t (t.graft digit position k v e) := by
  induction t with
  | empty => cases hnearest
  | leaf key value =>
    cases hnearest
    refine canonical_fork_leaf h ⟨key, value, rfl, rfl⟩ ?_ ?_ hne
    · rintro k' v' ⟨rfl, _⟩
      exact hagree
    · rintro k' v' ⟨rfl, _⟩
      exact he
  | node level child ih =>
    have hfound : (child (digit k level)).Has found.1 found.2 := nearest_has hnearest
    have hdigit : digit found.1 level = digit k level := h.2.digit_eq hfound
    rw [graft]
    split
    next hbefore =>
      -- The new key is still on the common path here.
      obtain ⟨hcanonical, hupdates⟩ := ih _ (h.1 _) hnearest
      refine canonical_update_child h ?_ hcanonical hupdates
      rintro k' v' ⟨c', hk'⟩ i hi
      rw [h.2.agree hk' hfound i hi, hagree i (by omega)]
    next hbefore =>
      have hat : position < level := by
        rcases lt_or_ge position level with hlt | hge
        · exact hlt
        · have heq : level = position := by omega
          subst heq
          exact absurd (hdigit.symm.trans he) hne
      refine canonical_fork_leaf h ⟨found.1, found.2, _, hfound⟩ ?_ ?_ hne
      · rintro k' v' ⟨c', hk'⟩ i hi
        rw [h.2.agree hk' hfound i (by omega), hagree i hi]
      · rintro k' v' ⟨c', hk'⟩
        rw [h.2.agree hk' hfound position hat, he]

end Node

/-! ## Order -/

section Order

variable [LT δ]

/-- Keys are ordered by the first digit where they differ. -/
def Before (digit : κ → Nat → δ) (k k' : κ) : Prop :=
  ∃ i, (∀ j < i, digit k j = digit k' j) ∧ digit k i < digit k' i

/-- The entries, with the children of a node in the order of `digits`. -/
def entries (digits : List δ) : Trie κ β δ → List (κ × β)
  | empty => []
  | leaf key value => [(key, value)]
  | node _ child => digits.flatMap fun d => (child d).entries digits

variable {digits : List δ}

omit [LT δ] in
theorem mem_entries (hall : ∀ d, d ∈ digits) : (k, v) ∈ t.entries digits ↔ t.Has k v := by
  induction t with
  | empty =>
    exact ⟨fun h => absurd h not_mem_nil, False.elim⟩
  | leaf =>
    rw [entries, mem_singleton, Prod.mk.injEq]
    rfl
  | node _ _ ih =>
    rw [entries, mem_flatMap]
    constructor
    · rintro ⟨d, _, hd⟩
      exact ⟨d, (ih d).1 hd⟩
    · rintro ⟨d, hd⟩
      exact ⟨d, hall d, (ih d).2 hd⟩

/-- The entries of a canonical trie come in the order of their keys. -/
theorem Canonical.sorted (hall : ∀ d, d ∈ digits) (hdigits : digits.Pairwise (· < ·))
    (h : t.Canonical digit) : (t.entries digits).Pairwise fun a b => Before digit a.1 b.1 := by
  induction t with
  | empty => exact .nil
  | leaf => exact pairwise_singleton _ _
  | node position _ ih =>
    rw [entries, pairwise_flatMap]
    refine ⟨fun d _ => ih d (h.1 d), hdigits.imp ?_⟩
    rintro d d' hlt ⟨k, v⟩ hk ⟨k', v'⟩ hk'
    rw [mem_entries hall] at hk hk'
    refine ⟨position, h.2.agree hk hk', ?_⟩
    rw [h.2.digit_eq hk, h.2.digit_eq hk']
    exact hlt

end Order

end Trie

end Astrid
