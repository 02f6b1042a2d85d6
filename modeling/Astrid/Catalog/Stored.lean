import Astrid.Catalog.Bits

/-!
# Tries in a store

The catalog as a trie, and a store that has its nodes. The identity of a node covers its
whole subtree, so the root is a function of the trie (`rootOf`), and a walk over the store is
a walk over the trie. Lookups return what the trie has under a name, lists return its entries
in order, and the lists by prefix return the entries whose names start with it: a branch
above the end of the prefix leads to one side only, and the names on the other side disagree
with the prefix in that bit.
-/

namespace Astrid.Catalog

open Std List

abbrev CatalogTrie (Id : Type) := Trie ContentName (CatalogValue Id) Bool

section Stored

variable {Id : Type} (identify : ObjectRecord Id → Id)

/-! ## Totals and roots -/

/-- The totals of a trie. -/
def summaryOf : CatalogTrie Id → CatalogSummary
  | .empty => ⟨0, 0, 0⟩
  | .leaf name value =>
    ⟨value.logicalBytes.toNat, value.logicalBytes.toNat + name.bytes.length, 1⟩
  | .node _ child => (summaryOf (child false)).add (summaryOf (child true))

/-- The root of a trie; an empty trie has none, and what stands here does not matter. -/
def rootOf : CatalogTrie Id → CatalogRoot Id
  | .empty => ⟨identify ⟨.directory, catalogVersion, [], [], 0, .metadata, .nil⟩, ⟨0, 0, 0⟩⟩
  | .leaf name value => ⟨identify (leafObject name value), summaryOf (.leaf name value)⟩
  | .node bit child =>
    ⟨identify (branchObject bit (rootOf (child false)) (rootOf (child true))),
      summaryOf (.node bit child)⟩

def catalogRoot : CatalogTrie Id → Option (CatalogRoot Id)
  | .empty => none
  | t => some (rootOf identify t)

variable {t : CatalogTrie Id}

theorem catalogRoot_of_ne (h : t ≠ .empty) :
    catalogRoot identify t = some (rootOf identify t) := by
  cases t with
  | empty => exact absurd rfl h
  | leaf | node => rfl

theorem summary_rootOf (t : CatalogTrie Id) : (rootOf identify t).summary = summaryOf t := by
  cases t with
  | empty | leaf | node => rfl

/-- Branch positions fit their field. -/
def Positioned : CatalogTrie Id → Prop
  | .empty => True
  | .leaf _ _ => True
  | .node bit child => bit < wordLimit ∧ ∀ side, Positioned (child side)

/-- Totals and positions fit their fields. -/
structure Accounted (t : CatalogTrie Id) : Prop where
  fits : (summaryOf t).Fits
  positioned : Positioned t

theorem accounted_empty : Accounted (.empty : CatalogTrie Id) :=
  ⟨⟨show 0 < wordLimit by decide, show 0 < wordLimit by decide, show 0 < wordLimit by decide⟩,
    trivial⟩

variable {bit : Nat}

theorem Accounted.child {child : Bool → CatalogTrie Id} (h : Accounted (.node bit child))
    (side : Bool) : Accounted (child side) := by
  obtain ⟨hleft, hright⟩ := CatalogSummary.Fits.of_add h.fits
  cases side with
  | false => exact ⟨hleft, h.positioned.2 false⟩
  | true => exact ⟨hright, h.positioned.2 true⟩

/-- A store has every node of a trie. -/
def Stored (has : Id → ObjectRecord Id → Prop) : CatalogTrie Id → Prop
  | .empty => True
  | .leaf name value => has (identify (leafObject name value)) (leafObject name value)
  | .node bit child =>
    has (identify (branchObject bit (rootOf identify (child false)) (rootOf identify (child true))))
      (branchObject bit (rootOf identify (child false)) (rootOf identify (child true))) ∧
    ∀ side, Stored has (child side)

variable {identify}

theorem Stored.mono {has has' : Id → ObjectRecord Id → Prop}
    (hmono : ∀ id record, has id record → has' id record) (h : Stored identify has t) :
    Stored identify has' t := by
  induction t with
  | empty => trivial
  | leaf => exact hmono _ _ h
  | node _ _ ih => exact ⟨hmono _ _ h.1, fun side => ih side (h.2 side)⟩

theorem stored_true (t : CatalogTrie Id) : Stored identify (fun _ _ => True) t := by
  induction t with
  | empty | leaf => trivial
  | node _ _ ih => exact ⟨trivial, ih⟩

/-! ## Walks -/

/-- The caller's `load` answers with a record. -/
def Serves (load : Load Id) (id : Id) (record : ObjectRecord Id) : Prop := load id = .ok record

variable {load : Load Id}

theorem loadNode_leaf {name : ContentName} {value : CatalogValue Id}
    (h : Stored identify (Serves load) (.leaf name value)) :
    loadNode load (rootOf identify (.leaf name value)) = .ok (.leaf name value) := by
  have hload : load (identify (leafObject name value)) = .ok (leafObject name value) := h
  show (load (identify (leafObject name value)) >>= _) = _
  rw [hload, ok_bind, decodeNode_leaf]

theorem loadNode_node {child : Bool → CatalogTrie Id}
    (h : Stored identify (Serves load) (.node bit child)) (hfits : Accounted (.node bit child)) :
    loadNode load (rootOf identify (.node bit child)) =
      .ok (.branch bit (rootOf identify (child false)) (rootOf identify (child true))) := by
  have hload : load (rootOf identify (.node bit child)).object = .ok _ := h.1
  have hsum : ((rootOf identify (child false)).summary.add
      (rootOf identify (child true)).summary).Fits := by
    rw [summary_rootOf, summary_rootOf]
    exact hfits.fits
  unfold loadNode
  rw [hload, ok_bind, decodeNode_branch _ hfits.positioned.1 hsum]

theorem rootOf_child (child : Bool → CatalogTrie Id) (side : Bool) :
    (if side then rootOf identify (child true) else rootOf identify (child false)) =
      rootOf identify (child side) := by
  cases side with
  | false | true => rfl

/-- Both sides of a canonical branch have names. -/
theorem child_ne_empty {child : Bool → CatalogTrie Id}
    (h : (Trie.node bit child).Canonical keyBit) (side : Bool) : child side ≠ .empty := by
  obtain ⟨d, d', _, _, _, _, _, hk, hk'⟩ := h.2.two
  intro hempty
  have hside : side = d ∨ side = d' := by
    cases side <;> cases d <;> cases d' <;> simp_all
  rcases hside with rfl | rfl
  · rw [hempty] at hk
    exact hk
  · rw [hempty] at hk'
    exact hk'

/-- A trie with names whose nodes a walk can load. -/
structure Walkable (identify : ObjectRecord Id → Id) (load : Load Id) (t : CatalogTrie Id) :
    Prop where
  canonical : t.Canonical keyBit
  fits : Accounted t
  stored : Stored identify (Serves load) t
  ne_empty : t ≠ .empty

theorem Walkable.child {child : Bool → CatalogTrie Id}
    (h : Walkable identify load (.node bit child)) (side : Bool) :
    Walkable identify load (child side) :=
  ⟨h.canonical.1 side, h.fits.child side, h.stored.2 side, child_ne_empty h.canonical side⟩

/-- A walk by the bits of a name finds its value. -/
theorem lookupTurn_returns (name : ContentName) (h : Walkable identify load t) :
    Returns (fun fuel => iterate (lookupTurn load name) fuel (rootOf identify t))
      (.ok (t.find keyBit name)) := by
  induction t with
  | empty => exact absurd rfl h.ne_empty
  | leaf =>
    apply returns_stop
    rw [lookupTurn, loadNode_leaf h.stored]
    rfl
  | node bit child ih =>
    refine returns_again ?_ (ih (keyBit name bit) (h.child _))
    rw [lookupTurn, loadNode_node h.stored h.fits]
    exact congrArg Turn.again (rootOf_child child (keyBit name bit))

/-! ## Lists -/

/-- The entries of a trie, left to right. -/
def contentEntries (t : CatalogTrie Id) : List (ContentEntry Id) :=
  (t.entries [false, true]).map fun entry => ⟨entry.1, entry.2.file, entry.2.logicalBytes⟩

theorem entries_node (bit : Nat) (child : Bool → CatalogTrie Id) :
    (Trie.node bit child).entries [false, true] =
      (child false).entries [false, true] ++ (child true).entries [false, true] := by
  rw [Trie.entries, flatMap_cons, flatMap_cons, flatMap_nil, append_nil]

theorem contentEntries_node (bit : Nat) (child : Bool → CatalogTrie Id) :
    contentEntries (.node bit child) = contentEntries (child false) ++
      contentEntries (child true) := by
  rw [contentEntries, entries_node, map_append]
  rfl

theorem mem_digits (side : Bool) : side ∈ [false, true] := by
  cases side with
  | false => exact mem_cons_self
  | true => exact mem_cons_of_mem _ (mem_singleton_self _)

/-- From a subtree on the stack, the list goes on behind its entries. -/
theorem listTurn_returns (h : Walkable identify load t) :
    ∀ {entries : List (ContentEntry Id)} {stack : List (CatalogRoot Id)}
      {result : Except (CatalogError Id) (List (ContentEntry Id))},
      Returns (fun fuel => iterate (listTurn load) fuel ⟨entries ++ contentEntries t, stack⟩)
        result →
      Returns (fun fuel => iterate (listTurn load) fuel ⟨entries, rootOf identify t :: stack⟩)
        result := by
  induction t with
  | empty => exact absurd rfl h.ne_empty
  | leaf =>
    intro entries stack result hrest
    refine returns_again ?_ hrest
    simp only [listTurn, loadNode_leaf h.stored]
    rfl
  | node bit child ih =>
    intro entries stack result hrest
    have hturn : listTurn load ⟨entries, rootOf identify (.node bit child) :: stack⟩ =
        .again ⟨entries, rootOf identify (child false) :: rootOf identify (child true) ::
          stack⟩ := by
      simp only [listTurn, loadNode_node h.stored h.fits]
    refine returns_again hturn ?_
    apply ih false (h.child _)
    apply ih true (h.child _)
    rw [contentEntries_node, ← append_assoc] at hrest
    exact hrest

/-! ## Lists by prefix -/

/-- The entries whose names start with a prefix. -/
def prefixEntries (namePrefix : ContentName) (t : CatalogTrie Id) : List (ContentEntry Id) :=
  (contentEntries t).filter fun entry => namePrefix.bytes <+: entry.name.bytes

theorem prefixEntries_node (namePrefix : ContentName) (bit : Nat) (child : Bool → CatalogTrie Id) :
    prefixEntries namePrefix (.node bit child) =
      prefixEntries namePrefix (child false) ++ prefixEntries namePrefix (child true) := by
  rw [prefixEntries, contentEntries_node, filter_append]
  rfl

/-- Above the end of the prefix, the side that disagrees with it has nothing to list. -/
theorem prefixEntries_eq_nil {namePrefix : ContentName} {child : Bool → CatalogTrie Id}
    (hcanonical : (Trie.node bit child).Canonical keyBit)
    (hbit : bit < namePrefix.bytes.length * 8) {side : Bool}
    (hside : side ≠ keyBit namePrefix bit) :
    prefixEntries namePrefix (child side) = [] := by
  rw [prefixEntries, filter_eq_nil_iff]
  intro entry hentry hbegins
  obtain ⟨⟨_, _⟩, hmem, rfl⟩ := mem_map.1 hentry
  have hhas := (Trie.mem_entries mem_digits).1 hmem
  have hdigit := hcanonical.2.digit_eq hhas
  have hagree := prefix_iff_keyBit.1 (of_decide_eq_true hbegins) bit hbit
  exact hside (hdigit.symm.trans hagree)

/-- At a branch above the end of the prefix, the side it leads to has all there is. -/
theorem prefixEntries_side {namePrefix : ContentName} {child : Bool → CatalogTrie Id}
    (hcanonical : (Trie.node bit child).Canonical keyBit)
    (hbit : bit < namePrefix.bytes.length * 8) :
    prefixEntries namePrefix (.node bit child) =
      prefixEntries namePrefix (child (keyBit namePrefix bit)) := by
  rw [prefixEntries_node]
  cases hside : keyBit namePrefix bit with
  | false =>
    have hright : true ≠ keyBit namePrefix bit := by rw [hside]; exact Bool.noConfusion
    rw [prefixEntries_eq_nil hcanonical hbit hright, append_nil]
  | true =>
    have hleft : false ≠ keyBit namePrefix bit := by rw [hside]; exact Bool.noConfusion
    rw [prefixEntries_eq_nil hcanonical hbit hleft, nil_append]

theorem listPrefixTurn_returns (namePrefix : ContentName) (h : Walkable identify load t) :
    ∀ {entries : List (ContentEntry Id)} {stack : List (CatalogRoot Id)}
      {result : Except (CatalogError Id) (List (ContentEntry Id))},
      Returns (fun fuel => iterate (listPrefixTurn load namePrefix (namePrefix.bytes.length * 8))
        fuel ⟨entries ++ prefixEntries namePrefix t, stack⟩) result →
      Returns (fun fuel => iterate (listPrefixTurn load namePrefix (namePrefix.bytes.length * 8))
        fuel ⟨entries, rootOf identify t :: stack⟩) result := by
  induction t with
  | empty => exact absurd rfl h.ne_empty
  | leaf name =>
    intro entries stack result hrest
    refine returns_again ?_ hrest
    simp only [listPrefixTurn, loadNode_leaf h.stored]
    by_cases hbegins : namePrefix.bytes <+: name.bytes
    · simp [hbegins, prefixEntries, contentEntries, Trie.entries]
    · simp [hbegins, prefixEntries, contentEntries, Trie.entries]
  | node bit child ih =>
    intro entries stack result hrest
    have ih' := fun side => @ih side (h.child side)
    by_cases hbit : bit < namePrefix.bytes.length * 8
    · -- One side only.
      rw [prefixEntries_side h.canonical hbit] at hrest
      refine returns_again ?_ (ih' (keyBit namePrefix bit) hrest)
      simp only [listPrefixTurn, loadNode_node h.stored h.fits, if_pos hbit, rootOf_child]
    · rw [prefixEntries_node, ← append_assoc] at hrest
      refine returns_again ?_ (ih' false (ih' true hrest))
      simp only [listPrefixTurn, loadNode_node h.stored h.fits, if_neg hbit]

/-- The stack with a subtree on top: a hit in it ends the walk, else the rest decides. -/
theorem prefixExistsTurn_returns (namePrefix : ContentName) (h : Walkable identify load t) :
    ∀ {stack : List (CatalogRoot Id)} {result : Except (CatalogError Id) Bool},
      (prefixEntries namePrefix t ≠ [] → result = .ok true) →
      (prefixEntries namePrefix t = [] → Returns (fun fuel => iterate
          (prefixExistsTurn load namePrefix (namePrefix.bytes.length * 8)) fuel stack) result) →
      Returns (fun fuel => iterate
        (prefixExistsTurn load namePrefix (namePrefix.bytes.length * 8)) fuel
          (rootOf identify t :: stack)) result := by
  induction t with
  | empty => exact absurd rfl h.ne_empty
  | leaf name value =>
    intro stack result hhit hmiss
    by_cases hbegins : namePrefix.bytes <+: name.bytes
    · have hentries : prefixEntries namePrefix (Trie.leaf name value) ≠ [] := by
        simp [hbegins, prefixEntries, contentEntries, Trie.entries]
      rw [hhit hentries]
      apply returns_stop
      simp only [prefixExistsTurn, loadNode_leaf h.stored, if_pos hbegins]
    · have hentries : prefixEntries namePrefix (Trie.leaf name value) = [] := by
        simp [hbegins, prefixEntries, contentEntries, Trie.entries]
      refine returns_again ?_ (hmiss hentries)
      simp only [prefixExistsTurn, loadNode_leaf h.stored, if_neg hbegins]
  | node bit child ih =>
    intro stack result hhit hmiss
    have ih' := fun side => @ih side (h.child side)
    by_cases hbit : bit < namePrefix.bytes.length * 8
    · rw [prefixEntries_side h.canonical hbit] at hhit hmiss
      refine returns_again ?_ (ih' (keyBit namePrefix bit) hhit hmiss)
      simp only [prefixExistsTurn, loadNode_node h.stored h.fits, if_pos hbit, rootOf_child]
    rw [prefixEntries_node] at hhit hmiss
    have hturn : prefixExistsTurn load namePrefix (namePrefix.bytes.length * 8)
        (rootOf identify (.node bit child) :: stack) =
        .again (rootOf identify (child false) :: rootOf identify (child true) :: stack) := by
      simp only [prefixExistsTurn, loadNode_node h.stored h.fits, if_neg hbit]
    refine returns_again hturn (ih' false ?_ fun hleft => ih' true ?_ ?_)
    · intro hleft
      exact hhit fun happend => hleft (append_eq_nil_iff.1 happend).1
    · intro hright
      exact hhit fun happend => hright (append_eq_nil_iff.1 happend).2
    · intro hright
      exact hmiss (append_eq_nil_iff.2 ⟨hleft, hright⟩)

end Stored

end Astrid.Catalog
