import Astrid.Lib.Maps

/-!
# The overlay map

`astrid-storage`, `kv/tree/overlay.rs`. Resolved changes lie in an immutable balanced tree. An
insertion rebuilds one path and shares the rest, and a clone is the same tree. Heights are numbers:
the `u32` would saturate only above `2 ^ (2 ^ 31)` entries.
-/

namespace Astrid.Overlay

open List Std

/-- `leaf` is an absent child; a deletion marker is a value. -/
inductive Node (κ β : Type)
  | leaf
  | node (entry : κ × β) (left right : Node κ β) (height : Nat)

namespace Node

variable {κ β : Type} {tree l r : Node κ β} {entry : κ × β} {h : Nat}

def height : Node κ β → Nat
  | leaf => 0
  | node _ _ _ height => height

@[simp, grind =] theorem height_leaf : (leaf : Node κ β).height = 0 := rfl

@[simp, grind =] theorem height_node : (node entry l r h).height = h := rfl

@[grind] def left : Node κ β → Node κ β
  | leaf => leaf
  | node _ left _ _ => left

@[grind] def right : Node κ β → Node κ β
  | leaf => leaf
  | node _ _ right _ => right

@[grind] def makeNode (entry : κ × β) (left right : Node κ β) : Node κ β :=
  node entry left right (max left.height right.height + 1)

@[grind] def rotateLeft : Node κ β → Node κ β
  | node entry left (node up middle right _) _ => makeNode up (makeNode entry left middle) right
  | tree => tree

@[grind] def rotateRight : Node κ β → Node κ β
  | node entry (node up left middle _) right _ => makeNode up left (makeNode entry middle right)
  | tree => tree

/-- A child that is too high is not absent, so that its own children can be compared. -/
def rebalance : Node κ β → Node κ β
  | leaf => leaf
  | node entry l r h =>
    if l.height > r.height + 1 then
      if l.left.height < l.right.height then (makeNode entry l.rotateLeft r).rotateRight
      else (node entry l r h).rotateRight
    else if r.height > l.height + 1 then
      if r.right.height < r.left.height then (makeNode entry l r.rotateRight).rotateLeft
      else (node entry l r h).rotateLeft
    else node entry l r h

/-- `collect_all`. -/
def all : Node κ β → List (κ × β)
  | leaf => []
  | node entry l r _ => l.all ++ entry :: r.all

@[simp] theorem all_rotateLeft (tree : Node κ β) : tree.rotateLeft.all = tree.all := by
  unfold rotateLeft
  split <;> simp [makeNode, all]

@[simp] theorem all_rotateRight (tree : Node κ β) : tree.rotateRight.all = tree.all := by
  unfold rotateRight
  split <;> simp [makeNode, all]

theorem all_rebalance (tree : Node κ β) : tree.rebalance.all = tree.all := by
  cases tree with
  | leaf => rfl
  | node =>
    rw [rebalance]
    split_ifs <;> simp [makeNode, all]

/-- The stored heights are exact and those of two children differ by at most one. -/
@[grind] def Balanced : Node κ β → Prop
  | leaf => True
  | node _ l r h => l.Balanced ∧ r.Balanced ∧ h = max l.height r.height + 1 ∧
    l.height ≤ r.height + 1 ∧ r.height ≤ l.height + 1

theorem Balanced.rebalance (hl : l.Balanced) (hr : r.Balanced) (hle : l.height ≤ r.height + 2)
    (hge : r.height ≤ l.height + 2) (entry : κ × β) :
    let new := (makeNode entry l r).rebalance
    new.Balanced ∧ max l.height r.height ≤ new.height ∧ new.height ≤ max l.height r.height + 1 ∧
      (l.height ≤ r.height + 1 → r.height ≤ l.height + 1 →
        new.height = max l.height r.height + 1) := by
  rw [makeNode, Node.rebalance]
  split_ifs
  -- A double rotation opens the inner grandchild, a single one only the child.
  · rcases l with _ | ⟨_, _, _ | _, _⟩ <;> grind
  · cases l <;> grind
  · rcases r with _ | ⟨_, _ | _, _, _⟩ <;> grind
  · cases r <;> grind
  · simp_all [Balanced]

variable [Key κ]

def insert (entry : κ × β) : Node κ β → Node κ β
  | leaf => makeNode entry leaf leaf
  | node other l r _ => rebalance <|
    match compare entry.1 other.1 with
    | .lt => makeNode other (l.insert entry) r
    | .gt => makeNode other l (r.insert entry)
    | .eq => makeNode entry l r

def get (key : κ) : Node κ β → Option β
  | leaf => none
  | node entry l r _ =>
    match compare key entry.1 with
    | .lt => l.get key
    | .gt => r.get key
    | .eq => some entry.2

/-- `collect_range`. -/
def range (start stop : κ) : Node κ β → List (κ × β)
  | leaf => []
  | node entry l r _ =>
    (if compare entry.1 start ≠ .lt then l.range start stop else []) ++
      (if compare entry.1 start ≠ .lt ∧ compare entry.1 stop = .lt then [entry] else []) ++
        if compare entry.1 stop = .lt then r.range start stop else []

theorem Balanced.insert (hb : tree.Balanced) : (tree.insert entry).Balanced ∧
    tree.height ≤ (tree.insert entry).height ∧ (tree.insert entry).height ≤ tree.height + 1 := by
  induction tree with
  | leaf => simp [Node.insert, Balanced, makeNode]
  | node other l r h ihl ihr =>
    obtain ⟨hl, hr, rfl, hle, hge⟩ := hb
    rw [Node.insert, height_node]
    split
    · obtain ⟨hnew, hlow, hhigh⟩ := ihl hl
      have := hnew.rebalance hr (by omega) (by omega) other
      exact ⟨this.1, by omega⟩
    · obtain ⟨hnew, hlow, hhigh⟩ := ihr hr
      have := hl.rebalance hnew (by omega) (by omega) other
      exact ⟨this.1, by omega⟩
    · have := hl.rebalance hr (by omega) (by omega) entry
      exact ⟨this.1, by omega⟩

def Ordered (tree : Node κ β) : Prop := tree.all.Pairwise fun a b => compare a.1 b.1 = .lt

theorem ordered_node : (node entry l r h).Ordered ↔ l.Ordered ∧ r.Ordered ∧
    (∀ e ∈ l.all, compare e.1 entry.1 = .lt) ∧ ∀ e ∈ r.all, compare entry.1 e.1 = .lt := by
  have htrans : ∀ a b c : κ, compare a b = .lt → compare b c = .lt → compare a c = .lt :=
    fun _ _ _ => TransCmp.lt_trans
  simp only [Ordered, all, pairwise_append, pairwise_cons, mem_cons]
  grind

theorem get_eq_some (ho : tree.Ordered) {key : κ} {value : β} :
    tree.get key = some value ↔ (key, value) ∈ tree.all := by
  induction tree with
  | leaf => simp [get, all]
  | node other l r h ihl ihr =>
    obtain ⟨hl, hr, hlt, hgt⟩ := ordered_node.mp ho
    have hswap : compare key other.1 = .gt ↔ compare other.1 key = .lt := OrientedCmp.gt_iff_lt
    rw [get, all, mem_append, mem_cons]
    grind

theorem range_eq_filter (ho : tree.Ordered) (start stop : κ) : tree.range start stop =
    tree.all.filter fun e => compare e.1 start ≠ .lt ∧ compare e.1 stop = .lt := by
  induction tree with
  | leaf => rfl
  | node other l r h ihl ihr =>
    obtain ⟨hl, hr, hlt, hgt⟩ := ordered_node.mp ho
    -- What a skipped side has is below the start, or not below the end.
    have hlow : ∀ e ∈ l.all, compare other.1 start = .lt → compare e.1 start = .lt :=
      fun e he => TransCmp.lt_trans (hlt e he)
    have hhigh : ∀ e ∈ r.all, compare e.1 stop = .lt → compare other.1 stop = .lt :=
      fun e he => TransCmp.lt_trans (hgt e he)
    rw [range, all, ihl hl, ihr hr, filter_append, filter_cons]
    grind [filter_eq_nil_iff]

theorem mem_all_insert (ho : tree.Ordered) {e : κ × β} :
    e ∈ (tree.insert entry).all ↔ e = entry ∨ e.1 ≠ entry.1 ∧ e ∈ tree.all := by
  induction tree with
  | leaf => simp [Node.insert, makeNode, all]
  | node other l r h ihl ihr =>
    obtain ⟨hl, hr, hlt, hgt⟩ := ordered_node.mp ho
    have hswap : compare entry.1 other.1 = .gt ↔ compare other.1 entry.1 = .lt :=
      OrientedCmp.gt_iff_lt
    rw [Node.insert, all_rebalance]
    split <;> simp only [makeNode, all, mem_append, mem_cons, ihl hl, ihr hr] <;> grind

theorem Ordered.insert (ho : tree.Ordered) : (tree.insert entry).Ordered := by
  induction tree with
  | leaf => simp [Node.insert, makeNode, Ordered, all]
  | node other l r h ihl ihr =>
    obtain ⟨hl, hr, hlt, hgt⟩ := ordered_node.mp ho
    rw [Node.insert, Ordered, all_rebalance]
    split
    next hcmp =>
      refine ordered_node.mpr ⟨ihl hl, hr, ?_, hgt⟩
      grind [mem_all_insert]
    next hcmp =>
      have hswap := OrientedCmp.gt_iff_lt.mp hcmp
      refine ordered_node.mpr ⟨hl, ihr hr, hlt, ?_⟩
      grind [mem_all_insert]
    next hcmp =>
      rw [← LawfulEqOrd.eq_of_compare hcmp] at hlt hgt
      exact ordered_node.mpr ⟨hl, hr, hlt, hgt⟩

end Node

variable {κ β : Type} [Key κ] {tree : Node κ β} {map : FMap κ β}

/-- A tree, with the map that the insertions made to it give. -/
abbrev Version (κ β : Type) [Key κ] := Node κ β × FMap κ β

inductive Op (κ β : Type)
  | clone (version : Nat)
  | insert (version : Nat) (key : κ) (value : β)

/-- A clone is a further version. -/
def apply (versions : List (Version κ β)) : Op κ β → List (Version κ β)
  | .clone i => versions ++ versions[i]?.toList
  | .insert i key value =>
    versions.modify i fun version => (version.1.insert (key, value), version.2.insert key value)

def run (ops : List (Op κ β)) : List (Version κ β) := ops.foldl apply [(.leaf, ∅)]

structure Represents (tree : Node κ β) (map : FMap κ β) : Prop where
  balanced : tree.Balanced
  ordered : tree.Ordered
  get : ∀ key, tree.get key = map[key]?
  all : tree.all = map.toList
  range : ∀ start stop, tree.range start stop =
    map.toList.filter fun e => compare e.1 start ≠ .lt ∧ compare e.1 stop = .lt

/-- The lookups in a search tree decide the rest. -/
theorem represents (hbalanced : tree.Balanced) (hordered : tree.Ordered)
    (hget : ∀ key, tree.get key = map[key]?) : Represents tree map := by
  have hall : tree.all = map.toList :=
    eq_toList_of_sorted hordered fun key value => by rw [← hget, Node.get_eq_some hordered]
  exact ⟨hbalanced, hordered, hget, hall, hall ▸ Node.range_eq_filter hordered⟩

theorem Represents.insert (h : Represents tree map) (key : κ) (value : β) :
    Represents (tree.insert (key, value)) (map.insert key value) := by
  refine represents h.balanced.insert.1 h.ordered.insert fun k => Option.ext fun v => ?_
  rw [Node.get_eq_some h.ordered.insert, Node.mem_all_insert h.ordered,
    ← Node.get_eq_some h.ordered, h.get, getElem?_insert_of]
  grind

theorem apply_represents {versions : List (Version κ β)}
    (h : ∀ version ∈ versions, Represents version.1 version.2) (op : Op κ β) :
    ∀ version ∈ apply versions op, Represents version.1 version.2 := by
  intro version hversion
  cases op with
  | clone i =>
    rcases mem_append.mp hversion with hold | hnew
    · exact h version hold
    · exact h version (mem_of_getElem? (Option.mem_toList.mp hnew))
  | insert i key value =>
    obtain ⟨j, hj⟩ := List.mem_iff_getElem?.mp hversion
    rw [apply, getElem?_modify] at hj
    obtain ⟨old, hold, rfl⟩ := Option.map_eq_some_iff.mp hj
    have hrepresents := h old (mem_of_getElem? hold)
    by_cases hi : i = j
    · simpa [hi] using hrepresents.insert key value
    · simpa [hi] using hrepresents

/-- Every version is a balanced search tree that answers as its map, and an insertion leaves the
other versions as they are. -/
theorem overlay_persistent (ops : List (Op κ β)) :
    (∀ version ∈ run ops, Represents version.1 version.2) ∧
      ∀ i key value, (apply (run ops) (.insert i key value)).eraseIdx i = (run ops).eraseIdx i := by
  constructor
  · refine foldlRecOn (motive := fun all => ∀ version ∈ all, Represents version.1 version.2)
      ops apply ?_ fun _ h op _ => apply_represents h op
    intro version hversion
    rw [mem_singleton.mp hversion]
    exact represents trivial .nil fun key => by simp [Node.get]
  · intro i key value
    exact eraseIdx_modify_of_eq _ _ _

end Astrid.Overlay
