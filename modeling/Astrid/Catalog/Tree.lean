import Astrid.Catalog.Node
import Astrid.Lib.Loop

/-!
# The content catalog

The operations of `content/catalog/tree.rs`. Lookups and lists walk the trie from its root,
loading each node; insertion and deletion walk to the leaf that the bits of the name lead
to, and intern new nodes along the path back. `buildCatalog` makes the trie of a map from
scratch with a stack of ranges.

`load` comes from the caller and may answer anything, so the walks are loops that need not
end: they take a number of turns, and `none` means that it was not enough.
-/

namespace Astrid.Catalog

open Std List

/-! ## Bits of a name -/

/-- The bytes of a name, with zeros behind its end. -/
def terminatedByte (name : ContentName) (index : Nat) : UInt8 := name.bytes.getD index 0

def keyBit (name : ContentName) (bit : Nat) : Bool :=
  terminatedByte name (bit / 8) &&& ((0x80 : UInt8) >>> UInt8.ofNat (bit % 8)) ≠ 0

/-- The number of leading zero bits. -/
def leadingZeros (byte : UInt8) : Nat :=
  ((range 8).find? fun index => byte.toNat.testBit (7 - index)).getD 8

section Operations

variable {Id : Type}

def firstDifferingBit (left right : ContentName) : Except (CatalogError Id) Nat := do
  let limit := max left.bytes.length right.bytes.length + 1
  match (range limit).find? fun index =>
      terminatedByte left index ^^^ terminatedByte right index ≠ 0 with
  | some byteIndex => do
    let byteBits ← okOr (checkedMul byteIndex 8) .accountingOverflow
    okOr (checkedAdd byteBits
      (leadingZeros (terminatedByte left byteIndex ^^^ terminatedByte right byteIndex)))
      .accountingOverflow
  | none => .error .accountingOverflow

/-! ## Walks -/

abbrev Load (Id : Type) := Id → Except (CatalogError Id) (ObjectRecord Id)

variable (load : Load Id)

def loadNode (root : CatalogRoot Id) : Except (CatalogError Id) (Node Id) := do
  let record ← load root.object
  decodeNode root.object record

def lookupTurn (name : ContentName) (current : CatalogRoot Id) :
    Turn (CatalogRoot Id) (Except (CatalogError Id) (Option (CatalogValue Id))) :=
  match loadNode load current with
  | .error e => .stop (.error e)
  | .ok (.leaf existing value) => .stop (.ok (if existing = name then some value else none))
  | .ok (.branch bit left right) => .again (if keyBit name bit then right else left)

section

variable (root : Option (CatalogRoot Id))

def lookup (name : ContentName) (fuel : Nat) :
    Option (Except (CatalogError Id) (Option (CatalogValue Id))) :=
  match root with
  | none => some (.ok none)
  | some root => iterate (lookupTurn load name) fuel root

structure ContentEntry (Id : Type) where
  name : ContentName
  file : Id
  logicalBytes : UInt64
  deriving DecidableEq

/-- The entries so far, and the stack with its top first. -/
structure ListState (Id : Type) where
  entries : List (ContentEntry Id)
  stack : List (CatalogRoot Id)

def listTurn (state : ListState Id) :
    Turn (ListState Id) (Except (CatalogError Id) (List (ContentEntry Id))) :=
  match state.stack with
  | [] => .stop (.ok state.entries)
  | current :: stack =>
    match loadNode load current with
    | .error e => .stop (.error e)
    | .ok (.leaf name value) =>
      .again ⟨state.entries ++ [⟨name, value.file, value.logicalBytes⟩], stack⟩
    | .ok (.branch _ left right) => .again ⟨state.entries, left :: right :: stack⟩

def list (fuel : Nat) : Option (Except (CatalogError Id) (List (ContentEntry Id))) :=
  match root with
  | none => some (.ok [])
  | some root => iterate (listTurn load) fuel ⟨[], [root]⟩

variable (namePrefix : ContentName)

/-- Descend only where a branch does not yet disagree with the prefix. -/
def listPrefixTurn (prefixBits : Nat) (state : ListState Id) :
    Turn (ListState Id) (Except (CatalogError Id) (List (ContentEntry Id))) :=
  match state.stack with
  | [] => .stop (.ok state.entries)
  | current :: stack =>
    match loadNode load current with
    | .error e => .stop (.error e)
    | .ok (.leaf name value) =>
      .again ⟨state.entries ++ (if namePrefix.bytes <+: name.bytes then
        [⟨name, value.file, value.logicalBytes⟩] else []), stack⟩
    | .ok (.branch bit left right) =>
      if bit < prefixBits then
        .again ⟨state.entries, (if keyBit namePrefix bit then right else left) :: stack⟩
      else .again ⟨state.entries, left :: right :: stack⟩

def listPrefix (fuel : Nat) : Option (Except (CatalogError Id) (List (ContentEntry Id))) :=
  match root with
  | none => some (.ok [])
  | some root =>
    match checkedMul namePrefix.bytes.length 8 with
    | none => some (.error .accountingOverflow)
    | some prefixBits => iterate (listPrefixTurn load namePrefix prefixBits) fuel ⟨[], [root]⟩

/-- The same walk, which stops at the first hit. -/
def prefixExistsTurn (prefixBits : Nat) (stack : List (CatalogRoot Id)) :
    Turn (List (CatalogRoot Id)) (Except (CatalogError Id) Bool) :=
  match stack with
  | [] => .stop (.ok false)
  | current :: stack =>
    match loadNode load current with
    | .error e => .stop (.error e)
    | .ok (.leaf name _) =>
      if namePrefix.bytes <+: name.bytes then .stop (.ok true) else .again stack
    | .ok (.branch bit left right) =>
      if bit < prefixBits then
        .again ((if keyBit namePrefix bit then right else left) :: stack)
      else .again (left :: right :: stack)

def prefixExists (fuel : Nat) : Option (Except (CatalogError Id) Bool) :=
  match root with
  | none => some (.ok false)
  | some root =>
    match checkedMul namePrefix.bytes.length 8 with
    | none => some (.error .accountingOverflow)
    | some prefixBits => iterate (prefixExistsTurn load namePrefix prefixBits) fuel [root]

end

/-! ## Paths -/

/-- A branch on the way down, and the side that was taken. -/
structure PathBranch (Id : Type) where
  bit : Nat
  left : CatalogRoot Id
  right : CatalogRoot Id
  descendedRight : Bool

def PathBranch.selected (branch : PathBranch Id) : CatalogRoot Id :=
  if branch.descendedRight then branch.right else branch.left

def PathBranch.sibling (branch : PathBranch Id) : CatalogRoot Id :=
  if branch.descendedRight then branch.left else branch.right

/-- The path from the root, with the leaf it ends at. -/
structure Descent (Id : Type) where
  path : List (PathBranch Id)
  name : ContentName
  value : CatalogValue Id

def descendTurn (name : ContentName) (state : List (PathBranch Id) × CatalogRoot Id) :
    Turn (List (PathBranch Id) × CatalogRoot Id) (Except (CatalogError Id) (Descent Id)) :=
  match loadNode load state.2 with
  | .error e => .stop (.error e)
  | .ok (.leaf existing value) => .stop (.ok ⟨state.1, existing, value⟩)
  | .ok (.branch bit left right) =>
    .again (state.1 ++ [⟨bit, left, right, keyBit name bit⟩],
      if keyBit name bit then right else left)

def descend (root : CatalogRoot Id) (name : ContentName) (fuel : Nat) :
    Option (Except (CatalogError Id) (Descent Id)) :=
  iterate (descendTurn load name) fuel ([], root)

/-! ## Mutations -/

variable [Key Id] (identify : ObjectRecord Id → Id)

/-- Intern the branches of a path again, from its end to its beginning. -/
def rebuildPath : List (PathBranch Id) → CatalogRoot Id → Records Id →
    Except (CatalogError Id) (CatalogRoot Id × Records Id)
  | [], child, records => .ok (child, records)
  | branch :: rest, child, records => do
    let (child, records) ← rebuildPath rest child records
    if branch.descendedRight then internBranch identify branch.bit branch.left child records
    else internBranch identify branch.bit child branch.right records

structure CatalogMutation (Id : Type) [Key Id] where
  root : Option (CatalogRoot Id)
  previous : Option (CatalogValue Id)
  records : Records Id

/-- Insertion, once the leaf on the way of the name is known. -/
def insertAt (root : CatalogRoot Id) (name : ContentName) (value : CatalogValue Id)
    (leaf : CatalogRoot Id) (records : Records Id) (found : Descent Id) :
    Except (CatalogError Id) (CatalogMutation Id) := do
  if found.name = name then
    if found.value = value then .ok ⟨some root, some found.value, ∅⟩
    else do
      let (rebuilt, records) ← rebuildPath identify found.path leaf records
      pure ⟨some rebuilt, some found.value, records⟩
  else do
    let differingBit ← firstDifferingBit found.name name
    let split := found.path.findIdx fun branch => differingBit ≤ branch.bit
    let existing ← (if split = 0 then .ok root
      else okOr (found.path[split - 1]?.map PathBranch.selected) .accountingOverflow)
    let (inserted, records) ← (if keyBit name differingBit then
        internBranch identify differingBit existing leaf records
      else internBranch identify differingBit leaf existing records)
    let (rebuilt, records) ← rebuildPath identify (found.path.take split) inserted records
    pure ⟨some rebuilt, none, records⟩

def insert (root : Option (CatalogRoot Id)) (name : ContentName) (value : CatalogValue Id)
    (fuel : Nat) : Option (Except (CatalogError Id) (CatalogMutation Id)) :=
  match internLeaf identify name value ∅ with
  | .error e => some (.error e)
  | .ok (leaf, records) =>
    match root with
    | none => some (.ok ⟨some leaf, none, records⟩)
    | some root => (descend load root name fuel).map fun found =>
        found >>= insertAt identify root name value leaf records

/-- Deletion, once the leaf on the way of the name is known. -/
def deleteAt (root : CatalogRoot Id) (name : ContentName) (found : Descent Id) :
    Except (CatalogError Id) (CatalogMutation Id) :=
  if found.name = name then
    match found.path.getLast? with
    | none => .ok ⟨none, some found.value, ∅⟩
    | some last => do
      let (rebuilt, records) ← rebuildPath identify found.path.dropLast last.sibling ∅
      pure ⟨some rebuilt, some found.value, records⟩
  else .ok ⟨some root, none, ∅⟩

def delete (root : Option (CatalogRoot Id)) (name : ContentName) (fuel : Nat) :
    Option (Except (CatalogError Id) (CatalogMutation Id)) :=
  match root with
  | none => some (.ok ⟨none, none, ∅⟩)
  | some root => (descend load root name fuel).map fun found =>
      found >>= deleteAt identify root name

/-! ## Building -/

/-- A range of entries to build, or two finished subtrees to join. -/
inductive BuildTask (Id : Type)
  | range (entries : List (ContentName × CatalogValue Id))
  | join (bit : Nat)

/-- Both stacks have their top first. -/
structure BuildState (Id : Type) [Key Id] where
  tasks : List (BuildTask Id)
  results : List (CatalogRoot Id)
  records : Records Id

/-- Do a task: push what it leaves to do, or its result. -/
def runTask (task : BuildTask Id) (state : BuildState Id) :
    Except (CatalogError Id) (BuildState Id) :=
  match task with
  | .range [] => .error .accountingOverflow
  | .range [(name, value)] => do
    let (leaf, records) ← internLeaf identify name value state.records
    pure ⟨state.tasks, leaf :: state.results, records⟩
  | .range (first :: second :: rest) => do
    let last := (second :: rest).getLast (cons_ne_nil _ _)
    let bit ← firstDifferingBit first.1 last.1
    let left := first :: (second :: rest).takeWhile fun entry => !keyBit entry.1 bit
    let right := (second :: rest).dropWhile fun entry => !keyBit entry.1 bit
    require (right ≠ []) .accountingOverflow
    pure ⟨.range left :: .range right :: .join bit :: state.tasks, state.results, state.records⟩
  | .join bit =>
    match state.results with
    | right :: left :: results => do
      let (branch, records) ← internBranch identify bit left right state.records
      pure ⟨state.tasks, branch :: results, records⟩
    | _ => .error .accountingOverflow

def buildTurn (state : BuildState Id) : Turn (BuildState Id)
    (Except (CatalogError Id) (Option (CatalogRoot Id) × Records Id)) :=
  match state.tasks with
  | task :: tasks =>
    match runTask identify task { state with tasks } with
    | .error e => .stop (.error e)
    | .ok next => .again next
  | [] =>
    match state.results with
    | [root] => .stop (.ok (some root, state.records))
    | _ => .stop (.error .accountingOverflow)

/-- A range of `n` entries takes at most `3 * n - 2` turns. -/
def BuildTask.weight : BuildTask Id → Nat
  | .range entries => 3 * entries.length - 2
  | .join _ => 1

def tasksWeight (tasks : List (BuildTask Id)) : Nat := (tasks.map BuildTask.weight).sum

theorem runTask_weight {task : BuildTask Id} {state next : BuildState Id}
    (h : runTask identify task state = .ok next) :
    tasksWeight next.tasks < task.weight + tasksWeight state.tasks := by
  unfold runTask at h
  split at h
  next => cases h
  next =>
    simp only [bind_eq_ok] at h
    obtain ⟨⟨_, records⟩, _, hout⟩ := h
    cases hout
    show tasksWeight state.tasks < 1 + _
    omega
  next first second rest =>
    simp only [bind_eq_ok, require_eq_ok] at h
    obtain ⟨bit, _, _, hright, hout⟩ := h
    cases hout
    -- Both parts have an entry, and together all of them.
    have hparts := congrArg length
      (takeWhile_append_dropWhile (p := fun entry : ContentName × CatalogValue Id =>
        !keyBit entry.1 bit) (l := second :: rest))
    have hpos := length_pos_of_ne_nil hright
    rw [length_append] at hparts
    simp only [tasksWeight, map_cons, sum_cons, BuildTask.weight, length_cons]
    rw [length_cons] at hparts
    omega
  next bit =>
    split at h
    next right left results hresults =>
      simp only [bind_eq_ok] at h
      obtain ⟨⟨_, _⟩, _, hout⟩ := h
      cases hout
      show tasksWeight state.tasks < 1 + _
      omega
    next => cases h

def buildLoop : Loop (BuildState Id)
    (Except (CatalogError Id) (Option (CatalogRoot Id) × Records Id)) where
  turn := buildTurn identify
  size state := tasksWeight state.tasks
  shrinks := by
    intro state state' h
    unfold buildTurn at h
    split at h
    next task tasks htasks =>
      split at h
      next => cases h
      next next hrun =>
        cases h
        have hweight := runTask_weight identify hrun
        rw [htasks]
        exact hweight
    next =>
      split at h
      next => cases h
      next => cases h

/-- The trie of a whole map. -/
def buildCatalog (entries : FMap ContentName (CatalogValue Id)) :
    Except (CatalogError Id) (Option (CatalogRoot Id) × Records Id) :=
  if entries.isEmpty then .ok (none, ∅)
  else (buildLoop identify).run ⟨[.range entries.toList], [], ∅⟩

end Operations

end Astrid.Catalog
