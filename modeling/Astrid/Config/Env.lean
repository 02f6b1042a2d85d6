import Mathlib.Algebra.Order.BigOperators.Group.List
import Mathlib.Algebra.Order.Ring.Nat
import Mathlib.Logic.Function.Basic

/-!
# Environment variables in a configuration tree

Two things of the environment reach the tree that the layers were merged into
(`astrid-config/src/env.rs`).  A variable of the `ENV_MAPPINGS` table is a fallback for a field
that no layer set, and a string may refer to any variable of the map it is resolved with, as
`${NAME}`.  A reference that does not resolve stays in the string as it is, so a later pass with
more variables finds it again.

A text is the list of its characters.  A table is the list of its entries, and the environment
is its lookup function, which is all the code uses of it.
-/

namespace Astrid.Config

open List Function

abbrev Text := List Char

/-- `toml::Value`. -/
inductive Value
  | string (text : Text)
  | integer (value : Int)
  | float (bits : UInt64)
  | boolean (value : Bool)
  | datetime (text : Text)
  | array (items : List Value)
  | table (entries : List (Text × Value))

abbrev Env := Text → Option Text

inductive ConfigLayer
  | defaults
  | system
  | user
  | workspace
  | environment
deriving DecidableEq, Repr

/-- Which layer set the field at a dotted path. -/
abbrev FieldSources := Text → Option ConfigLayer

def FieldSources.insert (sources : FieldSources) (path : Text) (layer : ConfigLayer) :
    FieldSources :=
  Function.update sources path (some layer)

namespace Value

def get (key : Text) (entries : List (Text × Value)) : Option Value :=
  (entries.find? fun entry => entry.1 = key).map Prod.snd

def insert (key : Text) (value : Value) : List (Text × Value) → List (Text × Value)
  | [] => [(key, value)]
  | entry :: entries =>
    if entry.1 = key then (key, value) :: entries else entry :: insert key value entries

def isTable : Value → Bool
  | .table _ => true
  | _ => false

end Value

/-! ## References -/

/-- What stands for a closed reference. -/
def substitute (env : Env) (name : Text) : Text :=
  -- A closed reference without a name loses its brace.
  if name = [] then ['$', '{'] else
    match env name with
    | some value => value
    | none => '$' :: '{' :: name ++ ['}']

/-- The loop of `resolve_string_refs`; inside a reference it has the name read so far. -/
def resolveFrom (env : Env) : Option Text → Text → Text
  | none, '$' :: '{' :: rest => resolveFrom env (some []) rest
  | none, ch :: rest => ch :: resolveFrom env none rest
  | none, [] => []
  | some name, '}' :: rest => substitute env name ++ resolveFrom env none rest
  | some name, ch :: rest => resolveFrom env (some (name ++ [ch])) rest
  | some name, [] => '$' :: '{' :: name

def resolveStringRefs (env : Env) (input : Text) : Text :=
  resolveFrom env none input

mutual

def resolveEnvReferences (env : Env) : Value → Value
  | .string text => .string (resolveStringRefs env text)
  | .array items => .array (resolveItems env items)
  | .table entries => .table (resolveEntries env entries)
  | value => value

def resolveItems (env : Env) : List Value → List Value
  | [] => []
  | item :: items => resolveEnvReferences env item :: resolveItems env items

def resolveEntries (env : Env) : List (Text × Value) → List (Text × Value)
  | [] => []
  | (key, value) :: entries => (key, resolveEnvReferences env value) :: resolveEntries env entries

end

def astridNames : Text := "ASTRID_".toList

/-- The variables whose names start with `ASTRID_`. -/
def Env.restricted (env : Env) : Env :=
  fun name => if astridNames.isPrefixOf name then env name else none

def resolveEnvReferencesRestricted (env : Env) (value : Value) : Value :=
  resolveEnvReferences env.restricted value

/-- A string, cut into the texts and the references that it is resolved by. -/
inductive Piece
  | text (content : Text)
  | reference (name : Text)

def Piece.render (env : Env) : Piece → Text
  | .text content => content
  | .reference name => substitute env name

def pieces : Option Text → Text → List Piece
  | none, '$' :: '{' :: rest => pieces (some []) rest
  | none, ch :: rest => .text [ch] :: pieces none rest
  | none, [] => []
  | some name, '}' :: rest => .reference name :: pieces none rest
  | some name, ch :: rest => pieces (some (name ++ [ch])) rest
  | some name, [] => [.text ('$' :: '{' :: name)]

theorem resolveFrom_eq (env : Env) (name : Option Text) (input : Text) :
    resolveFrom env name input = (pieces name input).flatMap (Piece.render env) := by
  fun_induction resolveFrom env name input <;> simp_all [pieces, Piece.render]

/-- The names of the closed references of a string. -/
def stringRefs (input : Text) : List Text :=
  (pieces none input).filterMap fun
    | .text _ => none
    | .reference name => some name

variable {input name : Text}

theorem mem_stringRefs : name ∈ stringRefs input ↔ Piece.reference name ∈ pieces none input := by
  unfold stringRefs
  rw [mem_filterMap]
  constructor
  · rintro ⟨piece, hpiece, hname⟩
    cases piece with
    | text => cases hname
    | reference =>
      obtain rfl := Option.some.inj hname
      exact hpiece
  · intro h
    exact ⟨_, h, rfl⟩

variable {env env' : Env}

/-- A string depends on the variables it refers to. -/
theorem resolveStringRefs_congr
    (h : ∀ name ∈ stringRefs input, name ≠ [] → env name = env' name) :
    resolveStringRefs env input = resolveStringRefs env' input := by
  unfold resolveStringRefs
  rw [resolveFrom_eq, resolveFrom_eq]
  refine flatMap_congr fun piece hpiece => ?_
  cases piece with
  | text => rfl
  | reference name =>
    show substitute env name = substitute env' name
    unfold substitute
    split
    next => rfl
    next hne => rw [h name (mem_stringRefs.2 hpiece) hne]

/-! ## A second pass -/

/-- A text that neither is a reference nor makes one together with the text around it. -/
structure Inert (value : Text) : Prop where
  nonempty : value ≠ []
  plain : '$' ∉ value
  start : value.head? ≠ some '{'

variable {value rest : Text}

/-- Without a dollar there is no reference. -/
theorem pieces_append (hvalue : '$' ∉ value) :
    pieces none (value ++ rest) = value.map (fun ch => .text [ch]) ++ pieces none rest := by
  induction value with
  | nil => rfl
  | cons ch value ih =>
    obtain ⟨hch, hvalue⟩ := not_or.1 (mt mem_cons.2 hvalue)
    rw [cons_append, pieces, ih hvalue]
    · rfl
    · exact fun _ hdollar _ => hch hdollar.symm

theorem stringRefs_plain (hvalue : '$' ∉ value) : stringRefs value = [] := by
  have hpieces : pieces none (value ++ []) = _ := pieces_append hvalue
  rw [append_nil] at hpieces
  unfold stringRefs
  rw [hpieces, filterMap_append, filterMap_map]
  simp [pieces]

/-- A closed reference is read as far as its brace. -/
theorem pieces_closed {read : Text} (hname : '}' ∉ name) :
    pieces (some read) (name ++ '}' :: rest) = .reference (read ++ name) :: pieces none rest := by
  induction name generalizing read with
  | nil =>
    rw [append_nil]
    rfl
  | cons ch name ih =>
    obtain ⟨hch, hname⟩ := not_or.1 (mt mem_cons.2 hname)
    rw [cons_append, pieces, ih hname, append_assoc, singleton_append]
    exact fun hbrace => hch hbrace.symm

theorem pieces_unclosed {read : Text} (hname : '}' ∉ name) :
    pieces (some read) name = [.text ('$' :: '{' :: (read ++ name))] := by
  induction name generalizing read with
  | nil =>
    rw [append_nil]
    rfl
  | cons ch name ih =>
    obtain ⟨hch, hname⟩ := not_or.1 (mt mem_cons.2 hname)
    rw [pieces, ih hname, append_assoc, singleton_append]
    exact fun hbrace => hch hbrace.symm

/-- What a piece is cut into once it is resolved. -/
def Piece.again (env : Env) : Piece → List Piece
  | .text content => [.text content]
  | .reference name =>
    match env name with
    | some value => value.map fun ch => .text [ch]
    | none => [.reference name]

section

variable (hinert : ∀ name value, env name = some value → Inert value)

include hinert

theorem head_substitute (hname : name ≠ []) : (substitute env name ++ rest).head? ≠ some '{' := by
  unfold substitute
  rw [if_neg hname]
  cases hvalue : env name with
  | none => simp
  | some value =>
    obtain ⟨hnonempty, _, hstart⟩ := hinert name value hvalue
    rw [head?_append_of_ne_nil _ hnonempty]
    exact hstart

/-- The first pass makes no opening brace. -/
theorem head_resolveFrom (read : Option Text) (hnamed : .reference [] ∉ pieces read input)
    (hbrace : (resolveFrom env read input).head? = some '{') :
    read = none ∧ input.head? = some '{' := by
  fun_induction resolveFrom env read input with
  | case1 rest ih =>
    rw [pieces] at hnamed
    cases (ih hnamed hbrace).1
  | case2 => exact ⟨rfl, hbrace⟩
  | case3 => cases hbrace
  | case4 name rest =>
    rw [pieces] at hnamed
    have hname : name ≠ [] := fun heq => hnamed (heq ▸ mem_cons_self)
    exact absurd hbrace (head_substitute hinert hname)
  | case5 name ch rest hch ih =>
    rw [pieces.eq_5 name ch rest hch] at hnamed
    cases (ih hnamed hbrace).1
  | case6 => cases hbrace

/-- The second pass finds the references that the first one left, and no others. -/
theorem pieces_resolveFrom (read : Option Text) (hread : ∀ name, read = some name → '}' ∉ name)
    (hnamed : .reference [] ∉ pieces read input) :
    pieces none (resolveFrom env read input) = (pieces read input).flatMap (Piece.again env) := by
  fun_induction resolveFrom env read input with
  | case1 rest ih =>
    rw [pieces] at hnamed ⊢
    refine ih (fun name hname => ?_) hnamed
    rw [← Option.some.inj hname]
    exact not_mem_nil
  | case2 ch rest hch ih =>
    rw [pieces.eq_2 ch rest hch] at hnamed ⊢
    have hrest := (not_or.1 (mt mem_cons.2 hnamed)).2
    rw [pieces, ih nofun hrest]
    · rfl
    · -- A dollar is not followed by a brace now, for it was not before.
      intro rest' hdollar hbrace
      have hhead := (head_resolveFrom hinert none hrest (by rw [hbrace]; rfl)).2
      obtain ⟨rest'', heq⟩ := head?_eq_some_iff.1 hhead
      exact hch rest'' hdollar heq
  | case3 => rfl
  | case4 name rest ih =>
    rw [pieces] at hnamed ⊢
    obtain ⟨hname, hrest⟩ := not_or.1 (mt mem_cons.2 hnamed)
    have hne : name ≠ [] := fun heq => hname (by rw [heq])
    rw [flatMap_cons, ← ih nofun hrest, substitute, if_neg hne, Piece.again]
    cases hvalue : env name with
    | none =>
      show pieces none ('$' :: '{' :: (name ++ ['}'] ++ _)) = _
      rw [append_assoc, pieces]
      exact pieces_closed (hread name rfl)
    | some value => exact pieces_append (hinert name value hvalue).plain
  | case5 name ch rest hch ih =>
    rw [pieces.eq_5 name ch rest hch] at hnamed ⊢
    refine ih (fun name' hname' => ?_) hnamed
    rw [← Option.some.inj hname', mem_append, mem_singleton, not_or]
    exact ⟨hread name rfl, fun hbrace => hch hbrace.symm⟩
  | case6 name =>
    rw [pieces, pieces_unclosed (hread name rfl)]
    rfl

theorem stringRefs_resolve (hnamed : [] ∉ stringRefs input)
    (hname : name ∈ stringRefs (resolveStringRefs env input)) : name ∈ stringRefs input := by
  unfold resolveStringRefs at hname
  rw [mem_stringRefs] at hname hnamed ⊢
  rw [pieces_resolveFrom hinert none nofun hnamed, mem_flatMap] at hname
  obtain ⟨piece, hpiece, hagain⟩ := hname
  cases piece with
  | text => cases mem_singleton.1 hagain
  | reference other =>
    rw [Piece.again] at hagain
    split at hagain
    next =>
      obtain ⟨_, _, hch⟩ := mem_map.1 hagain
      cases hch
    next =>
      cases mem_singleton.1 hagain
      exact hpiece

end

/-! ## Trees -/

mutual

/-- The names of the references in the strings of a tree. -/
def Value.references : Value → List Text
  | .string text => stringRefs text
  | .array items => itemReferences items
  | .table entries => entryReferences entries
  | _ => []

def itemReferences : List Value → List Text
  | [] => []
  | item :: items => item.references ++ itemReferences items

def entryReferences : List (Text × Value) → List Text
  | [] => []
  | (_, value) :: entries => value.references ++ entryReferences entries

end

mutual

/-- A tree depends on the variables it refers to. -/
theorem resolveEnvReferences_congr :
    ∀ value : Value, (∀ name ∈ value.references, name ≠ [] → env name = env' name) →
      resolveEnvReferences env value = resolveEnvReferences env' value
  | .string _, h => congrArg Value.string (resolveStringRefs_congr h)
  | .array items, h => congrArg Value.array (resolveItems_congr items h)
  | .table entries, h => congrArg Value.table (resolveEntries_congr entries h)
  | .integer _, _ | .float _, _ | .boolean _, _ | .datetime _, _ => rfl

theorem resolveItems_congr :
    ∀ items : List Value, (∀ name ∈ itemReferences items, name ≠ [] → env name = env' name) →
      resolveItems env items = resolveItems env' items
  | [], _ => rfl
  | item :: items, h => congrArg₂ cons
    (resolveEnvReferences_congr item (forall_mem_append.1 h).1)
    (resolveItems_congr items (forall_mem_append.1 h).2)

theorem resolveEntries_congr :
    ∀ entries : List (Text × Value),
      (∀ name ∈ entryReferences entries, name ≠ [] → env name = env' name) →
      resolveEntries env entries = resolveEntries env' entries
  | [], _ => rfl
  | (key, value) :: entries, h => congrArg₂ cons
    (congrArg (Prod.mk key) (resolveEnvReferences_congr value (forall_mem_append.1 h).1))
    (resolveEntries_congr entries (forall_mem_append.1 h).2)

end

/-- Every reference of a tree is to a name that may be used. -/
def Value.RefersOnly (allowed : Text → Prop) (value : Value) : Prop :=
  ∀ name ∈ value.references, allowed name

section

variable {allowed : Text → Prop}

theorem refersOnly_array {items : List Value} :
    (Value.array items).RefersOnly allowed ↔ ∀ item ∈ items, item.RefersOnly allowed := by
  unfold Value.RefersOnly
  rw [Value.references]
  induction items with
  | nil => simp [itemReferences]
  | cons item items ih => rw [itemReferences, forall_mem_append, forall_mem_cons, ih]

theorem refersOnly_table {entries : List (Text × Value)} :
    (Value.table entries).RefersOnly allowed ↔ ∀ entry ∈ entries, entry.2.RefersOnly allowed := by
  unfold Value.RefersOnly
  rw [Value.references]
  induction entries with
  | nil => simp [entryReferences]
  | cons entry entries ih => rw [entryReferences, forall_mem_append, forall_mem_cons, ih]

mutual

/-- A first pass with inert values leaves no reference to a name that the tree had not. -/
theorem Value.RefersOnly.resolve (hinert : ∀ name value, env name = some value → Inert value)
    (hnamed : ¬ allowed []) : ∀ {value : Value}, value.RefersOnly allowed →
      (resolveEnvReferences env value).RefersOnly allowed
  | .string _, h => fun name hname =>
    h name (stringRefs_resolve hinert (fun hempty => hnamed (h [] hempty)) hname)
  | .array _, h => refersOnly_array.2 (refersOnly_items hinert hnamed (refersOnly_array.1 h))
  | .table _, h => refersOnly_table.2 (refersOnly_entries hinert hnamed (refersOnly_table.1 h))
  | .integer _, h | .float _, h | .boolean _, h | .datetime _, h => h

theorem refersOnly_items (hinert : ∀ name value, env name = some value → Inert value)
    (hnamed : ¬ allowed []) : ∀ {items : List Value}, (∀ item ∈ items, item.RefersOnly allowed) →
      ∀ item ∈ resolveItems env items, item.RefersOnly allowed
  | [], h => h
  | _ :: _, h => forall_mem_cons.2
    ⟨Value.RefersOnly.resolve hinert hnamed (forall_mem_cons.1 h).1,
      refersOnly_items hinert hnamed (forall_mem_cons.1 h).2⟩

theorem refersOnly_entries (hinert : ∀ name value, env name = some value → Inert value)
    (hnamed : ¬ allowed []) : ∀ {entries : List (Text × Value)},
      (∀ entry ∈ entries, entry.2.RefersOnly allowed) →
      ∀ entry ∈ resolveEntries env entries, entry.2.RefersOnly allowed
  | [], h => h
  | (_, _) :: _, h => forall_mem_cons.2
    ⟨Value.RefersOnly.resolve hinert hnamed (forall_mem_cons.1 h).1,
      refersOnly_entries hinert hnamed (forall_mem_cons.1 h).2⟩

end

end

end Astrid.Config
