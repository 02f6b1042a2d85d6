import Mathlib

/-!
# Paths and symbolic links

A file tree says what stands at each place, a place being the names that lead to it from the
root. A path is the list of the texts between its slashes, so it may also hold `..`, `.` and
empty pieces. `walk` looks a path up as the kernel does: it follows the links it meets, at most
`limit` of them, and every piece asks for a directory before it.

Walking along an entry that is no link meets no link (`walk_place`). A lookup that follows every
link ends at such an entry, and looking up more pieces goes on from there (`walk_append`). A lookup
that may make its last piece ends there, too, or at a new name (`walk_create`).
-/

namespace Astrid.Paths

open List

/-- The names from the root. -/
abbrev Place := List String

/-- A piece that stays where it is: `.`, or the empty text of `a//b` and `a/`. -/
abbrev Here (piece : String) : Prop := piece = "" ∨ piece = "."

abbrev IsName (piece : String) : Prop := ¬ Here piece ∧ piece ≠ ".."

inductive Node
  | dir
  | file
  | link (absolute : Bool) (target : List String)
  deriving DecidableEq

structure FileTree where
  node : Place → Option Node
  limit : Nat
  root : node [] = some .dir
  parent : ∀ {place : Place} {name : String}, node (place ++ [name]) ≠ none →
    node place = some .dir ∧ IsName name

/-- What a lookup makes of the last piece: the entry itself, what it leads to, or the place
where a missing entry would be made. -/
inductive Lookup
  | entry
  | target
  | create
  deriving DecidableEq

namespace FileTree

variable (tree : FileTree)

/-- Look up some pieces from a place. At a link that is to be followed `follow` goes on. -/
@[grind =] def walkWith (lookup : Lookup) (follow : Place → List String → Option Place) :
    Place → List String → Option Place
  | place, [] => some place
  | place, piece :: rest =>
    if tree.node place ≠ some .dir then none
    else if Here piece then walkWith lookup follow place rest
    else if piece = ".." then walkWith lookup follow place.dropLast rest
    else
      match tree.node (place ++ [piece]) with
      | none => if lookup = .create ∧ rest = [] then some (place ++ [piece]) else none
      | some (.link absolute target) =>
        if lookup = .entry ∧ rest = [] then some (place ++ [piece])
        else follow (if absolute then [] else place) (target ++ rest)
      | some _ => walkWith lookup follow (place ++ [piece]) rest

/-- Look up some pieces from a place, following at most `links` links. -/
@[grind =] def walk (lookup : Lookup) (links : Nat) : Place → List String → Option Place :=
  tree.walkWith lookup fun place path =>
    match links with
    | 0 => none
    | links + 1 => walk lookup links place path

/-- `lstat`: the entry a path names. -/
def lstat (path : List String) : Option Place := tree.walk .entry tree.limit [] path

/-- `realpath`: the place a path leads to. -/
def canonicalize (path : List String) : Option Place := tree.walk .target tree.limit [] path

/-- The place that opening a path, or creating it, reaches. -/
def openOrCreate (path : List String) : Option Place := tree.walk .create tree.limit [] path

variable {tree} {lookup : Lookup}

/-- An entry that is not a link. -/
def Real (tree : FileTree) (place : Place) : Prop :=
  tree.node place = some .dir ∨ tree.node place = some .file

theorem Real.ne_none {place : Place} (h : tree.Real place) : tree.node place ≠ none := by
  rcases h with h | h <;> simp [h]

theorem Real.dropLast {place : Place} (h : tree.Real place) :
    tree.node place.dropLast = some .dir := by
  rcases place.eq_nil_or_concat' with rfl | ⟨_, _, rfl⟩
  · exact tree.root
  · rw [dropLast_concat]
    exact (tree.parent h.ne_none).1

theorem dir_of_append {place rest : Place} (h : tree.node (place ++ rest) = some .dir) :
    tree.node place = some .dir := by
  induction rest using reverseRecOn with
  | nil => rwa [append_nil] at h
  | append_singleton _ _ ih =>
    rw [← append_assoc] at h
    exact ih (tree.parent (Real.ne_none (.inl h))).1

section Steps

variable {links : Nat} {place : Place} {piece : String} {rest : List String}

@[simp] theorem walk_nil : tree.walk lookup links place [] = some place := by
  rw [walk, walkWith]

theorem walk_blocked (h : tree.node place ≠ some .dir) :
    tree.walk lookup links place (piece :: rest) = none := by
  rw [walk, walkWith, if_pos h]

theorem walk_here (h : tree.node place = some .dir) (hpiece : Here piece) :
    tree.walk lookup links place (piece :: rest) = tree.walk lookup links place rest := by
  rw [walk, walkWith, if_neg (not_not.2 h), if_pos hpiece]

theorem walk_up (h : tree.node place = some .dir) :
    tree.walk lookup links place (".." :: rest) = tree.walk lookup links place.dropLast rest := by
  rw [walk, walkWith, if_neg (not_not.2 h), if_neg (by decide), if_pos rfl]

theorem walk_name (h : tree.Real (place ++ [piece])) :
    tree.walk lookup links place (piece :: rest) =
      tree.walk lookup links (place ++ [piece]) rest := by
  obtain ⟨hdir, hname⟩ := tree.parent h.ne_none
  rw [walk, walkWith, if_neg (not_not.2 hdir), if_neg hname.1, if_neg hname.2]
  rcases h with h | h <;> rw [h]

theorem walk_missing (h : tree.node place = some .dir) (hpiece : IsName piece)
    (hnode : tree.node (place ++ [piece]) = none) :
    tree.walk lookup links place (piece :: rest) =
      if lookup = .create ∧ rest = [] then some (place ++ [piece]) else none := by
  rw [walk, walkWith, if_neg (not_not.2 h), if_neg hpiece.1, if_neg hpiece.2, hnode]

theorem walk_link {absolute : Bool} {target : List String}
    (hnode : tree.node (place ++ [piece]) = some (.link absolute target)) :
    tree.walk lookup links place (piece :: rest) =
      if lookup = .entry ∧ rest = [] then some (place ++ [piece])
      else
        match links with
        | 0 => none
        | links + 1 =>
          tree.walk lookup links (if absolute then [] else place) (target ++ rest) := by
  obtain ⟨hdir, hname⟩ := tree.parent (by rw [hnode]; exact Option.some_ne_none _)
  rw [walk, walkWith, if_neg (not_not.2 hdir), if_neg hname.1, if_neg hname.2, hnode]

end Steps

variable {place : Place}

theorem isName_of_node (h : tree.node place ≠ none) : ∀ name ∈ place, IsName name := by
  induction place using reverseRecOn with
  | nil => simp
  | append_singleton _ _ ih =>
    exact forall_mem_append.2 ⟨ih (by simp [(tree.parent h).1]),
      forall_mem_singleton.2 (tree.parent h).2⟩

/-- Walking along an entry that is no link meets no link. -/
theorem walk_place (h : tree.Real place) (links : Nat) (rest : List String) :
    tree.walk lookup links [] (place ++ rest) = tree.walk lookup links place rest := by
  induction place using reverseRecOn generalizing rest with
  | nil => rfl
  | append_singleton _ _ ih =>
    rw [append_assoc, ih (.inl (tree.parent h.ne_none).1), singleton_append, walk_name h]

/-- Following every link, `path` leads to an entry that is no link, and a lookup of more pieces
goes on from there. -/
theorem walk_append (hplace : tree.Real place) (links : Nat) (path : List String) :
    (∀ c, tree.walk .target links place path = some c → tree.Real c) ∧
      ∃ links' ≤ links, ∀ lookup rest, rest ≠ [] → tree.walk lookup links place (path ++ rest) =
        (tree.walk .target links place path).bind fun c => tree.walk lookup links' c rest := by
  induction links using Nat.strong_induction_on generalizing place path with
  | _ links ihlinks =>
    induction path generalizing place with
    | nil =>
      simp only [walk_nil, nil_append, Option.bind_some, Option.some.injEq]
      exact ⟨fun _ hc => hc ▸ hplace, links, le_rfl, fun _ _ _ => rfl⟩
    | cons piece tail ih =>
      simp only [cons_append]
      by_cases hdir : tree.node place = some .dir
      case neg =>
        simp only [walk_blocked hdir]
        exact ⟨by simp, links, le_rfl, fun _ _ _ => rfl⟩
      by_cases hhere : Here piece
      · simp only [walk_here hdir hhere]
        exact ih hplace
      by_cases hup : piece = ".."
      · subst hup
        simp only [walk_up hdir]
        exact ih (.inl (Real.dropLast (.inl hdir)))
      cases hnode : tree.node (place ++ [piece]) with
      | none =>
        simp only [walk_missing hdir ⟨hhere, hup⟩ hnode]
        exact ⟨by simp, links, le_rfl, fun _ rest hrest => by simp [hrest]⟩
      | some node =>
        cases node with
        | dir =>
          simp only [walk_name (.inl hnode)]
          exact ih (.inl hnode)
        | file =>
          simp only [walk_name (.inr hnode)]
          exact ih (.inr hnode)
        | link absolute =>
          simp only [walk_link hnode]
          cases links with
          | zero => exact ⟨by simp, 0, le_rfl, fun _ rest hrest => by simp [hrest]⟩
          | succ links =>
            have hstart : tree.Real (if absolute then [] else place) := by
              cases absolute with
              | true => exact .inl tree.root
              | false => exact hplace
            obtain ⟨hreal, links', hle, hwalk⟩ :=
              ihlinks links (Nat.lt_add_one links) hstart (_ ++ tail)
            refine ⟨by simpa using hreal, links', Nat.le_succ_of_le hle,
              fun lookup rest hrest => ?_⟩
            rw [if_neg (show ¬ (lookup = .entry ∧ tail ++ rest = []) by simp [hrest]),
              if_neg (show ¬ (Lookup.target = .entry ∧ tail = []) by simp), ← append_assoc]
            exact hwalk lookup rest hrest

/-- What is opened is what the path leads to, and what is made is a new name in a directory. -/
theorem walk_create {links : Nat} {path : List String} {made : Place} (hplace : tree.Real place)
    (h : tree.walk .create links place path = some made) :
    tree.walk .target links place path = some made ∨ tree.node made = none ∧
      ∃ c name, made = c ++ [name] ∧ tree.node c = some .dir ∧ IsName name := by
  induction links using Nat.strong_induction_on generalizing place path with
  | _ links ih =>
    rcases path.eq_nil_or_concat' with rfl | ⟨front, piece, rfl⟩
    · rw [walk_nil] at h ⊢
      exact .inl h
    obtain ⟨hreal, links', hle, hwalk⟩  := walk_append hplace links front
    rw [hwalk _ _ (cons_ne_nil _ _)] at h ⊢
    obtain ⟨c, hc, h⟩ := Option.bind_eq_some_iff.1 h
    rw [hc, Option.bind_some]
    by_cases hdir : tree.node c = some .dir
    case neg => rw [walk_blocked hdir] at h; cases h
    by_cases hhere : Here piece
    · rw [walk_here hdir hhere, walk_nil] at h ⊢
      exact .inl h
    by_cases hup : piece = ".."
    · subst hup
      rw [walk_up hdir, walk_nil] at h ⊢
      exact .inl h
    cases hnode : tree.node (c ++ [piece]) with
    | none =>
      rw [walk_missing hdir ⟨hhere, hup⟩ hnode, if_pos ⟨rfl, rfl⟩] at h
      obtain rfl := Option.some.inj h
      exact .inr ⟨hnode, c, piece, rfl, hdir, hhere, hup⟩
    | some node =>
      cases node with
      | dir =>
        rw [walk_name (.inl hnode), walk_nil] at h ⊢
        exact .inl h
      | file =>
        rw [walk_name (.inr hnode), walk_nil] at h ⊢
        exact .inl h
      | link absolute =>
        rw [walk_link hnode, if_neg (by simp)] at h ⊢
        cases links' with
        | zero => cases h
        | succ links' =>
          refine ih links' (by omega) ?_ h
          cases absolute with
          | true => exact .inl tree.root
          | false => exact hreal c hc

end FileTree

end Astrid.Paths
