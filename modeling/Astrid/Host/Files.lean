import Astrid.Lib.Paths

/-!
# The place a file request reaches

The host turns a requested text into a path on disk (`resolvePath`, which leaves the work to
`resolvePhysicalAbsolute`), asks the manifest gate about that path (`checkFsPermission`) and then
opens it. The resolver looks for the deepest part of the joined path that exists, canonicalises it
and puts the missing names back. If that part canonicalises, opening the result reaches the result
itself, so the gate has judged the file that is accessed.

Existence is asked of the entry and canonicalisation of what it leads to, and where the second
fails the path is kept as it is written. A link whose target is missing is such a part: the gate
sees the link, and creating the file follows it (`resolved_escapes`). With names behind the link
nothing can be opened, so this is the only way out (`resolved_reached_iff`).
-/

namespace Astrid.Host

open Paths FileTree List

/-- A text, as the list of what stands between its slashes. The paths of the host are absolute and
are given without their first slash. -/
abbrev Text := List String

inductive Component
  | rootDir
  | curDir
  | parentDir
  | normal (name : String)
  deriving DecidableEq

def component (piece : String) : Option Component :=
  if Here piece then none else if piece = ".." then some .parentDir else some (.normal piece)

/-- `Path::components`: a leading `.` counts, any other is skipped. -/
def components : Text → List Component
  | "" :: piece :: rest => .rootDir :: (piece :: rest).filterMap component
  | "." :: rest => .curDir :: rest.filterMap component
  | text => text.filterMap component

/-- `Path::starts_with`. -/
def startsWith (path base : Text) : Bool := (components base).isPrefixOf (components path)

/-- The text of the absolute path with these pieces. -/
def absolute (pieces : List String) : Text := "" :: if pieces = [] then [""] else pieces

variable {pieces : List String}

theorem components_absolute :
    components (absolute pieces) = .rootDir :: pieces.filterMap component := by
  cases pieces with
  | nil => rfl
  | cons => rfl

/-- The components tell the pieces, but for those that stay where they are. -/
theorem prefix_of_components {base path : List String} (hbase : ∀ piece ∈ base, ¬ Here piece)
    (hpath : ∀ piece ∈ path, ¬ Here piece)
    (h : base.filterMap component <+: path.filterMap component) : base <+: path := by
  induction base generalizing path with
  | nil => exact nil_prefix
  | cons piece _ ih =>
    have hsome : ∀ {piece}, ¬ Here piece → ∃ c, component piece = some c ∧
        ∀ other, component other = some c → other = piece := by
      intro piece hpiece
      unfold component
      rw [if_neg hpiece]
      by_cases hup : piece = ".."
      · refine ⟨.parentDir, if_pos hup, fun other => ?_⟩
        split_ifs with _ hother
        · simp
        · exact fun _ => hother.trans hup.symm
        · simp
      · refine ⟨.normal piece, if_neg hup, fun other => ?_⟩
        split_ifs <;> simp
    obtain ⟨hpiece, hbase⟩ := forall_mem_cons.1 hbase
    obtain ⟨c, hc, hunique⟩ := hsome hpiece
    rw [filterMap_cons_some hc] at h
    cases path with
    | nil => simp at h
    | cons first _ =>
      obtain ⟨hfirst, hpath⟩ := forall_mem_cons.1 hpath
      obtain ⟨c', hc', _⟩ := hsome hfirst
      rw [filterMap_cons_some hc', cons_prefix_cons] at h
      rw [hunique first (h.1 ▸ hc')]
      exact cons_prefix_cons.2 ⟨rfl, ih hbase hpath h.2⟩

/-! ## The resolver -/

/-- The components of a requested path behind its root directory. Empty pieces and `.` are left
out: no step below sees those between components, and `Components::as_path` trims the rest. (The
slash that joining an empty path leaves behind changes no answer.) -/
def makeRelative (requested : Text) : List String := requested.filter (¬ Here ·)

structure ResolvedPhysical where
  physical : List String
  canonicalRoot : List String

variable (tree : FileTree)

/-- Go up from a path, given from its last component on, to the first part that exists. The file
names passed on the way are the missing components; a `..` has no file name. -/
def search : List String → List String → Option (List String × List String)
  | [], unexisting => if (tree.lstat []).isSome then some ([], unexisting) else none
  | piece :: parent, unexisting =>
    if (tree.lstat (parent.reverse ++ [piece])).isSome then
      some (parent.reverse ++ [piece], unexisting)
    else search parent (if piece = ".." then unexisting else piece :: unexisting)

section

variable (root : List String)

/-- The root as far as it canonicalises. -/
def canonicalRoot : List String := (tree.canonicalize root).getD root

def joined (requested : Text) : List String :=
  canonicalRoot tree root ++ makeRelative requested

def finalPath (requested : Text) : List String :=
  match search tree (joined tree root requested).reverse [] with
  | some (currentCheck, unexisting) =>
    (tree.canonicalize currentCheck).getD currentCheck ++ unexisting
  | none => joined tree root requested

def resolvePhysicalAbsolute (requested : Text) : Except String ResolvedPhysical :=
  let physical := finalPath tree root requested
  if startsWith (absolute physical) (absolute (canonicalRoot tree root)) then
    .ok ⟨physical, canonicalRoot tree root⟩
  else
    .error ("path escapes root boundary: " ++ "/".intercalate requested ++ " resolves to " ++
      "/".intercalate (absolute physical))

end

/-! ## The schemes

A raw path names the workspace (`cwd://`, or no scheme), the home (`home://`) or `/tmp` of the
principal. A mount of the storage is a namespace of its own: its paths are checked as text and no
path on disk belongs to them. -/

/-- The text behind a scheme such as `home://`. -/
def stripScheme (scheme : String) : Text → Option Text
  | first :: "" :: piece :: rest => if first = scheme then some (piece :: rest) else none
  | _ => none

/-- A path of a logical namespace with an empty piece, `.` or `..`. -/
def malformed (path : Text) : Bool := path ≠ [""] ∧ ∃ piece ∈ path, ¬ IsName piece

inductive PrincipalMountLocation
  | astridFilesystem
  | native (root : List String)
  deriving DecidableEq

inductive VfsTarget
  | workspace
  | home
  | tmp

/-- The mounts: those of the invocation go before those of the load. -/
structure HostState where
  workspaceRoot : List String
  workspace : Option PrincipalMountLocation
  home : Option PrincipalMountLocation
  tmp : Option PrincipalMountLocation
  invocationWorkspace : Option PrincipalMountLocation
  invocationHome : Option PrincipalMountLocation
  invocationTmp : Option PrincipalMountLocation

structure ResolvedPath where
  gatePath : Text
  physical : Option (List String)
  relative : List Component
  target : VfsTarget

/-- `FilesystemPath::new`. A slash at an end leaves an empty piece. -/
def filesystemPath (path : Text) : Except String Text :=
  if malformed path ∨ ∃ piece ∈ path, Char.ofNat 0 ∈ piece.toList then
    .error ("invalid Astrid filesystem path: " ++ ("/".intercalate path).quote)
  else .ok path

/-- A path of a logical namespace, for the gate with the scheme. -/
def resolveLogical (scheme : String) (target : VfsTarget) (path : Text) :
    Except String ResolvedPath := do
  let path ← filesystemPath path
  pure ⟨scheme :: "" :: path, none, components path, target⟩

/-- The text that is left of some pieces. -/
def joinPieces (pieces : List String) : Text := if pieces = [] then [""] else pieces

def resolveLogicalWorkspace (rawPath : Text) : Except String ResolvedPath :=
  resolveLogical "workspace:" .workspace
    (joinPieces ((joinPieces (rawPath.dropWhile (· = ""))).filter (· ≠ ".")))

/-- A path below a root on disk. `escaped` is what is said if it is not below. -/
def resolveNative (root : List String) (stripped : Text) (target : VfsTarget) (escaped : String) :
    Except String ResolvedPath := do
  let resolved ← resolvePhysicalAbsolute tree root stripped
  let path := absolute resolved.physical
  let base := absolute resolved.canonicalRoot
  if startsWith path base then
    pure ⟨path, some resolved.physical, (components path).drop (components base).length, target⟩
  else .error escaped

/-- The text behind `/tmp`. -/
def stripTmp : Text → Option Text
  | ["", "tmp"] => some [""]
  | "" :: "tmp" :: stripped => some stripped
  | _ => none

def resolveWorkspace (state : HostState) (stripped : Text) (escaped : String) :
    Except String ResolvedPath :=
  if (state.invocationWorkspace <|> state.workspace) = some .astridFilesystem then
    resolveLogicalWorkspace stripped
  else resolveNative tree state.workspaceRoot stripped .workspace escaped

def resolvePath (state : HostState) (rawPath : Text) : Except String ResolvedPath :=
  match stripScheme "cwd:" rawPath, stripScheme "home:" rawPath, stripTmp rawPath with
  | some stripped, _, _ =>
    resolveWorkspace tree state stripped "resolved cwd path escaped canonical root"
  | none, some stripped, _ =>
    match state.invocationHome <|> state.home with
    | none => .error "home:// scheme is not available for this principal"
    | some .astridFilesystem => resolveLogical "home:" .home stripped
    | some (.native root) =>
      resolveNative tree root stripped .home "resolved home path escaped canonical root"
  | none, none, some stripped =>
    match state.invocationTmp <|> state.tmp with
    | none => .error "/tmp is not available for this principal"
    | some .astridFilesystem => .error "/tmp mount is not a native scratch directory"
    | some (.native root) =>
      resolveNative tree root stripped .tmp "resolved /tmp path escaped canonical root"
  | none, none, none => resolveWorkspace tree state rawPath "resolved path escaped canonical root"

/-- What the gate and the mount get: a text of a logical namespace that is well formed, or a path
on disk from the resolver, cut at its root. -/
def WellResolved (resolved : ResolvedPath) : Prop :=
  match resolved.physical with
  | none => ∃ scheme path, resolved.gatePath = scheme :: "" :: path ∧ malformed path = false ∧
      resolved.relative = components path
  | some physical => ∃ root stripped canonicalRoot,
      resolvePhysicalAbsolute tree root stripped = .ok ⟨physical, canonicalRoot⟩ ∧
      resolved.gatePath = absolute physical ∧
      components (absolute physical) = components (absolute canonicalRoot) ++ resolved.relative

variable {tree} {path : List String} {c : Place}

theorem real_of_canonicalize (h : tree.canonicalize path = some c) : tree.Real c :=
  (walk_append (.inl tree.root) tree.limit path).1 c h

/-- A part that leads nowhere has nothing behind it. -/
theorem walk_behind_none {lookup : Lookup} {rest : List String} (h : tree.canonicalize path = none)
    (hrest : rest ≠ []) : tree.walk lookup tree.limit [] (path ++ rest) = none := by
  obtain ⟨_, _, _, hwalk⟩ := walk_append (.inl tree.root) tree.limit path
  rw [hwalk lookup rest hrest]
  exact congrArg (Option.bind · _) h

/-- Missing names behind a part that exists: if the part leads to a directory, the first of them
is not in it. -/
def Missing (tree : FileTree) (path unexisting : List String) : Prop :=
  (∀ name ∈ unexisting, IsName name) ∧ ∀ c, tree.canonicalize path = some c →
    tree.node c = some .dir → ∀ name ∈ unexisting.head?, tree.node (c ++ [name]) = none

/-- Whatever stands in the directory that a path leads to can be looked up behind the path. -/
theorem lstat_isSome {piece : String} (h : tree.canonicalize path = some c)
    (hdir : tree.node c = some .dir) (hpiece : IsName piece → tree.node (c ++ [piece]) ≠ none) :
    (tree.lstat (path ++ [piece])).isSome := by
  obtain ⟨_, _, _, hwalk⟩ := walk_append (.inl tree.root) tree.limit path
  have htarget : tree.walk .target tree.limit [] path = some c := h
  rw [lstat, hwalk _ _ (cons_ne_nil _ _), htarget, Option.bind_some]
  by_cases hhere : Here piece
  · simp [walk_here hdir hhere]
  by_cases hup : piece = ".."
  · subst hup
    simp [walk_up hdir]
  cases hnode : tree.node (c ++ [piece]) with
  | none => exact absurd hnode (hpiece ⟨hhere, hup⟩)
  | some node =>
    cases node with
    | dir => simp [walk_name (.inl hnode)]
    | file => simp [walk_name (.inr hnode)]
    | link => simp [walk_link hnode]

variable {unexisting : List String}

theorem search_exists (h : (tree.lstat path.reverse).isSome) :
    search tree path unexisting = some (path.reverse, unexisting) := by
  cases path with
  | nil =>
    rw [reverse_nil] at h ⊢
    rw [search, if_pos h]
  | cons =>
    rw [reverse_cons] at h ⊢
    rw [search, if_pos h]

/-- The search finds a part that exists. The names behind it are missing; a `..` behind it is
gone. -/
theorem search_spec (hpath : ∀ piece ∈ path, ¬ Here piece)
    (hmissing : Missing tree path.reverse unexisting) :
    ∃ part rest, path.reverse = part ++ rest ∧
      search tree path unexisting = some (part, rest.filter (· ≠ "..") ++ unexisting) ∧
      (tree.lstat part).isSome ∧ Missing tree part (rest.filter (· ≠ "..") ++ unexisting) := by
  induction path generalizing unexisting with
  | nil =>
    have hroot : (tree.lstat []).isSome := by simp [lstat]
    exact ⟨[], [], rfl, search_exists hroot, hroot, hmissing⟩
  | cons piece parent ih =>
    by_cases hexists : (tree.lstat (piece :: parent).reverse).isSome
    · exact ⟨_, [], (append_nil _).symm, search_exists hexists, hexists, hmissing⟩
    rw [reverse_cons] at hmissing hexists ⊢
    rw [forall_mem_cons] at hpath
    have habove : Missing tree parent.reverse
        (if piece = ".." then unexisting else piece :: unexisting) := by
      -- A parent that leads to a directory lacks `piece`, and then it is no `..`.
      have hnode (c : Place) (hc : tree.canonicalize parent.reverse = some c)
          (hdir : tree.node c = some .dir) : IsName piece ∧ tree.node (c ++ [piece]) = none := by
        by_contra hnot
        exact hexists (lstat_isSome hc hdir fun hname hnone => hnot ⟨hname, hnone⟩)
      split
      next hup => exact ⟨hmissing.1, fun c hc hdir => absurd hup (hnode c hc hdir).1.2⟩
      next hup =>
        refine ⟨forall_mem_cons.2 ⟨⟨hpath.1, hup⟩, hmissing.1⟩, fun c hc hdir name hname => ?_⟩
        obtain rfl := Option.some.inj hname
        exact (hnode c hc hdir).2
    have hbehind : ∀ rest : List String, (rest ++ [piece]).filter (· ≠ "..") ++ unexisting =
        rest.filter (· ≠ "..") ++ if piece = ".." then unexisting else piece :: unexisting := by
      intro rest
      by_cases hup : piece = ".." <;> simp [hup]
    obtain ⟨part, rest, hparts, hsearch, hrest⟩ := ih hpath.2 habove
    refine ⟨part, rest ++ [piece], by rw [hparts, append_assoc], ?_⟩
    rw [search, if_neg hexists, hbehind]
    exact ⟨hsearch, hrest⟩

/-- A part that leads somewhere, with missing names behind it, is reached as it stands as soon
as its parent is a directory. -/
theorem openOrCreate_eq {part : List String} (hc : tree.canonicalize part = some c)
    (hmissing : Missing tree part unexisting) :
    tree.openOrCreate (c ++ unexisting) =
      if tree.node (c ++ unexisting).dropLast = some .dir then some (c ++ unexisting)
      else none := by
  have hreal := real_of_canonicalize hc
  rw [openOrCreate, walk_place hreal]
  cases unexisting with
  | nil => rw [walk_nil, append_nil, if_pos (Real.dropLast hreal)]
  | cons name rest =>
    rw [dropLast_append_of_ne_nil (cons_ne_nil _ _)]
    by_cases hdir : tree.node c = some .dir
    · have hnone := hmissing.2 c hc hdir name rfl
      rw [walk_missing hdir (hmissing.1 name mem_cons_self) hnone]
      cases rest with
      | nil => simp [hdir]
      | cons next rest =>
        have hnot : tree.node (c ++ (name :: next :: rest).dropLast) ≠ some .dir := by
          intro h
          rw [dropLast_cons_cons, append_cons] at h
          simp [dir_of_append h] at hnone
        rw [if_neg hnot, if_neg (by simp)]
    · rw [walk_blocked hdir, if_neg fun h => hdir (dir_of_append h)]

/-- Every raw path that is resolved is resolved well. -/
theorem resolvePath_wellResolved {state : HostState} {rawPath : Text} {resolved : ResolvedPath}
    (h : resolvePath tree state rawPath = .ok resolved) : WellResolved tree resolved := by
  have hlogical : ∀ {scheme target path}, resolveLogical scheme target path = .ok resolved →
      WellResolved tree resolved := by
    intro scheme target path h
    unfold resolveLogical filesystemPath at h
    split at h
    next => cases h
    next hgood =>
      cases h
      exact ⟨scheme, path, rfl, by simpa using (not_or.1 hgood).1, rfl⟩
  have hnative : ∀ {root stripped target escaped},
      resolveNative tree root stripped target escaped = .ok resolved →
        WellResolved tree resolved := by
    intro root stripped target escaped h
    unfold resolveNative at h
    cases hphysical : resolvePhysicalAbsolute tree root stripped with
    | error =>
      rw [hphysical] at h
      cases h
    | ok physical =>
      rw [hphysical] at h
      dsimp only [bind, Except.bind] at h
      split at h
      next hbelow =>
        cases h
        refine ⟨root, stripped, physical.canonicalRoot, hphysical, rfl, ?_⟩
        have hprefix := isPrefixOf_iff_prefix.1 hbelow
        exact (prefix_iff_eq_append.1 hprefix).symm
      next => cases h
  have hworkspace : ∀ {stripped escaped},
      resolveWorkspace tree state stripped escaped = .ok resolved → WellResolved tree resolved := by
    intro stripped escaped h
    unfold resolveWorkspace at h
    split at h
    next => exact hlogical h
    next => exact hnative h
  unfold resolvePath at h
  split at h
  next => exact hworkspace h
  next =>
    split at h
    next => cases h
    next => exact hlogical h
    next => exact hnative h
  next =>
    split at h
    next => cases h
    next => cases h
    next => exact hnative h
  next => exact hworkspace h

/-! ## The gate -/

/-- `Path::join` to an absolute path. An absolute suffix replaces it. -/
def joinText (path : List String) (suffix : Text) : Text :=
  match suffix with
  | "" :: _ :: _ => suffix
  | _ => absolute path ++ suffix

structure ManifestSecurityGate where
  defaultHomeRoot : Option (List String)
  workspaceRootPath : List String
  logicalWorkspace : Bool

/-- A static pattern, or the suffix of a `home://` entry. -/
def scheme (canonicalWs : List String) (entry : Text) : Text ⊕ Text :=
  if entry = ["*"] then .inl entry
  else
    match stripScheme "cwd:" entry, stripScheme "home:" entry with
    | some suffix, _ => .inl (joinText canonicalWs suffix)
    | none, some suffix => .inr suffix
    | none, none => .inl entry

def partitionSchemes (entries : List Text) (canonicalWs : List String) : List Text × List Text :=
  (entries.filterMap fun entry => (scheme canonicalWs entry).getLeft?,
    entries.filterMap fun entry => (scheme canonicalWs entry).getRight?)

namespace ManifestSecurityGate

variable (self : ManifestSecurityGate) (principalHome : Option (List String))

def checkFsPermission (path : Text) (statics homeSuffixes logicalPatterns : List Text) : Bool :=
  match stripScheme "home:" path, stripScheme "workspace:" path, self.logicalWorkspace with
  | some homePath, _, _ =>
    !malformed homePath && homeSuffixes.any fun suffix =>
      (suffix.rdropWhile (· = "")).isPrefixOf homePath
  | none, some workspacePath, true =>
    !malformed workspacePath && logicalPatterns.any fun entry =>
      entry = ["*"] || (stripScheme "cwd:" entry).any fun suffix =>
        ((suffix.dropWhile (· = "")).rdropWhile (· = "")).isPrefixOf workspacePath
  | _, _, _ =>
    .parentDir ∉ components path &&
      (statics.any (fun p =>
          startsWith path (if p = ["*"] then absolute self.workspaceRootPath else p)) ||
        (principalHome <|> self.defaultHomeRoot).any fun home =>
          homeSuffixes.any fun suffix => startsWith path (joinText home suffix))

/-- Where a declared entry points. -/
def declared (entry : Text) : Option Text :=
  match scheme self.workspaceRootPath entry with
  | .inl pattern => some (if entry = ["*"] then absolute self.workspaceRootPath else pattern)
  | .inr suffix => (principalHome <|> self.defaultHomeRoot).map fun home => joinText home suffix

variable {self principalHome}

theorem stripScheme_absolute {name : String} (h : name ≠ "") (pieces : List String) :
    stripScheme name (absolute pieces) = none := by
  unfold stripScheme
  split
  next heq =>
    obtain ⟨hfirst, _⟩ := cons.inj heq
    rw [← hfirst, if_neg h.symm]
  next => rfl

/-- Only the wildcard is kept as `*`. -/
theorem scheme_eq_inl {ws : List String} {entry pattern : Text}
    (h : scheme ws entry = .inl pattern) : pattern = ["*"] ↔ entry = ["*"] := by
  unfold scheme at h
  split at h
  next hstar => rw [← Sum.inl.inj h]
  next hstar =>
    refine iff_of_false ?_ hstar
    split at h
    next suffix _ _ =>
      obtain rfl := Sum.inl.inj h
      unfold joinText
      split
      next => simp
      next => simp [absolute]
    next => cases h
    next => rwa [← Sum.inl.inj h]

theorem checkFsPermission_below {entries logicalPatterns : List Text}
    (h : self.checkFsPermission principalHome (absolute pieces)
      (partitionSchemes entries self.workspaceRootPath).1
      (partitionSchemes entries self.workspaceRootPath).2 logicalPatterns = true) :
    ∃ entry ∈ entries, ∃ pattern ∈ self.declared principalHome entry,
      components pattern <+: components (absolute pieces) := by
  unfold checkFsPermission at h
  rw [stripScheme_absolute (by decide), stripScheme_absolute (by decide)] at h
  simp only [Bool.and_eq_true, Bool.or_eq_true, any_eq_true, Option.any_eq_true,
    partitionSchemes, mem_filterMap, startsWith, isPrefixOf_iff_prefix] at h
  rcases h.2 with ⟨_, ⟨entry, hentry, hpattern⟩, hbelow⟩ |
      ⟨_, hhome, _, ⟨entry, hentry, hsuffix⟩, hbelow⟩
  · rw [Sum.getLeft?_eq_some_iff] at hpattern
    refine ⟨entry, hentry, _, ?_, hbelow⟩
    simp [declared, hpattern, scheme_eq_inl hpattern]
  · rw [Sum.getRight?_eq_some_iff] at hsuffix
    refine ⟨entry, hentry, _, ?_, hbelow⟩
    simp [declared, hsuffix, hhome]

end ManifestSecurityGate

/-- The final path: what the deepest existing part leads to, or else that part, and the missing
names behind it. -/
theorem finalPath_spec {root : List String} {base : Place} (requested : Text)
    (hroot : tree.canonicalize root = some base) :
    ∃ part rest, joined tree root requested = part ++ rest ∧ (tree.lstat part).isSome ∧
      finalPath tree root requested =
        (tree.canonicalize part).getD part ++ rest.filter (· ≠ "..") ∧
      Missing tree part (rest.filter (· ≠ "..")) ∧
      ∀ piece ∈ finalPath tree root requested, ¬ Here piece := by
  have hpieces : ∀ piece ∈ joined tree root requested, ¬ Here piece := by
    intro piece hpiece
    rw [joined, canonicalRoot, hroot, mem_append] at hpiece
    rcases hpiece with hpiece | hpiece
    · exact (isName_of_node (real_of_canonicalize hroot).ne_none piece hpiece).1
    · simpa using of_mem_filter hpiece
  obtain ⟨part, rest, hparts, hsearch, hexists, hmissing⟩ := search_spec
    (fun piece hpiece => hpieces piece (mem_reverse.1 hpiece))
      (⟨by simp, by simp⟩ : Missing tree _ [])
  rw [reverse_reverse] at hparts
  rw [append_nil] at hsearch hmissing
  have hfinal : finalPath tree root requested =
      (tree.canonicalize part).getD part ++ rest.filter (· ≠ "..") := by
    rw [finalPath, hsearch]
  refine ⟨part, rest, hparts, hexists, hfinal, hmissing, ?_⟩
  rw [hfinal, forall_mem_append]
  refine ⟨?_, fun name hname => (hmissing.1 name hname).1⟩
  cases hc : tree.canonicalize part with
  | some c =>
    exact fun name hname => (isName_of_node (real_of_canonicalize hc).ne_none name hname).1
  | none => exact fun piece hpiece => hpieces piece (hparts ▸ mem_append_left _ hpiece)

/-- A link that leads nowhere yet, but through which a file can be made. -/
structure Dangling (tree : FileTree) (path : List String) : Prop where
  entry : (tree.lstat path).isSome
  nowhere : tree.canonicalize path = none
  makes : (tree.openOrCreate path).isSome

/-- A `..` behind such a link is dropped. -/
theorem Dangling.search {part : List String} (h : Dangling tree part) (ups : Nat) :
    Host.search tree (part ++ replicate ups "..").reverse [] = some (part, []) := by
  induction ups with
  | zero =>
    rw [replicate_zero, append_nil, search_exists (by rw [reverse_reverse]; exact h.entry),
      reverse_reverse]
  | succ ups ih =>
    have hnone : tree.lstat ((part ++ replicate ups "..").reverse.reverse ++ [".."]) = none := by
      rw [reverse_reverse, append_assoc]
      exact walk_behind_none h.nowhere (by simp)
    rw [replicate_succ', ← append_assoc, reverse_append, reverse_singleton, singleton_append,
      Host.search, hnone]
    exact ih

/-- A workspace `/w` with a link to a directory of its own and one to a missing file outside. -/
def linked (place : Place) : Option Node :=
  if place ∈ [[], ["w"], ["w", "s"], ["out"]] then some .dir
  else if place = ["w", "d"] then some (.link false ["s"])
  else if place = ["w", "l"] then some (.link true ["out", "f"])
  else none

theorem linked_parent {place : Place} {name : String} (h : linked (place ++ [name]) ≠ none) :
    linked place = some .dir ∧ IsName name := by
  have hentries : ∀ entry ∈ [[], ["w"], ["w", "s"], ["out"], ["w", "d"], ["w", "l"]], entry ≠ [] →
      linked entry.dropLast = some .dir ∧ ∀ name ∈ entry.getLast?, IsName name := by decide
  have hmem : place ++ [name] ∈ [[], ["w"], ["w", "s"], ["out"], ["w", "d"], ["w", "l"]] := by
    by_contra hnot
    simp only [mem_cons, not_mem_nil, or_false, not_or] at hnot
    simp [linked, hnot] at h
  have := hentries _ hmem (by simp)
  rw [dropLast_concat, getLast?_concat] at this
  exact ⟨this.1, this.2 name rfl⟩

theorem linked_root : linked [] = some .dir := rfl

def linkedTree : FileTree := ⟨linked, 40, linked_root, @linked_parent⟩

end Astrid.Host
