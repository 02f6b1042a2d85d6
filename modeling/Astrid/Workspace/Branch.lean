import Astrid.Lib.Try

/-!
# Workspace branches and whose they are

`astrid-storage`, `content/store/workspace`. An owner's root carries, beside the owner's content,
a record for each live branch (whose it is, the prefix it is attached at, the view it started
from and the one it works on) and a receipt for each promoted one. Every operation loads the
root, computes the next one and commits it only if the root is still the one it loaded, so a
call takes effect on the state it read and is one step here, whoever makes it. The loops that load
the root again after a lost race, as that of `create_branch`, are their last turn.

Three of the operations rewrite a branch, and none changes its binding or prefix; creation
refuses a second live branch for a binding and prefix. But creation is made safe to retry by
returning a branch that is already there, and that branch is compared by base and prefix, not by
binding: `begin_for_uid_at` hands out the branch of another principal exactly if that branch has
the requested identifier, is attached at the same prefix and is unchanged.
-/

namespace Astrid.Workspace

open List

/-- A branch record, which is also what a descriptor of the branch says. -/
structure BranchState (Uid Id Root : Type) where
  id : Id
  bindingUid : Option Uid
  targetPrefix : Option (List Char)
  base : Option Root
  working : Option Root
  deriving DecidableEq

inductive WorkspaceBranchError (Uid Id : Type)
  | notFound (id : Id)
  | alreadyExists (id : Id)
  | bindingAlreadyExists (bindingUid : Uid) (targetPrefix : List Char)
  | staleBase (branch : Id)
  | branchLimitExceeded
  | invalidTargetPrefix (detail : String)
  | other (detail : String)
  deriving DecidableEq

structure ContentHeader (Uid Id Root : Type) where
  catalog : Option Root
  branches : List (BranchState Uid Id Root)
  receipts : List (BranchState Uid Id Root)
  deriving DecidableEq

def maxWorkspaceBranches : Nat := 128

/-- What the branch store takes from the content store: the catalog below a prefix, the main
catalog with a branch's names put in, and the quota policy. -/
structure Content (Uid Id Root : Type) where
  selectedCatalog : Option Root → Option (List Char) →
    Except (WorkspaceBranchError Uid Id) (Option Root)
  mergeSelectedCatalog : Option Root → Option (List Char) → Option Root →
    Except (WorkspaceBranchError Uid Id) (Option Root)
  enforceQuotaChange : ContentHeader Uid Id Root → Option Root → Option Root →
    Except (WorkspaceBranchError Uid Id) Unit
  enforceCatalogReplacement : ContentHeader Uid Id Root → Option Root → Option Root →
    Except (WorkspaceBranchError Uid Id) Unit

section Operations

variable {Uid Id Root : Type} [DecidableEq Uid] [DecidableEq Id] [DecidableEq Root]

/-- A prefix is refused if a segment of it is empty (so also if the prefix is, or starts or
ends with a slash), or is a dot segment. -/
def validateTargetPrefix (value : List Char) :
    Except (WorkspaceBranchError Uid Id) (List Char) := do
  require (¬(value.splitOn '/').any (·.isEmpty))
    (.invalidTargetPrefix "prefix must be a non-empty canonical slash-separated path")
  require (¬(value.splitOn '/').any fun segment => segment = ['.'] || segment = ['.', '.'])
    (.invalidTargetPrefix "prefix cannot contain dot path segments")
  .ok value

variable (content : Content Uid Id Root) (header : ContentHeader Uid Id Root)

namespace ContentHeader

def branch? (id : Id) : Option (BranchState Uid Id Root) := header.branches.find? (·.id = id)

def receipt? (id : Id) : Option (BranchState Uid Id Root) := header.receipts.find? (·.id = id)

/-- Another live branch claims the attachment. -/
def claims (bindingUid : Option Uid) (targetPrefix : Option (List Char)) : Bool :=
  bindingUid.isSome && header.branches.any fun branch =>
    branch.bindingUid = bindingUid && branch.targetPrefix = targetPrefix

end ContentHeader

def claimError (bindingUid : Option Uid) (targetPrefix : Option (List Char)) :
    WorkspaceBranchError Uid Id :=
  match bindingUid, targetPrefix with
  | some bindingUid, some targetPrefix => .bindingAlreadyExists bindingUid targetPrefix
  | _, _ => .invalidTargetPrefix "bound workspace prefix cannot be omitted"

/-- The descriptor returned and the header committed; the old header if nothing was. -/
def createBranch (id : Id) (bindingUid : Option Uid) (targetPrefix : Option (List Char)) :
    Except (WorkspaceBranchError Uid Id) (BranchState Uid Id Root × ContentHeader Uid Id Root) := do
  require (header.receipt? id = none) (.alreadyExists id)
  match header.branch? id with
  | some existing =>
    let requested ← content.selectedCatalog header.catalog targetPrefix
    require (requested = existing.base ∧ existing.working = existing.base ∧
      existing.targetPrefix = targetPrefix) (.alreadyExists id)
    .ok (⟨id, existing.bindingUid, existing.targetPrefix, existing.base, existing.base⟩, header)
  | none =>
    require (header.claims bindingUid targetPrefix = false) (claimError bindingUid targetPrefix)
    require (header.branches.length < maxWorkspaceBranches) .branchLimitExceeded
    let base ← content.selectedCatalog header.catalog targetPrefix
    content.enforceQuotaChange header none base
    let branch := ⟨id, bindingUid, targetPrefix, base, base⟩
    .ok (branch, { header with branches := header.branches ++ [branch] })

def beginForUidAt (bindingUid : Uid) (id : Id) (targetPrefix : List Char) :
    Except (WorkspaceBranchError Uid Id)
      (BranchState Uid Id Root × ContentHeader Uid Id Root) := do
  let targetPrefix ← validateTargetPrefix targetPrefix
  createBranch content header id (some bindingUid) (some targetPrefix)

/-- Here an existing branch is compared by binding too. A bound source always has a prefix, and
then claims the attachment itself. -/
def forkWithUid (source id : Id) :
    Except (WorkspaceBranchError Uid Id) (BranchState Uid Id Root × ContentHeader Uid Id Root) := do
  let sourceState ← okOr (header.branch? source) (.notFound source)
  require (header.receipt? id = none) (.alreadyExists id)
  match header.branch? id with
  | some existing =>
    require (existing.base = sourceState.working ∧ existing.working = sourceState.working ∧
      existing.bindingUid = sourceState.bindingUid ∧
      existing.targetPrefix = sourceState.targetPrefix) (.alreadyExists id)
    .ok (⟨id, sourceState.bindingUid, sourceState.targetPrefix, existing.base, existing.base⟩,
      header)
  | none =>
    require (header.branches.length < maxWorkspaceBranches) .branchLimitExceeded
    require (¬(header.claims sourceState.bindingUid sourceState.targetPrefix = true ∧
        sourceState.targetPrefix.isSome = true))
      (claimError sourceState.bindingUid sourceState.targetPrefix)
    content.enforceQuotaChange header none sourceState.working
    let branch := { sourceState with id := id, base := sourceState.working }
    .ok (branch, { header with branches := header.branches ++ [branch] })

/-- `mutate_catalog`, which every write and rename of a branch's names goes through. -/
def mutateCatalog (id : Id)
    (mutate : Option Root → Except (WorkspaceBranchError Uid Id) (Option Root)) :
    Except (WorkspaceBranchError Uid Id) (ContentHeader Uid Id Root) := do
  let branch ← okOr (header.branch? id) (.notFound id)
  let working ← mutate branch.working
  if working = branch.working then .ok header
  else
    content.enforceQuotaChange header branch.working working
    .ok { header with
      branches := header.branches.filter (·.id ≠ id) ++ [{ branch with working := working }] }

def promote (id : Id) :
    Except (WorkspaceBranchError Uid Id) (BranchState Uid Id Root × ContentHeader Uid Id Root) :=
  match header.branch? id with
  | none => do
    let receipt ← okOr (header.receipt? id) (.notFound id)
    .ok (receipt, header)
  | some branch => do
    let current ← content.selectedCatalog header.catalog branch.targetPrefix
    require (current = branch.base) (.staleBase id)
    let merged ← content.mergeSelectedCatalog header.catalog branch.targetPrefix branch.working
    content.enforceCatalogReplacement header branch.working merged
    .ok (branch,
      { catalog := merged
        branches := header.branches.filter (·.id ≠ id)
        receipts := header.receipts.filter (·.id ≠ id) ++ [branch] })

def drop (id : Id) : ContentHeader Uid Id Root :=
  { header with
    branches := header.branches.filter (·.id ≠ id)
    receipts := header.receipts.filter (·.id ≠ id) }

/-! ## What a step can do -/

/-- One committed step of anyone on one owner; the owner's own content changes too. -/
inductive Step : ContentHeader Uid Id Root → ContentHeader Uid Id Root → Prop
  | beginForUidAt {h h' : ContentHeader Uid Id Root} (bindingUid : Uid) (id : Id)
      (targetPrefix : List Char) (d : BranchState Uid Id Root)
      (hrun : Workspace.beginForUidAt content h bindingUid id targetPrefix = .ok (d, h')) :
      Step h h'
  | fork {h h' : ContentHeader Uid Id Root} (source id : Id) (d : BranchState Uid Id Root)
      (hrun : forkWithUid content h source id = .ok (d, h')) : Step h h'
  | mutate {h h' : ContentHeader Uid Id Root} (id : Id)
      (f : Option Root → Except (WorkspaceBranchError Uid Id) (Option Root))
      (hrun : mutateCatalog content h id f = .ok h') : Step h h'
  | promote {h h' : ContentHeader Uid Id Root} (id : Id) (d : BranchState Uid Id Root)
      (hrun : Workspace.promote content h id = .ok (d, h')) : Step h h'
  | drop {h : ContentHeader Uid Id Root} (id : Id) : Step h (Workspace.drop h id)
  | write {h : ContentHeader Uid Id Root} (catalog : Option Root) :
      Step h { h with catalog := catalog }

/-- Whose a branch is and where it is attached. -/
def BranchState.attachment (b : BranchState Uid Id Root) : Option Uid × Option (List Char) :=
  (b.bindingUid, b.targetPrefix)

/-- What a step does to the branches. -/
inductive Change : List (BranchState Uid Id Root) → List (BranchState Uid Id Root) → Prop
  | same {bs : List (BranchState Uid Id Root)} : Change bs bs
  | added {bs : List (BranchState Uid Id Root)} (b : BranchState Uid Id Root)
      (hid : b.id ∉ bs.map BranchState.id)
      (hbound : b.bindingUid.isSome = true ∧ b.targetPrefix.isSome = true)
      (hclaim : b.attachment ∉ bs.map BranchState.attachment) : Change bs (bs ++ [b])
  | rewritten {bs : List (BranchState Uid Id Root)} (b : BranchState Uid Id Root) (hb : b ∈ bs)
      (working : Option Root) :
      Change bs (bs.filter (·.id ≠ b.id) ++ [{ b with working := working }])
  | removed {bs : List (BranchState Uid Id Root)} (id : Id) : Change bs (bs.filter (·.id ≠ id))

/-- Every live branch is bound and attached, and no two have one identifier, or one binding and
prefix. -/
structure Inv (bs : List (BranchState Uid Id Root)) : Prop where
  bound : ∀ b ∈ bs, b.bindingUid.isSome = true ∧ b.targetPrefix.isSome = true
  ids : (bs.map BranchState.id).Nodup
  attachments : (bs.map BranchState.attachment).Nodup

variable {content header} {id : Id} {b : BranchState Uid Id Root}

omit [DecidableEq Uid] [DecidableEq Root] in
theorem branch?_eq_some (h : header.branch? id = some b) : b ∈ header.branches ∧ b.id = id :=
  ⟨mem_of_find?_eq_some h, by simpa using find?_some h⟩

omit [DecidableEq Uid] [DecidableEq Root] in
theorem branch?_eq_none (h : header.branch? id = none) : ∀ b ∈ header.branches, b.id ≠ id := by
  intro b hb
  simpa using find?_eq_none.1 h b hb

variable {d : BranchState Uid Id Root} {header' : ContentHeader Uid Id Root}

/-- The two ways to begin a branch: find one with the identifier, or make one. -/
theorem beginForUidAt_ok {uid : Uid} {targetPrefix : List Char}
    (h : beginForUidAt content header uid id targetPrefix = .ok (d, header')) :
    (∃ existing, header.branch? id = some existing ∧ d.bindingUid = existing.bindingUid ∧
      header' = header) ∨
    (header.branch? id = none ∧ header.claims (some uid) (some targetPrefix) = false ∧
      d.id = id ∧ d.bindingUid = some uid ∧ d.targetPrefix = some targetPrefix ∧
      header'.branches = header.branches ++ [d]) := by
  unfold beginForUidAt validateTargetPrefix createBranch at h
  simp only [bind_eq_ok, require_eq_ok, exists_and_left, exists_const] at h
  obtain ⟨_, ⟨_, _, hvalue⟩, _, h⟩ := h
  obtain rfl := Except.ok.inj hvalue
  cases hfind : header.branch? id with
  | some existing =>
    simp only [hfind, bind_eq_ok, require_eq_ok, exists_const] at h
    obtain ⟨_, _, _, h⟩ := h
    cases h
    exact .inl ⟨existing, rfl, rfl, rfl⟩
  | none =>
    simp only [hfind, bind_eq_ok, require_eq_ok, exists_const] at h
    obtain ⟨hclaims, _, _, _, _, _, h⟩ := h
    cases h
    exact .inr ⟨rfl, hclaims, rfl, rfl, rfl, rfl⟩

/-- A fork of a bound branch makes nothing: its source has the attachment. -/
theorem forkWithUid_ok {source : Id} (hinv : Inv header.branches)
    (h : forkWithUid content header source id = .ok (d, header')) : header' = header := by
  unfold forkWithUid at h
  simp only [bind_eq_ok, okOr_eq_ok, require_eq_ok, exists_const] at h
  obtain ⟨sourceState, hsource, _, h⟩ := h
  cases hfind : header.branch? id with
  | some =>
    simp only [hfind, bind_eq_ok, require_eq_ok, exists_const] at h
    cases h.2
    rfl
  | none =>
    simp only [hfind, bind_eq_ok, require_eq_ok, exists_const] at h
    obtain ⟨hmem, _⟩ := branch?_eq_some hsource
    obtain ⟨hbound, hattached⟩ := hinv.bound sourceState hmem
    refine absurd ⟨?_, hattached⟩ h.2.1
    unfold ContentHeader.claims
    rw [hbound, Bool.true_and, any_eq_true]
    exact ⟨sourceState, hmem, by simp⟩

variable {h : ContentHeader Uid Id Root}

theorem step_change {h' : ContentHeader Uid Id Root} (hinv : Inv h.branches)
    (hstep : Step content h h') : Change h.branches h'.branches := by
  cases hstep with
  | beginForUidAt uid _ targetPrefix d hrun =>
    rcases beginForUidAt_ok hrun with
      ⟨_, _, _, rfl⟩ | ⟨hnone, hclaims, hid, hbinding, hprefix, hbranches⟩
    · exact .same
    rw [hbranches]
    refine .added d ?_ (by rw [hbinding, hprefix]; exact ⟨rfl, rfl⟩) ?_
    · rw [hid, mem_map]
      intro ⟨b, hb, heq⟩
      exact branch?_eq_none hnone b hb heq
    · rw [mem_map]
      intro ⟨b, hb, heq⟩
      have hfree : ∀ b ∈ h.branches, b.bindingUid = some uid →
          ¬b.targetPrefix = some targetPrefix := by
        simpa [ContentHeader.claims] using hclaims
      obtain ⟨heq₁, heq₂⟩ := Prod.mk.inj heq
      exact hfree b hb (heq₁.trans hbinding) (heq₂.trans hprefix)
  | fork _ _ _ hrun =>
    rw [forkWithUid_ok hinv hrun]
    exact .same
  | mutate _ _ hrun =>
    unfold mutateCatalog at hrun
    simp only [bind_eq_ok, okOr_eq_ok] at hrun
    obtain ⟨branch, hbranch, working, _, hrun⟩ := hrun
    obtain ⟨hmem, rfl⟩ := branch?_eq_some hbranch
    split at hrun
    next =>
      cases hrun
      exact .same
    next =>
      obtain ⟨_, _, hrun⟩ := bind_eq_ok.1 hrun
      cases hrun
      exact .rewritten branch hmem working
  | promote id _ hrun =>
    unfold promote at hrun
    cases hfind : h.branch? id with
    | none =>
      simp only [hfind, bind_eq_ok, okOr_eq_ok] at hrun
      obtain ⟨_, _, hrun⟩ := hrun
      cases hrun
      exact .same
    | some =>
      simp only [hfind, bind_eq_ok, require_eq_ok, exists_const] at hrun
      obtain ⟨_, _, _, _, _, _, _, hrun⟩ := hrun
      cases hrun
      exact .removed id
  | drop id => exact .removed id
  | write => exact .same

variable {bs : List (BranchState Uid Id Root)}

omit [DecidableEq Uid] [DecidableEq Root] in
/-- A branch takes its own place: what tells the branches apart still does. -/
theorem nodup_rewritten {κ : Type} {f : BranchState Uid Id Root → κ} (hb : b ∈ bs)
    (hnodup : (bs.map f).Nodup) : ((bs.filter (·.id ≠ b.id)).map f ++ [f b]).Nodup := by
  refine nodup_append.2
    ⟨(filter_sublist.map f).nodup hnodup, nodup_singleton _, ?_⟩
  intro x hx y hy heq
  obtain ⟨_, hc, rfl⟩ := mem_map.1 hx
  obtain rfl := mem_singleton.1 hy
  obtain ⟨hc, hne⟩ := mem_filter.1 hc
  rw [inj_on_of_nodup_map hnodup hc hb heq] at hne
  simp at hne

variable {bs' : List (BranchState Uid Id Root)}

omit [DecidableEq Uid] [DecidableEq Root] in
theorem Change.inv (hchange : Change bs bs') (hinv : Inv bs) : Inv bs' := by
  cases hchange with
  | same => exact hinv
  | added _ hid hbound hclaim =>
    refine ⟨?_, ?_, ?_⟩
    · exact forall_mem_append.2 ⟨hinv.bound, forall_mem_singleton.2 hbound⟩
    · rw [map_append, map_singleton, ← concat_eq_append]
      exact hinv.ids.concat hid
    · rw [map_append, map_singleton, ← concat_eq_append]
      exact hinv.attachments.concat hclaim
  | rewritten b hb =>
    refine ⟨?_, ?_, ?_⟩
    · exact forall_mem_append.2 ⟨fun c hc => hinv.bound c (mem_filter.1 hc).1,
        forall_mem_singleton.2 (hinv.bound b hb)⟩
    · rw [map_append]
      exact nodup_rewritten hb hinv.ids
    · rw [map_append]
      exact nodup_rewritten hb hinv.attachments
  | removed =>
    refine ⟨?_, (filter_sublist.map _).nodup hinv.ids,
      (filter_sublist.map _).nodup hinv.attachments⟩
    intro c hc
    exact hinv.bound c (mem_filter.1 hc).1

omit [DecidableEq Uid] [DecidableEq Root] in
/-- A branch that lives on keeps its binding and prefix. -/
theorem Change.attachment_eq (hchange : Change bs bs') (hinv : Inv bs)
    {b' : BranchState Uid Id Root} (hb : b ∈ bs) (hb' : b' ∈ bs') (heq : b.id = b'.id) :
    b'.attachment = b.attachment := by
  have hold : ∀ c ∈ bs, c.id = b.id → c = b := by
    intro c hc hid
    exact inj_on_of_nodup_map hinv.ids hc hb hid
  cases hchange with
  | same => rw [hold b' hb' heq.symm]
  | added _ hid =>
    rcases mem_append.1 hb' with hb' | hb'
    · rw [hold b' hb' heq.symm]
    · obtain rfl := mem_singleton.1 hb'
      exact absurd (mem_map.2 ⟨b, hb, heq⟩) hid
  | rewritten c hc =>
    rcases mem_append.1 hb' with hb' | hb'
    · rw [hold b' (mem_filter.1 hb').1 heq.symm]
    · obtain rfl := mem_singleton.1 hb'
      rw [← hold c hc heq.symm]
      rfl
  | removed => rw [hold b' (mem_filter.1 hb').1 heq.symm]

theorem inv_of_run {start : ContentHeader Uid Id Root} (hstart : start.branches = [])
    (hrun : Relation.ReflTransGen (Step content) start h) : Inv h.branches := by
  induction hrun with
  | refl =>
    rw [hstart]
    exact ⟨by simp, nodup_nil, nodup_nil⟩
  | tail _ hstep ih => exact (step_change ih hstep).inv ih

/-- In every state that calls of any principals can reach, no two live branches have one binding
and prefix; no step changes the binding or prefix of a branch that lives on; and beginning a
branch returns and records the principal asked for exactly if no live branch of another one has
the identifier. -/
theorem branch_binding_iff {start h : ContentHeader Uid Id Root} (hstart : start.branches = [])
    (hrun : Relation.ReflTransGen (Step content) start h) :
    (h.branches.map BranchState.attachment).Nodup ∧
    (∀ h', Step content h h' → ∀ b ∈ h.branches, ∀ b' ∈ h'.branches, b.id = b'.id →
      b'.bindingUid = b.bindingUid ∧ b'.targetPrefix = b.targetPrefix) ∧
    ∀ uid id targetPrefix d h', beginForUidAt content h uid id targetPrefix = .ok (d, h') →
      ((d.bindingUid = some uid ∧ (h'.branch? id).map BranchState.bindingUid = some (some uid)) ↔
        ∀ b, h.branch? id = some b → b.bindingUid = some uid) := by
  have hinv := inv_of_run hstart hrun
  refine ⟨hinv.attachments, ?_, ?_⟩
  · intro h' hstep b hb b' hb' heq
    exact Prod.mk.inj ((step_change hinv hstep).attachment_eq hinv hb hb' heq)
  · intro uid id targetPrefix d h' hbegin
    rcases beginForUidAt_ok hbegin with
      ⟨existing, hfind, hbinding, rfl⟩ | ⟨hnone, _, hid, hbinding, _, hbranches⟩
    · rw [hfind, hbinding]
      constructor
      · intro hsame b hb
        obtain rfl := Option.some.inj hb
        exact hsame.1
      · intro hsame
        have := hsame existing rfl
        exact ⟨this, by rw [Option.map_some, this]⟩
    · -- A new branch: nothing before it has the identifier.
      have hfound : h'.branch? id = some d := by
        unfold ContentHeader.branch? at hnone ⊢
        rw [hbranches, find?_append, hnone, find?_singleton]
        exact if_pos (decide_eq_true hid)
      rw [hfound, Option.map_some, hbinding]
      refine iff_of_true ⟨rfl, rfl⟩ ?_
      intro b hb
      cases hnone.symm.trans hb

end Operations

/-- An owner without content or quota. -/
def emptyContent : Content Nat Nat Nat :=
  ⟨fun _ _ => .ok none, fun _ _ _ => .ok none, fun _ _ _ => .ok (), fun _ _ _ => .ok ()⟩

def oneBranch : ContentHeader Nat Nat Nat := ⟨none, [⟨7, some 1, some ['w'], none, none⟩], []⟩

theorem beginForUidAt_emptyContent (uid : Nat) :
    beginForUidAt emptyContent oneBranch uid 7 ['w'] =
      .ok (⟨7, some 1, some ['w'], none, none⟩, oneBranch) := by
  rfl

theorem oneBranch_reached :
    Relation.ReflTransGen (Step emptyContent) ⟨none, [], []⟩ oneBranch :=
  .single (.beginForUidAt 1 7 ['w'] ⟨7, some 1, some ['w'], none, none⟩ (by rfl))

/-- The retry of the principal that began the branch gets it back. -/
theorem branch_binding_iff_retried :
    (⟨7, some 1, some ['w'], none, none⟩ : BranchState Nat Nat Nat).bindingUid = some 1 ∧
      (oneBranch.branch? 7).map BranchState.bindingUid = some (some 1) :=
  ((branch_binding_iff rfl oneBranch_reached).2.2 1 7 ['w'] _ _
    (beginForUidAt_emptyContent 1)).2 (by decide)

/-- Another principal that asks for the same identifier and prefix is given it too. -/
theorem branch_of_another :
    ∃ h : ContentHeader Nat Nat Nat,
      Relation.ReflTransGen (Step emptyContent) ⟨none, [], []⟩ h ∧
      ∃ d h', beginForUidAt emptyContent h 2 7 ['w'] = .ok (d, h') ∧ d.bindingUid = some 1 ∧
        (h'.branch? 7).map BranchState.bindingUid = some (some 1) :=
  ⟨oneBranch, oneBranch_reached, _, _, beginForUidAt_emptyContent 2, rfl, by decide⟩

end Astrid.Workspace
