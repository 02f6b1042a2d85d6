import Astrid.Lib.Addressed
import Astrid.Catalog.Stored

/-!
# Mutations of the catalog

A mutation walks down by the bits of a name, and interns the branches of that path again
around a changed end. The path is a zipper of the trie: putting a subtree back at its end
(`plug`) is what `rebuildPath` interns. So an insertion stores the trie with a replaced leaf,
or with a leaf grafted at the first bit where the name leaves the trie, and a deletion stores
the trie with the sibling in the place of the last branch. Each of these is again canonical.
The only failures are totals or positions that do not fit their fields.
-/

namespace Astrid.Catalog

open Std List Function

section Intern

variable {Id : Type} [Key Id] {identify : ObjectRecord Id → Id}

/-- The store, and the records that a mutation adds to it. -/
def Joined (base : Id → ObjectRecord Id → Prop) (records : Records Id) (id : Id)
    (record : ObjectRecord Id) : Prop :=
  base id record ∨ records[id]? = some record

variable (identify)

/-- What interning a trie comes to: its root with the records that were missing, or an error
because of its totals or positions. -/
def Interned (base : Id → ObjectRecord Id → Prop) (t : CatalogTrie Id)
    (result : Except (CatalogError Id) (CatalogRoot Id × Records Id)) : Prop :=
  (Accounted t ∧ ∃ records, result = .ok (rootOf identify t, records) ∧
    ContentAddressed identify records ∧ Stored identify (Joined base records) t) ∨
  (¬ Accounted t ∧ ∃ e, result = .error e)

variable {identify} {records : Records Id}

section

variable (hinj : Function.Injective identify)

include hinj

theorem intern_ok (haddressed : ContentAddressed identify records) (record : ObjectRecord Id)
    (summary : CatalogSummary) :
    intern identify record summary records =
      .ok (⟨identify record, summary⟩, records.insert (identify record) record) := by
  unfold intern
  cases hexisting : records[identify record]? with
  | none => rfl
  | some existing =>
    obtain rfl := haddressed.eq_of_get hinj hexisting
    rw [haddressed.insert_eq_self hinj hexisting]
    show (require (existing = existing) _ >>= fun _ => _) = _
    rw [require_pos rfl]
    rfl

theorem internLeaf_interned (base : Id → ObjectRecord Id → Prop)
    (haddressed : ContentAddressed identify records) (name : ContentName)
    (value : CatalogValue Id) :
    Interned identify base (.leaf name value) (internLeaf identify name value records) := by
  have hword : wordLimit = 18446744073709551616 := rfl
  have hlen : name.bytes.length < wordLimit := by
    have := name.length_lt
    omega
  unfold internLeaf
  rw [require_pos hlen, leafObject_new]
  unfold leafSummary
  rw [require_pos hlen]
  by_cases hquota : value.logicalBytes.toNat + name.bytes.length < wordLimit
  · left
    rw [checkedAdd_eq_some.2 ⟨rfl, hquota⟩]
    refine ⟨⟨⟨value.logicalBytes.toNat_lt, hquota, show 1 < wordLimit by decide⟩, trivial⟩, _,
      intern_ok hinj haddressed _ _, haddressed.insert _, .inr ?_⟩
    rw [getElem?_insert_of, if_pos rfl]
  · right
    refine ⟨fun h => hquota h.fits.quotaBytes_lt, .accountingOverflow, ?_⟩
    have hnone : checkedAdd value.logicalBytes.toNat name.bytes.length = none := if_neg hquota
    rw [hnone]
    rfl

theorem internBranch_interned {base : Id → ObjectRecord Id → Prop}
    (haddressed : ContentAddressed identify records) {bit : Nat} (hbit : bit < wordLimit)
    {child : Bool → CatalogTrie Id} (hpositioned : ∀ side, Positioned (child side))
    (hstored : ∀ side, Stored identify (Joined base records) (child side)) :
    Interned identify base (.node bit child) (internBranch identify bit
      (rootOf identify (child false)) (rootOf identify (child true)) records) := by
  unfold internBranch
  rw [summary_rootOf, summary_rootOf, branchObject_new]
  cases hcombine : (summaryOf (child false)).combine (summaryOf (child true)) with
  | error e =>
    right
    refine ⟨?_, e, rfl⟩
    intro h
    rw [combine_eq_ok.2 ⟨rfl, h.fits⟩] at hcombine
    cases hcombine
  | ok =>
    left
    obtain ⟨rfl, hfits⟩ := combine_eq_ok.1 hcombine
    refine ⟨⟨hfits, hbit, hpositioned⟩, _, intern_ok hinj haddressed _ _, haddressed.insert _,
      .inr ?_, fun side => ?_⟩
    · rw [getElem?_insert_of, if_pos rfl]
    · refine (hstored side).mono fun id record => ?_
      exact Or.imp_right (haddressed.get_insert hinj)

end

end Intern

/-! ## Paths -/

section Paths

variable {Id : Type}

/-- A branch on a path, with the side that the path takes. -/
structure Crumb (Id : Type) where
  bit : Nat
  child : Bool → CatalogTrie Id
  side : Bool

def Crumb.branch (identify : ObjectRecord Id → Id) (crumb : Crumb Id) : PathBranch Id :=
  ⟨crumb.bit, rootOf identify (crumb.child false), rootOf identify (crumb.child true), crumb.side⟩

/-- The path of a name. -/
def crumbs (name : ContentName) : CatalogTrie Id → List (Crumb Id)
  | .empty => []
  | .leaf _ _ => []
  | .node bit child => ⟨bit, child, keyBit name bit⟩ :: crumbs name (child (keyBit name bit))

/-- A path with a new end. -/
def plug : List (Crumb Id) → CatalogTrie Id → CatalogTrie Id
  | [], t => t
  | crumb :: rest, t => .node crumb.bit (Function.update crumb.child crumb.side (plug rest t))

variable {identify : ObjectRecord Id → Id} {load : Load Id} {t : CatalogTrie Id}

theorem descend_returns (name : ContentName) (h : Walkable identify load t) :
    ∃ found, t.nearest keyBit name = some found ∧
      ∀ path, Returns (fun fuel => iterate (descendTurn load name) fuel (path, rootOf identify t))
        (.ok ⟨path ++ (crumbs name t).map (Crumb.branch identify), found.1, found.2⟩) := by
  induction t with
  | empty => exact absurd rfl h.ne_empty
  | leaf key value =>
    refine ⟨(key, value), rfl, fun path => returns_stop ?_⟩
    rw [descendTurn, loadNode_leaf h.stored, crumbs, map_nil, append_nil]
  | node bit child ih =>
    obtain ⟨found, hnearest, hreturns⟩ := ih (keyBit name bit) (h.child _)
    refine ⟨found, hnearest, fun path => ?_⟩
    have hrest := hreturns (path ++ [Crumb.branch identify ⟨bit, child, keyBit name bit⟩])
    rw [append_assoc] at hrest
    refine returns_again ?_ hrest
    rw [descendTurn, loadNode_node h.stored h.fits]
    simp only [rootOf_child]
    rfl

theorem plug_leaf (name : ContentName) (value : CatalogValue Id) (t : CatalogTrie Id) :
    plug (crumbs name t) (.leaf name value) = t.replace keyBit name value := by
  induction t with
  | empty | leaf => rfl
  | node _ _ ih => rw [crumbs, plug, ih, Trie.replace]

/-- Branches on a path stand in fields and in the store. -/
structure Crumb.Sound (identify : ObjectRecord Id → Id) (has : Id → ObjectRecord Id → Prop)
    (crumb : Crumb Id) : Prop where
  bit_lt : crumb.bit < wordLimit
  positioned : ∀ side, Positioned (crumb.child side)
  stored : ∀ side, Stored identify has (crumb.child side)

theorem crumbs_sound {has : Id → ObjectRecord Id → Prop} (name : ContentName)
    (hpositioned : Positioned t) (hstored : Stored identify has t) :
    ∀ crumb ∈ crumbs name t, crumb.Sound identify has := by
  induction t with
  | empty | leaf => intro crumb h; cases h
  | node _ _ ih =>
    exact forall_mem_cons.2 ⟨⟨hpositioned.1, hpositioned.2, hstored.2⟩,
      ih _ (hpositioned.2 _) (hstored.2 _)⟩

theorem child_update {P : CatalogTrie Id → Prop} (ht : P t) {child : Bool → CatalogTrie Id}
    (hchild : ∀ side, P (child side)) (taken side : Bool) :
    P (Function.update child taken t side) := by
  rw [update_apply]
  split
  next => exact ht
  next => exact hchild side

variable [Key Id]

/-- Interning a path again around a subtree that is interned already. -/
theorem rebuildPath_interned (hinj : Function.Injective identify)
    {base : Id → ObjectRecord Id → Prop} {path : List (Crumb Id)}
    (hsound : ∀ crumb ∈ path, crumb.Sound identify base) (hfits : Accounted t)
    {records : Records Id} (haddressed : ContentAddressed identify records)
    (hstored : Stored identify (Joined base records) t) :
    Interned identify base (plug path t)
      (rebuildPath identify (path.map (Crumb.branch identify)) (rootOf identify t) records) := by
  induction path with
  | nil => exact .inl ⟨hfits, records, rfl, haddressed, hstored⟩
  | cons crumb _ ih =>
    have hcrumb := hsound crumb mem_cons_self
    rw [map_cons, rebuildPath, plug]
    rcases ih (forall_mem_cons.1 hsound).2 with
      ⟨hplug, records', hok, haddressed', hstored'⟩ | ⟨hplug, e, herror⟩
    · rw [hok]
      have hbranch := internBranch_interned hinj haddressed' hcrumb.bit_lt
        (child_update hplug.positioned hcrumb.positioned crumb.side)
        (child_update hstored' (fun side => (hcrumb.stored side).mono fun _ _ => Or.inl) crumb.side)
      cases hside : crumb.side with
      | false =>
        rw [hside] at hbranch
        have hright : (Crumb.branch identify crumb).descendedRight = false := hside
        rw [hright]
        simpa [Crumb.branch] using hbranch
      | true =>
        rw [hside] at hbranch
        have hright : (Crumb.branch identify crumb).descendedRight = true := hside
        rw [hright]
        simpa [Crumb.branch] using hbranch
    · right
      rw [herror]
      refine ⟨fun h => hplug ?_, e, rfl⟩
      have hchild := h.child crumb.side
      rwa [update_self] at hchild

end Paths

/-! ## Insertion -/

section Insertion

variable {Id : Type} {identify : ObjectRecord Id → Id} {t : CatalogTrie Id} {name : ContentName}
  {value : CatalogValue Id}

theorem ne_empty_of_has (h : t.Has name value) : t ≠ .empty := by
  rintro rfl
  exact h

/-- A part of a trie that fits, fits. -/
theorem Accounted.of_has (h : Accounted t) (hhas : t.Has name value) :
    Accounted (.leaf name value) := by
  induction t with
  | empty => cases hhas
  | leaf =>
    obtain ⟨rfl, rfl⟩ := hhas
    exact h
  | node _ child ih =>
    obtain ⟨side, hside⟩ := hhas
    exact ih side (h.child side) hside

theorem Accounted.of_plug {path : List (Crumb Id)} (h : Accounted (plug path t)) : Accounted t := by
  induction path with
  | nil => exact h
  | cons crumb _ ih =>
    have hchild := Accounted.child h crumb.side
    rw [update_self] at hchild
    exact ih hchild

/-- The path of a name, cut at the position where the name leaves the trie, has the subtree
beside the new leaf at its end. -/
theorem graft_eq_plug (identify : ObjectRecord Id → Id) (name : ContentName)
    (value : CatalogValue Id) (position : Nat) (e : Bool) (t : CatalogTrie Id) :
    let path := (crumbs name t).map (Crumb.branch identify)
    let split := path.findIdx fun branch => position ≤ branch.bit
    ∃ existing, (if split = 0 then .ok (rootOf identify t)
        else okOr (path[split - 1]?.map PathBranch.selected)
          (.accountingOverflow : CatalogError Id)) = .ok (rootOf identify existing) ∧
      (∀ {P : CatalogTrie Id → Prop}, (∀ bit child side, P (.node bit child) → P (child side)) →
        P t → P existing) ∧
      plug ((crumbs name t).take split)
        (.fork position (keyBit name position) (.leaf name value) e existing) =
          t.graft keyBit position name value e := by
  induction t with
  | empty => exact ⟨.empty, rfl, fun _ h => h, rfl⟩
  | leaf key old => exact ⟨.leaf key old, rfl, fun _ h => h, rfl⟩
  | node bit child ih =>
    intro path split
    by_cases hstop : position ≤ bit
    · -- The new leaf goes above this branch.
      have hsplit : split = 0 := by
        simp only [split, path, crumbs, map_cons, findIdx_cons, Crumb.branch, hstop,
          decide_true, cond_true]
      refine ⟨.node bit child, ?_, fun _ h => h, ?_⟩
      · rw [if_pos hsplit]
      · rw [hsplit, take_zero, plug, Trie.graft, if_neg (by omega)]
    · obtain ⟨existing, hroot, hpart, hplug⟩ := ih (keyBit name bit)
      have hsplit : split = ((crumbs name (child (keyBit name bit))).map
          (Crumb.branch identify)).findIdx (fun branch => position ≤ branch.bit) + 1 := by
        simp only [split, path, crumbs, map_cons, findIdx_cons, Crumb.branch, hstop,
          decide_false, cond_false]
      refine ⟨existing, ?_, fun hchild h => hpart hchild (hchild _ _ _ h), ?_⟩
      · rw [← hroot, if_neg (by omega), hsplit, Nat.add_sub_cancel]
        split
        next hzero =>
          rw [hzero]
          simp only [path, crumbs, map_cons, getElem?_cons_zero, Option.map_some, okOr,
            PathBranch.selected, Crumb.branch, rootOf_child]
        next hpos =>
          obtain ⟨_, hn⟩ := Nat.exists_eq_succ_of_ne_zero hpos
          rw [hn]
          simp only [path, crumbs, map_cons, Nat.succ_eq_add_one, getElem?_cons_succ,
            Nat.add_sub_cancel]
      · rw [hsplit, crumbs, take_succ_cons, plug, hplug, Trie.graft, if_pos (by omega)]

variable {position : Nat} {e : Bool}

theorem Positioned.of_graft (h : Positioned (t.graft keyBit position name value e)) :
    position < wordLimit := by
  induction t with
  | empty | leaf => exact h.1
  | node bit _ ih =>
    rw [Trie.graft] at h
    split at h
    next =>
      have hchild := h.2 (keyBit name bit)
      rw [update_self] at hchild
      exact ih _ hchild
    next => exact h.1

variable [Key Id]

variable (identify) in
/-- What a mutation that leads to a trie comes to. -/
def Mutated (base : Id → ObjectRecord Id → Prop) (t : CatalogTrie Id)
    (previous : Option (CatalogValue Id))
    (result : Except (CatalogError Id) (CatalogMutation Id)) : Prop :=
  (Accounted t ∧ ∃ records, result = .ok ⟨catalogRoot identify t, previous, records⟩ ∧
    ContentAddressed identify records ∧ Stored identify (Joined base records) t) ∨
  (¬ Accounted t ∧ ∃ e, result = .error e)

variable {base : Id → ObjectRecord Id → Prop}

theorem Interned.mutated (hne : t ≠ .empty)
    {result : Except (CatalogError Id) (CatalogRoot Id × Records Id)}
    (h : Interned identify base t result) (previous : Option (CatalogValue Id)) :
    Mutated identify base t previous
      (result >>= fun rebuilt => pure ⟨some rebuilt.1, previous, rebuilt.2⟩) := by
  rcases h with ⟨hfits, records, rfl, haddressed, hstored⟩ | ⟨hfits, e, rfl⟩
  · refine .inl ⟨hfits, records, ?_, haddressed, hstored⟩
    rw [catalogRoot_of_ne identify hne]
    rfl
  · exact .inr ⟨hfits, e, rfl⟩

omit [Key Id] in
theorem child_fork {P : CatalogTrie Id → Prop} {d : Bool} {t' : CatalogTrie Id} (ht : P t)
    (ht' : P t') (hempty : P .empty) (side : Bool) :
    P (if side = d then t else if side = e then t' else .empty) := by
  split
  next => exact ht
  next =>
    split
    next => exact ht'
    next => exact hempty

variable {records : Records Id}

/-- Interning the fork of a new leaf and what stands beside it. -/
theorem internFork_interned (hinj : Function.Injective identify)
    (haddressed : ContentAddressed identify records) (hposition : position < wordLimit)
    (hleaf : Stored identify (Joined base records) (.leaf name value)) {existing : CatalogTrie Id}
    (hpositioned : Positioned existing) (hexisting : Stored identify base existing) :
    Interned identify base
      (.fork position (keyBit name position) (.leaf name value) (!keyBit name position) existing)
      (if keyBit name position then
        internBranch identify position (rootOf identify existing)
          (rootOf identify (.leaf name value)) records
      else internBranch identify position (rootOf identify (.leaf name value))
          (rootOf identify existing) records) := by
  have hstored : Stored identify (Joined base records) existing :=
    hexisting.mono fun _ _ => Or.inl
  have hbranch := internBranch_interned hinj haddressed hposition
    (child_fork (P := Positioned) (d := keyBit name position) (e := !keyBit name position)
      (show Positioned (.leaf name value) from trivial) hpositioned trivial)
    (child_fork hleaf hstored trivial)
  cases hbit : keyBit name position with
  | false | true =>
    rw [hbit] at hbranch
    exact hbranch

variable {load : Load Id} {found : ContentName × CatalogValue Id}

theorem insertAt_mutated (hinj : Function.Injective identify) (hcanonical : t.Canonical keyBit)
    (hfits : Accounted t) (hstored : Stored identify base t) (hne : t ≠ .empty)
    (hleaf : Accounted (.leaf name value)) (haddressed : ContentAddressed identify records)
    (hrecords : Stored identify (Joined base records) (.leaf name value))
    (hnearest : t.nearest keyBit name = some found) :
    ∃ t', t'.Canonical keyBit ∧ Trie.Updates name value t t' ∧
      Mutated identify base t' (t.find keyBit name)
        (insertAt identify (rootOf identify t) name value (rootOf identify (.leaf name value))
          records
          ⟨(crumbs name t).map (Crumb.branch identify), found.1, found.2⟩) := by
  have hhas : t.Has found.1 found.2 := Trie.nearest_has hnearest
  have hsound := crumbs_sound name hfits.positioned hstored
  rw [Trie.find_of_nearest hnearest]
  unfold insertAt
  dsimp only
  by_cases hname : found.1 = name
  · rw [hname] at hhas
    obtain ⟨hreplace, hupdates⟩ := Trie.canonical_replace (v := value) hcanonical hhas
    split_ifs with hvalue
    · -- Nothing to do.
      rw [hvalue] at hhas
      refine ⟨t, hcanonical, hcanonical.updates_self hhas, .inl ⟨hfits, ∅, ?_,
        contentAddressed_empty, hstored.mono fun _ _ => Or.inl⟩⟩
      rw [catalogRoot_of_ne identify hne]
    · refine ⟨_, hreplace, hupdates, ?_⟩
      have hrebuilt := rebuildPath_interned hinj hsound hleaf haddressed hrecords
      rw [plug_leaf] at hrebuilt
      exact hrebuilt.mutated (ne_empty_of_has hupdates.has_self) _
  · obtain ⟨index, hindex⟩ := exists_firstDiffer hname
    have hside : keyBit found.1 index = !keyBit name index := Bool.eq_not_of_ne hindex.differ
    obtain ⟨hgraft, hupdates⟩ := Trie.canonical_graft (v := value) hcanonical hnearest
      hindex.agree hside (Bool.self_ne_not _)
    refine ⟨_, hgraft, hupdates, ?_⟩
    rw [firstDifferingBit_eq hindex]
    split_ifs with hlimit
    · rw [ok_bind]
      obtain ⟨existing, hexisting, hpart, hplug⟩ :=
        graft_eq_plug identify name value index (!keyBit name index) t
      rw [hexisting, ok_bind]
      have hpositioned : Positioned existing := hpart (fun _ _ side h => h.2 side) hfits.positioned
      have hbeside : Stored identify base existing := hpart (fun _ _ side h => h.2 side) hstored
      rcases internFork_interned hinj haddressed hlimit hrecords hpositioned hbeside with
        ⟨hfork, records', hok, haddressed', hstored'⟩ | ⟨hfork, e, herror⟩
      · rw [hok, ← hplug, ← map_take]
        have hne' := hplug.symm ▸ ne_empty_of_has hupdates.has_self
        exact (rebuildPath_interned hinj (fun c hc => hsound c (mem_of_mem_take hc)) hfork
          haddressed' hstored').mutated hne' none
      · rw [herror, ← hplug]
        exact .inr ⟨fun h => hfork h.of_plug, e, rfl⟩
    · exact .inr ⟨fun h => hlimit h.positioned.of_graft, _, rfl⟩

omit [Key Id] in
theorem exists_updates (hcanonical : t.Canonical keyBit)
    (hnearest : t.nearest keyBit name = some found) (value : CatalogValue Id) :
    ∃ t', t'.Canonical keyBit ∧ Trie.Updates name value t t' := by
  by_cases hname : found.1 = name
  · have hhas := Trie.nearest_has hnearest
    rw [hname] at hhas
    exact ⟨_, Trie.canonical_replace hcanonical hhas⟩
  · obtain ⟨_, hindex⟩ := exists_firstDiffer hname
    exact ⟨_, Trie.canonical_graft hcanonical hnearest hindex.agree rfl (Ne.symm hindex.differ)⟩

/-- An insertion leads to the trie with the new entry, if that fits. -/
theorem insert_returns (hinj : Function.Injective identify) (hcanonical : t.Canonical keyBit)
    (hfits : Accounted t) (hstored : Stored identify (Serves load) t) (name : ContentName)
    (value : CatalogValue Id) :
    ∃ t' result, t'.Canonical keyBit ∧ Trie.Updates name value t t' ∧
      Returns (insert load identify (catalogRoot identify t) name value) result ∧
      Mutated identify (Serves load) t' (t.find keyBit name) result := by
  have hleaf := internLeaf_interned hinj (Serves load) contentAddressed_empty name value
  by_cases hempty : t = .empty
  · subst hempty
    refine ⟨.leaf name value, _, trivial, Trie.updates_empty _ _, ?_,
      hleaf.mutated (fun h => by cases h) none⟩
    unfold insert
    cases internLeaf identify name value ∅ with
    | error | ok => exact returns_some _
  · obtain ⟨found, hnearest, hdescend⟩ := descend_returns name ⟨hcanonical, hfits, hstored, hempty⟩
    rw [catalogRoot_of_ne identify hempty]
    rcases hleaf with ⟨hfits', records, hok, haddressed, hrecords⟩ | ⟨hfits', e, herror⟩
    · obtain ⟨t', hcanonical', hupdates, hmutated⟩ :=
        insertAt_mutated hinj hcanonical hfits hstored hempty hfits' haddressed hrecords hnearest
      refine ⟨t', _, hcanonical', hupdates, ?_, hmutated⟩
      have hreturns := (hdescend []).map fun found =>
        found >>= insertAt identify (rootOf identify t) name value
          (rootOf identify (.leaf name value)) records
      unfold insert
      rw [hok]
      exact hreturns
    · -- No trie with this entry fits.
      obtain ⟨t', hcanonical', hupdates⟩ := exists_updates hcanonical hnearest value
      refine ⟨t', .error e, hcanonical', hupdates, ?_,
        .inr ⟨fun h => hfits' (h.of_has hupdates.has_self), e, rfl⟩⟩
      unfold insert
      rw [herror]
      exact returns_some _

end Insertion

end Astrid.Catalog
