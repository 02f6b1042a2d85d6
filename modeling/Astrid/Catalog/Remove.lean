import Astrid.Catalog.Mutate

/-!
# Deletion from the catalog

Without a name, the branch above its leaf has one side left, and that side takes the place of
the branch. What remains is canonical, has no larger totals, and so is always stored.
-/

namespace Astrid.Catalog

open Std List

section Removal

variable {Id : Type} {identify : ObjectRecord Id → Id}

/-! ## The trie without a name -/

def isLeaf : CatalogTrie Id → Bool
  | .leaf _ _ => true
  | _ => false

/-- The trie without the leaf on the path of a name. -/
def remove (name : ContentName) : CatalogTrie Id → CatalogTrie Id
  | .empty => .empty
  | .leaf _ _ => .empty
  | .node bit child =>
    if isLeaf (child (keyBit name bit)) then child (!keyBit name bit)
    else .node bit (Function.update child (keyBit name bit) (remove name (child (keyBit name bit))))

variable {t : CatalogTrie Id}

theorem exists_leaf (h : isLeaf t = true) :
    ∃ name value, t = .leaf name value := by
  cases t with
  | empty => cases h
  | leaf name value => exact ⟨name, value, rfl⟩
  | node => cases h

variable {bit : Nat} {child : Bool → CatalogTrie Id}

/-- A canonical branch has a name other than a given one. -/
theorem exists_other (h : (Trie.node bit child).Canonical keyBit) (name : ContentName) :
    ∃ name' value', name' ≠ name ∧ (Trie.node bit child).Has name' value' := by
  obtain ⟨d, d', k, k', v, v', hne, hk, hk'⟩ := h.2.two
  by_cases hname : k = name
  · refine ⟨k', v', ?_, d', hk'⟩
    intro hname'
    apply hne
    rw [← h.2.digit_eq hk, ← h.2.digit_eq hk', hname, hname']
  · exact ⟨k, v, hname, d, hk⟩

variable {name : ContentName}

theorem canonical_remove (h : t.Canonical keyBit) {value : CatalogValue Id}
    (hhas : t.Has name value) :
    (remove name t).Canonical keyBit ∧ Trie.Erases name t (remove name t) := by
  induction t with
  | empty => cases hhas
  | leaf =>
    obtain ⟨rfl, rfl⟩ := hhas
    refine ⟨trivial, fun k' v' => ⟨False.elim, ?_⟩⟩
    intro ⟨hne, hkey, _⟩
    exact hne hkey
  | node bit child ih =>
    have hchild : (child (keyBit name bit)).Has name value := by
      obtain ⟨side, hside⟩ := hhas
      obtain rfl := h.2.digit_eq hside
      exact hside
    rw [remove]
    split
    next hleaf =>
      obtain ⟨_, old, hold⟩ := exists_leaf hleaf
      refine ⟨h.1 _, fun k' v' => ⟨?_, ?_⟩⟩
      · -- A name on the other side has another bit.
        intro hk'
        refine ⟨?_, _, hk'⟩
        rintro rfl
        exact Bool.self_ne_not _ (h.2.digit_eq hk')
      · intro ⟨hne, side, hk'⟩
        by_cases hside : side = keyBit name bit
        · subst hside
          rw [hold] at hchild hk'
          exact absurd (hk'.1.trans hchild.1.symm) hne
        · rw [Bool.eq_not_of_ne hside] at hk'
          exact hk'
    next hleaf =>
      obtain ⟨hcanonical, herases⟩ := ih _ (h.1 _) hchild
      refine Trie.canonical_erase_child h hcanonical ?_ herases
      -- The side is a branch itself, with another name.
      cases hside : child (keyBit name bit) with
      | empty =>
        rw [hside] at hchild
        cases hchild
      | leaf =>
        rw [hside] at hleaf
        exact absurd rfl hleaf
      | node =>
        have hbelow := h.1 (keyBit name bit)
        rw [hside] at hbelow
        obtain ⟨other, old, hother, hold⟩ := exists_other hbelow name
        rw [hside] at herases
        exact ⟨other, old, (herases other old).2 ⟨hother, hold⟩⟩

/-! ## Totals -/

structure CatalogSummary.Le (small large : CatalogSummary) : Prop where
  logicalBytes : small.logicalBytes ≤ large.logicalBytes
  quotaBytes : small.quotaBytes ≤ large.quotaBytes
  entries : small.entries ≤ large.entries

variable {a b : CatalogSummary}

theorem CatalogSummary.Le.add {c d : CatalogSummary} (h : a.Le c) (h' : b.Le d) :
    (a.add b).Le (c.add d) :=
  ⟨Nat.add_le_add h.logicalBytes h'.logicalBytes, Nat.add_le_add h.quotaBytes h'.quotaBytes,
    Nat.add_le_add h.entries h'.entries⟩

theorem CatalogSummary.Le.refl (a : CatalogSummary) : a.Le a :=
  ⟨le_rfl, le_rfl, le_rfl⟩

theorem CatalogSummary.Le.fits (h : a.Le b) (hb : b.Fits) : a.Fits :=
  ⟨Nat.lt_of_le_of_lt h.logicalBytes hb.logicalBytes_lt,
    Nat.lt_of_le_of_lt h.quotaBytes hb.quotaBytes_lt, Nat.lt_of_le_of_lt h.entries hb.entries_lt⟩

theorem summary_child_le (bit : Nat) (child : Bool → CatalogTrie Id) (side : Bool) :
    (summaryOf (child side)).Le (summaryOf (.node bit child)) := by
  cases side with
  | false => exact ⟨Nat.le_add_right _ _, Nat.le_add_right _ _, Nat.le_add_right _ _⟩
  | true => exact ⟨Nat.le_add_left _ _, Nat.le_add_left _ _, Nat.le_add_left _ _⟩

theorem summary_update_le {side : Bool} (h : (summaryOf t).Le (summaryOf (child side))) :
    (summaryOf (.node bit (Function.update child side t))).Le (summaryOf (.node bit child)) := by
  cases side with
  | false => exact CatalogSummary.Le.add (by simpa using h) (by simpa using .refl _)
  | true => exact CatalogSummary.Le.add (by simpa using .refl _) (by simpa using h)

theorem summary_remove_le (name : ContentName) (t : CatalogTrie Id) :
    (summaryOf (remove name t)).Le (summaryOf t) := by
  induction t with
  | empty => exact .refl _
  | leaf => exact ⟨Nat.zero_le _, Nat.zero_le _, Nat.zero_le _⟩
  | node bit child ih =>
    rw [remove]
    split
    next => exact summary_child_le bit child _
    next => exact summary_update_le (ih _)

theorem positioned_remove (name : ContentName) (h : Positioned t) :
    Positioned (remove name t) := by
  induction t with
  | empty | leaf => trivial
  | node _ _ ih =>
    rw [remove]
    split
    next => exact h.2 _
    next => exact ⟨h.1, child_update (ih _ (h.2 _)) h.2 _⟩

theorem Accounted.remove (h : Accounted t) (name : ContentName) :
    Accounted (remove name t) :=
  ⟨(summary_remove_le name t).fits h.fits, positioned_remove name h.positioned⟩

/-! ## The deletion -/

/-- The path of a name without its last branch, with the sibling at its end. -/
theorem remove_eq_plug (identify : ObjectRecord Id → Id) (name : ContentName)
    (hcanonical : t.Canonical keyBit) (hpath : crumbs name t ≠ []) :
    ∃ last sibling, ((crumbs name t).map (Crumb.branch identify)).getLast? = some last ∧
      last.sibling = rootOf identify sibling ∧
      (∀ {P : CatalogTrie Id → Prop}, (∀ bit child side, P (.node bit child) → P (child side)) →
        P t → P sibling) ∧
      plug (crumbs name t).dropLast sibling = remove name t := by
  induction t with
  | empty | leaf => exact absurd rfl hpath
  | node bit child ih =>
    have hbelow := ih (keyBit name bit) (hcanonical.1 _)
    rw [crumbs, remove]
    cases hside : child (keyBit name bit) with
    | empty => exact absurd hside (child_ne_empty hcanonical _)
    | leaf =>
      refine ⟨_, child (!keyBit name bit), rfl, ?_, fun hchild h => hchild _ _ _ h, rfl⟩
      cases keyBit name bit with
      | false | true => rfl
    | node =>
      rw [hside] at hbelow
      obtain ⟨last, sibling, hlast, hroot, hpart, hplug⟩ := hbelow (cons_ne_nil _ _)
      refine ⟨last, sibling, ?_, hroot, fun hchild h => hpart hchild ?_, ?_⟩
      · rw [map_cons, getLast?_cons, hlast]
        rfl
      · rw [← hside]
        exact hchild _ _ _ h
      · rw [dropLast_cons_of_ne_nil (by exact cons_ne_nil _ _), plug, hplug]
        rfl

variable [Key Id] {load : Load Id}

section

variable (hinj : Function.Injective identify) (hcanonical : t.Canonical keyBit)
  (hfits : Accounted t)

include hinj hcanonical hfits

theorem deleteAt_mutated {base : Id → ObjectRecord Id → Prop} (hstored : Stored identify base t)
    (hne : t ≠ .empty) {found : ContentName × CatalogValue Id}
    (hnearest : t.nearest keyBit name = some found) :
    ∃ t', t'.Canonical keyBit ∧ Trie.Erases name t t' ∧ Accounted t' ∧
      Mutated identify base t' (t.find keyBit name) (deleteAt identify (rootOf identify t) name
        ⟨(crumbs name t).map (Crumb.branch identify), found.1, found.2⟩) := by
  have hhas : t.Has found.1 found.2 := Trie.nearest_has hnearest
  have hsound := crumbs_sound name hfits.positioned hstored
  rw [Trie.find_of_nearest hnearest]
  unfold deleteAt
  split_ifs with hname
  · rw [hname] at hhas
    obtain ⟨hremove, herases⟩ := canonical_remove hcanonical hhas
    refine ⟨remove name t, hremove, herases, hfits.remove name, ?_⟩
    by_cases hpath : crumbs name t = []
    · -- The last name of the catalog.
      have hempty : remove name t = .empty := by
        cases t with
        | empty | leaf => rfl
        | node => cases hpath
      rw [hpath, hempty]
      exact .inl ⟨accounted_empty, ∅, rfl, contentAddressed_empty, trivial⟩
    · obtain ⟨_, sibling, hlast, hroot, hpart, hplug⟩ :=
        remove_eq_plug identify name hcanonical hpath
      rw [hlast]
      dsimp only
      rw [hroot, ← hplug, ← map_dropLast]
      have hsibling : Accounted sibling := hpart (fun _ _ side h => h.child side) hfits
      have hbeside : Stored identify base sibling := hpart (fun _ _ side h => h.2 side) hstored
      refine (rebuildPath_interned hinj (fun c hc => hsound c (mem_of_mem_dropLast hc))
        hsibling contentAddressed_empty (hbeside.mono fun _ _ => Or.inl)).mutated ?_ _
      rw [hplug]
      cases t with
      | empty | leaf => exact absurd rfl hpath
      | node =>
        obtain ⟨other, old, hother, hold⟩ := exists_other hcanonical name
        exact ne_empty_of_has ((herases other old).2 ⟨hother, hold⟩)
  · refine ⟨t, hcanonical, ?_, hfits, .inl ⟨hfits, ∅, ?_, contentAddressed_empty,
      hstored.mono fun _ _ => Or.inl⟩⟩
    · -- The name is not there.
      intro k' v'
      refine ⟨fun hk' => ⟨?_, hk'⟩, fun h => h.2⟩
      rintro rfl
      rw [hcanonical.nearest_of_has hk', Option.some.injEq] at hnearest
      exact hname (congrArg Prod.fst hnearest).symm
    · rw [catalogRoot_of_ne identify hne]

/-- A deletion leads to the trie without the name. -/
theorem delete_returns (hstored : Stored identify (Serves load) t) (name : ContentName) :
    ∃ t' result, t'.Canonical keyBit ∧ Trie.Erases name t t' ∧ Accounted t' ∧
      Returns (delete load identify (catalogRoot identify t) name) result ∧
      Mutated identify (Serves load) t' (t.find keyBit name) result := by
  by_cases hempty : t = .empty
  · subst hempty
    refine ⟨.empty, _, trivial, fun k' v' => ⟨False.elim, fun h => h.2⟩, hfits,
      returns_some _, .inl ⟨hfits, ∅, rfl, contentAddressed_empty, trivial⟩⟩
  obtain ⟨found, hnearest, hdescend⟩ := descend_returns name
    ⟨hcanonical, hfits, hstored, hempty⟩
  obtain ⟨t', hcanonical', herases, hfits', hmutated⟩ :=
    deleteAt_mutated hinj hcanonical hfits hstored hempty hnearest
  refine ⟨t', _, hcanonical', herases, hfits', ?_, hmutated⟩
  rw [catalogRoot_of_ne identify hempty]
  exact (hdescend []).map fun found => found >>= deleteAt identify (rootOf identify t) name

end

end Removal

end Astrid.Catalog
