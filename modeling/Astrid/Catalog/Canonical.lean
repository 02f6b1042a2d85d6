import Astrid.Catalog.Remove

/-!
# The catalog depends on its map only

The tries that insertions and deletions lead to are canonical, and so are the tries that
`buildCatalog` makes of a whole map: it splits a sorted range at the first bit where its ends
differ, which is the branch position, and builds both parts. There is one canonical trie for
a map, so the root does not remember in which order the names came and went.
-/

namespace Astrid.Catalog

open Std List ExtTreeMap

variable {Id : Type} {m : FMap ContentName (CatalogValue Id)}

section Build

variable [Key Id] {identify : ObjectRecord Id → Id}

/-! ## Building -/

variable {t : CatalogTrie Id}

omit [Key Id] in
theorem entries_ne_nil (hcanonical : t.Canonical keyBit) (hne : t ≠ .empty) :
    t.entries [false, true] ≠ [] := by
  obtain ⟨_, _, hhas⟩ := hcanonical.exists_has hne
  exact ne_nil_of_mem ((Trie.mem_entries mem_digits).2 hhas)

variable {first : ContentName × CatalogValue Id} {bit : Nat}

/-- A range with two ends is split where they differ. -/
theorem runTask_range {left right : List (ContentName × CatalogValue Id)} (hright : right ≠ [])
    (hbit : firstDifferingBit first.1 (right.getLast hright).1 =
      (.ok bit : Except (CatalogError Id) Nat)) (hzero : ∀ entry ∈ left, keyBit entry.1 bit = false)
    (hone : ∀ entry ∈ right, keyBit entry.1 bit = true) (state : BuildState Id) :
    runTask identify (.range (first :: (left ++ right))) state =
      .ok ⟨.range (first :: left) :: .range right :: .join bit :: state.tasks, state.results,
        state.records⟩ := by
  have htake : (left ++ right).takeWhile (fun entry => !keyBit entry.1 bit) = left := by
    rw [takeWhile_append_of_pos fun entry hentry => by rw [hzero entry hentry]; rfl]
    obtain ⟨head, tail, rfl⟩ := exists_cons_of_ne_nil hright
    rw [takeWhile_cons_of_neg (by rw [hone head mem_cons_self]; decide), append_nil]
  have hdrop : (left ++ right).dropWhile (fun entry => !keyBit entry.1 bit) = right := by
    rw [dropWhile_append_of_pos fun entry hentry => by rw [hzero entry hentry]; rfl]
    obtain ⟨head, _, rfl⟩ := exists_cons_of_ne_nil hright
    rw [dropWhile_cons_of_neg (by rw [hone head mem_cons_self]; decide)]
  have hlast := getLast_append_of_ne_nil
    (append_ne_nil_of_right_ne_nil left hright) hright
  obtain ⟨_, _, hrest⟩ :=
    exists_cons_of_ne_nil (append_ne_nil_of_right_ne_nil left hright)
  simp only [hrest] at htake hdrop hlast ⊢
  simp only [runTask, hlast, hbit, ok_bind, htake, hdrop, require_pos hright]
  rfl

theorem buildLoop_task {task : BuildTask Id} {tasks : List (BuildTask Id)}
    {results : List (CatalogRoot Id)} {records : Records Id} {next : BuildState Id}
    (h : runTask identify task ⟨tasks, results, records⟩ = .ok next) :
    (buildLoop identify).run ⟨task :: tasks, results, records⟩ = (buildLoop identify).run next := by
  apply Loop.run_again
  show buildTurn identify ⟨task :: tasks, results, records⟩ = .again next
  simp only [buildTurn, h]

omit [Key Id] in
/-- The ends of a branch's entries first differ at its position. -/
theorem firstDifferingBit_node {child : Bool → CatalogTrie Id}
    (hcanonical : (Trie.node bit child).Canonical keyBit) (hbit : bit < wordLimit)
    {last : ContentName × CatalogValue Id} (hfirst : (child false).Has first.1 first.2)
    (hlast : (child true).Has last.1 last.2) :
    firstDifferingBit first.1 last.1 = (.ok bit : Except (CatalogError Id) Nat) := by
  have hdiffer : FirstDiffer first.1 last.1 bit := by
    refine ⟨hcanonical.2.agree hfirst hlast, ?_⟩
    rw [hcanonical.2.digit_eq hfirst, hcanonical.2.digit_eq hlast]
    exact Bool.false_ne_true
  rw [firstDifferingBit_eq hdiffer, if_pos hbit]

/-- A range of the entries of a trie becomes its root. -/
theorem buildLoop_range (hinj : Function.Injective identify) (hcanonical : t.Canonical keyBit)
    (hfits : Accounted t) (hne : t ≠ .empty) :
    ∀ {records : Records Id}, ContentAddressed identify records →
      ∀ (tasks : List (BuildTask Id)) (results : List (CatalogRoot Id)),
      ∃ records', ContentAddressed identify records' ∧
        (buildLoop identify).run ⟨.range (t.entries [false, true]) :: tasks, results, records⟩ =
          (buildLoop identify).run ⟨tasks, rootOf identify t :: results, records'⟩ := by
  induction t with
  | empty => exact absurd rfl hne
  | leaf name value =>
    intro records haddressed tasks results
    rcases internLeaf_interned hinj (fun _ _ => True) haddressed name value with
      ⟨_, records', hok, haddressed', _⟩ | ⟨hover, _⟩
    · refine ⟨records', haddressed', ?_⟩
      apply buildLoop_task
      show (internLeaf identify name value records >>= fun leaf => _) = _
      rw [hok]
      rfl
    · exact absurd hfits hover
  | node bit child ih =>
    intro records haddressed tasks results
    have hleft := entries_ne_nil (hcanonical.1 false) (child_ne_empty hcanonical false)
    have hright := entries_ne_nil (hcanonical.1 true) (child_ne_empty hcanonical true)
    have hhas : ∀ side entry, entry ∈ (child side).entries [false, true] →
        (child side).Has entry.1 entry.2 := fun side entry h => (Trie.mem_entries mem_digits).1 h
    have hdigit : ∀ side entry, entry ∈ (child side).entries [false, true] →
        keyBit entry.1 bit = side := fun side entry h => hcanonical.2.digit_eq (hhas side entry h)
    obtain ⟨first, left, hfirst⟩ := exists_cons_of_ne_nil hleft
    have hmem : first ∈ (child false).entries [false, true] := by
      rw [hfirst]
      exact mem_cons_self
    -- The task leaves both sides and their join.
    have hsplit : runTask identify
        (.range (first :: (left ++ (child true).entries [false, true])))
        ⟨tasks, results, records⟩ =
        .ok ⟨.range (first :: left) :: .range ((child true).entries [false, true]) ::
          .join bit :: tasks, results, records⟩ := by
      apply runTask_range hright
      · exact firstDifferingBit_node hcanonical hfits.positioned.1 (hhas false first hmem)
          (hhas true _ (getLast_mem hright))
      · intro entry hentry
        apply hdigit false entry
        rw [hfirst]
        exact mem_cons_of_mem _ hentry
      · exact hdigit true
    obtain ⟨_, haddressed₁, hrun₁⟩ := ih false (hcanonical.1 _) (hfits.child _)
      (child_ne_empty hcanonical _) haddressed
      (.range ((child true).entries [false, true]) :: .join bit :: tasks) results
    obtain ⟨records₂, haddressed₂, hrun₂⟩ := ih true (hcanonical.1 _) (hfits.child _)
      (child_ne_empty hcanonical _) haddressed₁ (.join bit :: tasks)
      (rootOf identify (child false) :: results)
    have hinterned : Interned identify (fun _ _ => True) (.node bit child) _ :=
      internBranch_interned hinj haddressed₂ hfits.positioned.1 hfits.positioned.2
        fun side => (stored_true (child side)).mono fun _ _ => Or.inl
    rcases hinterned with ⟨_, records', hok, haddressed', _⟩ | ⟨hover, _⟩
    · refine ⟨records', haddressed', ?_⟩
      have hjoin : runTask identify (.join bit)
          ⟨tasks, rootOf identify (child true) :: rootOf identify (child false) :: results,
            records₂⟩ = .ok ⟨tasks, rootOf identify (.node bit child) :: results, records'⟩ := by
        show (internBranch identify bit _ _ records₂ >>= fun branch => _) = _
        rw [hok]
        rfl
      rw [entries_node, hfirst, cons_append, buildLoop_task hsplit, ← hfirst, hrun₁, hrun₂,
        buildLoop_task hjoin]
    · exact absurd hfits hover

end Build

/-! ## Tries of maps -/

section Maps

/-- A canonical trie with the entries of a map. -/
structure Represents (t : CatalogTrie Id) (m : FMap ContentName (CatalogValue Id)) : Prop where
  canonical : t.Canonical keyBit
  has_iff : ∀ name value, t.Has name value ↔ m[name]? = some value

namespace Represents

variable {t t' : CatalogTrie Id}

theorem empty : Represents (.empty : CatalogTrie Id) ∅ := by
  refine ⟨trivial, fun name value => ⟨False.elim, ?_⟩⟩
  intro h
  cases h

variable {name : ContentName}

section

variable (h : Represents t m)

include h

theorem insert {value : CatalogValue Id} (hcanonical : t'.Canonical keyBit)
    (hupdates : Trie.Updates name value t t') : Represents t' (m.insert name value) := by
  refine ⟨hcanonical, fun name' value' => ?_⟩
  rw [hupdates, getElem?_insert_of, h.has_iff]
  by_cases hname : name = name'
  · subst hname
    simp [eq_comm]
  · simp [hname, Ne.symm hname]

theorem erase (hcanonical : t'.Canonical keyBit) (herases : Trie.Erases name t t') :
    Represents t' (m.erase name) := by
  refine ⟨hcanonical, fun name' value' => ?_⟩
  rw [herases, getElem?_erase_of, h.has_iff]
  by_cases hname : name = name'
  · subst hname
    simp
  · simp [hname, Ne.symm hname]

/-- There is one trie for a map. -/
theorem unique (h' : Represents t' m) : t = t' := by
  refine Trie.Canonical.unique h.canonical h'.canonical fun name value => ?_
  rw [h.has_iff, h'.has_iff]

theorem find_eq (name : ContentName) : t.find keyBit name = m[name]? := by
  refine Option.ext fun value => ?_
  rw [h.canonical.find_eq_some, h.has_iff]

theorem entries_eq : t.entries [false, true] = m.toList := by
  apply eq_toList_of_sorted
  · have hdigits : [false, true].Pairwise (· < ·) := by decide
    exact (h.canonical.sorted mem_digits hdigits).imp fun hbefore => compare_lt_of_before hbefore
  · intro name value
    rw [Trie.mem_entries mem_digits, h.has_iff]

theorem ne_empty (hne : t ≠ .empty) : m ≠ ∅ := by
  intro hm
  apply entries_ne_nil h.canonical hne
  rw [h.entries_eq, hm]
  exact toList_eq_nil_iff.2 rfl

end

theorem eq_empty (h : Represents (.empty : CatalogTrie Id) m) : m = ∅ :=
  toList_eq_nil_iff.1 h.entries_eq.symm

end Represents

/-! ## Totals -/

/-- The totals of a map: file bytes, file and name bytes, and names. -/
def totals (m : FMap ContentName (CatalogValue Id)) : CatalogSummary :=
  ⟨(m.toList.map fun entry => entry.2.logicalBytes.toNat).sum,
    (m.toList.map fun entry => entry.2.logicalBytes.toNat + entry.1.bytes.length).sum,
    m.toList.length⟩

theorem summaryOf_eq (t : CatalogTrie Id) :
    summaryOf t = ⟨((t.entries [false, true]).map fun entry => entry.2.logicalBytes.toNat).sum,
        ((t.entries [false, true]).map fun entry =>
          entry.2.logicalBytes.toNat + entry.1.bytes.length).sum,
        (t.entries [false, true]).length⟩ := by
  induction t with
  | empty | leaf => rfl
  | node _ _ ih =>
    rw [summaryOf, ih, ih, entries_node]
    simp only [CatalogSummary.add, map_append, sum_append, length_append]

variable {t : CatalogTrie Id}

theorem Represents.summary_eq (h : Represents t m) : summaryOf t = totals m := by
  rw [summaryOf_eq, h.entries_eq, totals]

/-- Totals and branch positions of a map fit their fields. -/
structure Accountable (m : FMap ContentName (CatalogValue Id)) : Prop where
  fits : (totals m).Fits
  positions : ∀ name ∈ m, ∀ name' ∈ m, ∀ index, FirstDiffer name name' index → index < wordLimit

/-- The branch positions are the first differing bits of the names. -/
theorem positioned_iff (h : t.Canonical keyBit) :
    Positioned t ↔ ∀ {name name' value value'}, t.Has name value → t.Has name' value' →
      ∀ index, FirstDiffer name name' index → index < wordLimit := by
  induction t with
  | empty => exact ⟨fun _ _ _ _ _ hhas => hhas.elim, fun _ => trivial⟩
  | leaf =>
    refine ⟨?_, fun _ => trivial⟩
    intro _ name name' value value' hhas hhas' index hindex
    exact absurd (hhas.1.trans hhas'.1.symm) hindex.ne
  | node bit _ ih =>
    constructor
    · intro hpositioned name name' value value' hhas hhas' index hindex
      obtain ⟨side, hside⟩ := hhas
      obtain ⟨side', hside'⟩ := hhas'
      by_cases hsame : side = side'
      · subst hsame
        exact (ih side (h.1 side)).1 (hpositioned.2 side) hside hside' index hindex
      -- Names of both sides part here.
      have hhere : FirstDiffer name name' bit := by
        refine ⟨h.2.agree hside hside', ?_⟩
        rw [h.2.digit_eq hside, h.2.digit_eq hside']
        exact hsame
      rw [hindex.unique hhere]
      exact hpositioned.1
    · intro hall
      obtain ⟨side, side', name, name', value, value', hne, hside, hside'⟩ := h.2.two
      refine ⟨?_, fun side => (ih side (h.1 side)).2 ?_⟩
      · refine hall ⟨side, hside⟩ ⟨side', hside'⟩ bit ⟨h.2.agree hside hside', ?_⟩
        rw [h.2.digit_eq hside, h.2.digit_eq hside']
        exact hne
      · intro name name' value value' hhas hhas'
        exact hall ⟨side, hhas⟩ ⟨side, hhas'⟩

theorem Represents.accounted_iff (h : Represents t m) : Accounted t ↔ Accountable m := by
  constructor
  · intro hfits
    refine ⟨h.summary_eq ▸ hfits.fits, fun name hname name' hname' => ?_⟩
    obtain ⟨value, hvalue⟩ := mem_iff_getElem?.1 hname
    obtain ⟨value', hvalue'⟩ := mem_iff_getElem?.1 hname'
    exact (positioned_iff h.canonical).1 hfits.positioned ((h.has_iff _ _).2 hvalue)
      ((h.has_iff _ _).2 hvalue')
  · intro hfits
    refine ⟨h.summary_eq.symm ▸ hfits.fits, (positioned_iff h.canonical).2 ?_⟩
    intro name name' value value' hhas hhas'
    exact hfits.positions name (mem_iff_getElem?.2 ⟨value, (h.has_iff _ _).1 hhas⟩) name'
      (mem_iff_getElem?.2 ⟨value', (h.has_iff _ _).1 hhas'⟩)

end Maps

end Astrid.Catalog
