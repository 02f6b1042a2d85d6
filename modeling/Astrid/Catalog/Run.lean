import Astrid.Catalog.Canonical

/-!
# Histories of a catalog

A catalog starts empty, and each call adds the records it made to the store and moves the
root. Along every such history the root is that of the trie of the map that the calls
describe, and the store has the whole trie. So all reads answer from the map, the root is the
one a fresh build of the map gives, and a name that comes and goes leaves the root as it was.
-/

namespace Astrid.Catalog

open Std List ExtTreeMap

section Run

variable {Id : Type} [Key Id] (identify : ObjectRecord Id → Id)

/-- Reads of the store. -/
def serve (store : Records Id) : Load Id :=
  fun id => okOr store[id]? (.projection (.missingObject id))

/-- The store and the root after a history, with the map that the calls describe. A refused
call changes nothing; the store may also gain records of others. -/
inductive CatalogRun :
    Records Id → Option (CatalogRoot Id) → FMap ContentName (CatalogValue Id) → Prop
  | empty : CatalogRun ∅ none ∅
  | written {store root m} (run : CatalogRun store root m) (others : Records Id)
      (haddressed : ContentAddressed identify others) : CatalogRun (store ∪ others) root m
  | inserted {store root m} (run : CatalogRun store root m) (name : ContentName)
      (value : CatalogValue Id) (mutation : CatalogMutation Id)
      (hok : Returns (insert (serve store) identify root name value) (.ok mutation)) :
      CatalogRun (store ∪ mutation.records) mutation.root (m.insert name value)
  | deleted {store root m} (run : CatalogRun store root m) (name : ContentName)
      (mutation : CatalogMutation Id)
      (hok : Returns (delete (serve store) identify root name) (.ok mutation)) :
      CatalogRun (store ∪ mutation.records) mutation.root (m.erase name)

/-- The root is that of the trie of a map, and the store has the trie. -/
structure Holds (store : Records Id) (root : Option (CatalogRoot Id))
    (m : FMap ContentName (CatalogValue Id)) (t : CatalogTrie Id) : Prop where
  represents : Represents t m
  accounted : Accounted t
  addressed : ContentAddressed identify store
  stored : Stored identify (Serves (serve store)) t
  root_eq : root = catalogRoot identify t

variable {identify} {store : Records Id} {root : Option (CatalogRoot Id)}
  {m : FMap ContentName (CatalogValue Id)}

theorem serves_iff {id : Id} {record : ObjectRecord Id} :
    Serves (serve store) id record ↔ store[id]? = some record := by
  unfold Serves serve
  rw [okOr_eq_ok]

variable {t : CatalogTrie Id}

theorem stored_union (hinj : Function.Injective identify) {others : Records Id}
    (haddressed : ContentAddressed identify store) (haddressed' : ContentAddressed identify others)
    (h : Stored identify (Joined (Serves (serve store)) others) t) :
    Stored identify (Serves (serve (store ∪ others))) t := by
  refine h.mono fun id record hrecord => ?_
  rw [serves_iff, haddressed.get_union haddressed' hinj]
  rcases hrecord with hold | hnew
  · exact .inl (serves_iff.1 hold)
  · exact .inr hnew

variable {mutation : CatalogMutation Id}

/-- Where a mutation leads. -/
theorem Mutated.holds (hinj : Function.Injective identify)
    (haddressed : ContentAddressed identify store) (hrepresents : Represents t m)
    {previous : Option (CatalogValue Id)}
    (h : Mutated identify (Serves (serve store)) t previous (.ok mutation)) :
    Holds identify (store ∪ mutation.records) mutation.root m t ∧ mutation.previous = previous := by
  rcases h with ⟨hfits, _, hok, haddressed', hstored⟩ | ⟨_, _, herror⟩
  · cases hok
    exact ⟨⟨hrepresents, hfits, haddressed.union haddressed',
      stored_union hinj haddressed haddressed' hstored, rfl⟩, rfl⟩
  · cases herror

section Steps

variable {t : CatalogTrie Id} (hinj : Function.Injective identify)
  (h : Holds identify store root m t)
include hinj h

theorem Holds.insert_returns (name : ContentName) (value : CatalogValue Id) :
    ∃ t' result, Represents t' (m.insert name value) ∧
      Returns (insert (serve store) identify root name value) result ∧
      Mutated identify (Serves (serve store)) t' m[name]? result := by
  obtain ⟨t', result, hcanonical, hupdates, hreturns, hmutated⟩ :=
    Catalog.insert_returns hinj h.represents.canonical h.accounted h.stored name value
  rw [← h.root_eq] at hreturns
  rw [h.represents.find_eq] at hmutated
  exact ⟨t', result, h.represents.insert hcanonical hupdates, hreturns, hmutated⟩

theorem Holds.delete_returns (name : ContentName) :
    ∃ t' mutation, Represents t' (m.erase name) ∧
      Returns (delete (serve store) identify root name) (.ok mutation) ∧
      Mutated identify (Serves (serve store)) t' m[name]? (.ok mutation) := by
  obtain ⟨t', _, hcanonical, herases, hfits, hreturns, hmutated⟩ :=
    Catalog.delete_returns hinj h.represents.canonical h.accounted h.stored name
  rw [← h.root_eq] at hreturns
  rw [h.represents.find_eq] at hmutated
  have hrepresents := h.represents.erase hcanonical herases
  rcases hmutated with ⟨_, records, rfl, hrest⟩ | ⟨hover, _⟩
  · exact ⟨t', _, hrepresents, hreturns, .inl ⟨hfits, records, rfl, hrest⟩⟩
  · exact absurd hfits hover

variable {name : ContentName}

theorem Holds.inserted {value : CatalogValue Id}
    (hok : Returns (insert (serve store) identify root name value) (.ok mutation)) :
    ∃ t', Holds identify (store ∪ mutation.records) mutation.root (m.insert name value) t' := by
  obtain ⟨t', _, hrepresents, hreturns, hmutated⟩ := h.insert_returns hinj name value
  obtain rfl := hreturns.unique hok
  exact ⟨t', (hmutated.holds hinj h.addressed hrepresents).1⟩

theorem Holds.deleted (hok : Returns (delete (serve store) identify root name) (.ok mutation)) :
    ∃ t', Holds identify (store ∪ mutation.records) mutation.root (m.erase name) t' := by
  obtain ⟨t', _, hrepresents, hreturns, hmutated⟩ := h.delete_returns hinj name
  cases hreturns.unique hok
  exact ⟨t', (hmutated.holds hinj h.addressed hrepresents).1⟩

end Steps

/-- Along every history. -/
theorem CatalogRun.holds (hinj : Function.Injective identify)
    (h : CatalogRun identify store root m) : ∃ t, Holds identify store root m t := by
  induction h with
  | empty => exact ⟨.empty, .empty, accounted_empty, contentAddressed_empty, trivial, rfl⟩
  | written _ _ haddressed ih =>
    obtain ⟨t, ht⟩ := ih
    refine ⟨t, ht.represents, ht.accounted, ht.addressed.union haddressed, ?_, ht.root_eq⟩
    exact stored_union hinj ht.addressed haddressed (ht.stored.mono fun _ _ => Or.inl)
  | inserted _ _ _ _ hok ih =>
    obtain ⟨t, ht⟩ := ih
    exact ht.inserted hinj hok
  | deleted _ _ _ hok ih =>
    obtain ⟨_, ht⟩ := ih
    exact ht.deleted hinj hok

/-! ## Reads -/

/-- The entries of a map, in the order of their names. -/
def listed (m : FMap ContentName (CatalogValue Id)) : List (ContentEntry Id) :=
  m.toList.map fun entry => ⟨entry.1, entry.2.file, entry.2.logicalBytes⟩

/-- What a catalog owes to the map it stands for. -/
structure Answers (identify : ObjectRecord Id → Id) (store : Records Id)
    (root : Option (CatalogRoot Id)) (m : FMap ContentName (CatalogValue Id)) : Prop where
  built : ∃ records, buildCatalog identify m = .ok (root, records)
  summary : root.elim ⟨0, 0, 0⟩ CatalogRoot.summary = totals m
  lookup : ∀ name, Returns (lookup (serve store) root name) (.ok m[name]?)
  list : Returns (list (serve store) root) (.ok (listed m))
  listPrefix : ∀ namePrefix : ContentName, namePrefix.bytes.length * 8 < wordLimit →
    Returns (listPrefix (serve store) root namePrefix)
      (.ok ((listed m).filter fun entry => namePrefix.bytes <+: entry.name.bytes))
  prefixExists : ∀ namePrefix : ContentName, namePrefix.bytes.length * 8 < wordLimit →
    ∃ found, Returns (prefixExists (serve store) root namePrefix) (.ok found) ∧
      (found = true ↔ ∃ name ∈ m, namePrefix.bytes <+: name.bytes)
  insert : ∀ name value, ∃ result, Returns (insert (serve store) identify root name value) result ∧
    ((∃ mutation, result = .ok mutation) ↔ Accountable (m.insert name value))
  delete : ∀ name, ∃ mutation, Returns (delete (serve store) identify root name) (.ok mutation)
  restore : ∀ name value mutation, m[name]? = none →
    Returns (Catalog.insert (serve store) identify root name value) (.ok mutation) →
    ∃ mutation', Returns (Catalog.delete (serve (store ∪ mutation.records)) identify mutation.root
      name) (.ok mutation') ∧ mutation'.root = root

section Reads

variable {t : CatalogTrie Id} (h : Holds identify store root m t)
include h

theorem Holds.built (hinj : Function.Injective identify) :
    ∃ records, buildCatalog identify m = .ok (root, records) := by
  have hroot := h.root_eq
  unfold buildCatalog
  by_cases hempty : t = .empty
  · subst hempty
    rw [h.represents.eq_empty, hroot]
    exact ⟨∅, rfl⟩
  have hm : m.isEmpty = false := by
    rw [Bool.eq_false_iff]
    intro hm
    exact h.represents.ne_empty hempty (isEmpty_iff.1 hm)
  obtain ⟨records, _, hrun⟩ := buildLoop_range hinj h.represents.canonical h.accounted hempty
    contentAddressed_empty [] []
  rw [h.represents.entries_eq] at hrun
  refine ⟨records, ?_⟩
  rw [hm, hrun, hroot, catalogRoot_of_ne identify hempty]
  exact (buildLoop identify).run_stop rfl

theorem Holds.summary : root.elim ⟨0, 0, 0⟩ CatalogRoot.summary = totals m := by
  rw [h.root_eq, ← h.represents.summary_eq]
  cases t with
  | empty | leaf | node => rfl

theorem Holds.lookup (name : ContentName) :
    Returns (lookup (serve store) root name) (.ok m[name]?) := by
  rw [← h.represents.find_eq, h.root_eq]
  by_cases hempty : t = .empty
  · subst hempty
    exact returns_some _
  · rw [catalogRoot_of_ne identify hempty]
    exact lookupTurn_returns name ⟨h.represents.canonical, h.accounted, h.stored, hempty⟩

theorem Holds.contentEntries_eq : contentEntries t = listed m := by
  rw [contentEntries, h.represents.entries_eq, listed]

theorem Holds.list : Returns (list (serve store) root) (.ok (listed m)) := by
  rw [← h.contentEntries_eq, h.root_eq]
  by_cases hempty : t = .empty
  · subst hempty
    exact returns_some _
  · rw [catalogRoot_of_ne identify hempty]
    apply listTurn_returns ⟨h.represents.canonical, h.accounted, h.stored, hempty⟩
    exact returns_stop rfl

variable {namePrefix : ContentName}

theorem Holds.listPrefix (hbits : namePrefix.bytes.length * 8 < wordLimit) :
    Returns (listPrefix (serve store) root namePrefix)
      (.ok ((listed m).filter fun entry => namePrefix.bytes <+: entry.name.bytes)) := by
  rw [← h.contentEntries_eq, h.root_eq]
  by_cases hempty : t = .empty
  · subst hempty
    exact returns_some _
  rw [catalogRoot_of_ne identify hempty]
  unfold Catalog.listPrefix
  rw [checkedMul_eq_some.2 ⟨rfl, hbits⟩]
  apply listPrefixTurn_returns namePrefix ⟨h.represents.canonical, h.accounted, h.stored, hempty⟩
  exact returns_stop rfl

theorem Holds.prefixExists (hbits : namePrefix.bytes.length * 8 < wordLimit) :
    ∃ found, Returns (prefixExists (serve store) root namePrefix) (.ok found) ∧
      (found = true ↔ ∃ name ∈ m, namePrefix.bytes <+: name.bytes) := by
  refine ⟨!(prefixEntries namePrefix t).isEmpty, ?_, ?_⟩
  · rw [h.root_eq]
    by_cases hempty : t = .empty
    · subst hempty
      exact returns_some _
    rw [catalogRoot_of_ne identify hempty]
    unfold Catalog.prefixExists
    rw [checkedMul_eq_some.2 ⟨rfl, hbits⟩]
    apply prefixExistsTurn_returns namePrefix ⟨h.represents.canonical, h.accounted, h.stored,
      hempty⟩
    · intro hhit
      rw [isEmpty_eq_false_iff.2 hhit]
      rfl
    · intro hmiss
      rw [hmiss]
      exact returns_stop rfl
  · rw [prefixEntries, h.contentEntries_eq, Bool.not_eq_true', isEmpty_eq_false_iff_exists_mem]
    constructor
    · intro hfound
      obtain ⟨_, hentry⟩ := hfound
      obtain ⟨hlisted, hbegins⟩ := mem_filter.1 hentry
      obtain ⟨⟨name, value⟩, hmem, rfl⟩ := mem_map.1 hlisted
      have hvalue := mem_toList_iff_getElem?_eq_some.1 hmem
      exact ⟨name, mem_iff_getElem?.2 ⟨value, hvalue⟩, of_decide_eq_true hbegins⟩
    · intro hbegun
      obtain ⟨_, hname, hbegins⟩ := hbegun
      obtain ⟨_, hvalue⟩ := mem_iff_getElem?.1 hname
      have hmem := mem_toList_iff_getElem?_eq_some.2 hvalue
      exact ⟨_, mem_filter.2 ⟨mem_map.2 ⟨_, hmem, rfl⟩, decide_eq_true hbegins⟩⟩

theorem Holds.insert (hinj : Function.Injective identify) (name : ContentName)
    (value : CatalogValue Id) :
    ∃ result, Returns (insert (serve store) identify root name value) result ∧
      ((∃ mutation, result = .ok mutation) ↔ Accountable (m.insert name value)) := by
  obtain ⟨_, result, hrepresents, hreturns, hmutated⟩ := h.insert_returns hinj name value
  refine ⟨result, hreturns, ?_⟩
  rw [← hrepresents.accounted_iff]
  rcases hmutated with ⟨hfits, _, rfl, _⟩ | ⟨hover, _, rfl⟩
  · exact ⟨fun _ => hfits, fun _ => ⟨_, rfl⟩⟩
  · refine ⟨?_, fun hfits => absurd hfits hover⟩
    intro ⟨mutation, hok⟩
    cases hok

/-- A name that comes and goes leaves the root as it was. -/
theorem Holds.restore (hinj : Function.Injective identify) {name : ContentName}
    {value : CatalogValue Id} (hfresh : m[name]? = none)
    (hok : Returns (Catalog.insert (serve store) identify root name value) (.ok mutation)) :
    ∃ mutation', Returns (delete (serve (store ∪ mutation.records)) identify mutation.root name)
      (.ok mutation') ∧ mutation'.root = root := by
  obtain ⟨_, ht'⟩ := h.inserted hinj hok
  obtain ⟨_, mutation', hrepresents, hreturns, hmutated⟩ := ht'.delete_returns hinj name
  have herased : (m.insert name value).erase name = m := by
    refine ext_getElem? fun other => ?_
    rw [getElem?_erase_of, getElem?_insert_of]
    split_ifs with hother
    · rw [← hother, hfresh]
    · rfl
  rw [herased] at hrepresents
  refine ⟨mutation', hreturns, ?_⟩
  rw [(hmutated.holds hinj ht'.addressed hrepresents).1.root_eq, h.root_eq,
    hrepresents.unique h.represents]

end Reads

end Run

/-! ## Names of one letter -/

theorem validUtf8_replicate (n : Nat) : validUtf8 (replicate n 97) = true := by
  have hencode : (replicate n 'a').flatMap String.utf8EncodeChar = replicate n 97 := by
    induction n with
    | zero => rfl
    | succ _ ih =>
      rw [replicate_succ, flatMap_cons, ih]
      rfl
  rw [validUtf8, ByteArray.validateUTF8_eq_true_iff]
  refine ⟨replicate n 'a', ?_⟩
  rw [utf8Encode, hencode]
  apply ByteArray.ext
  rw [data_toByteArray]

/-- A letter, over and over. -/
def longName (n : Nat) (hpos : 0 < n) (hlt : n < 9223372036854775808) : ContentName where
  bytes := replicate n 97
  length_lt := by rw [length_replicate]; exact hlt
  utf8 := validUtf8_replicate n
  ne_nil := by
    intro h
    have hlen := congrArg length h
    rw [length_replicate, length_nil] at hlen
    omega
  no_null := by
    intro h
    have hbyte := eq_of_mem_replicate h
    cases hbyte

/-! ## Histories of small maps -/

section Histories

variable {Id : Type} {m : FMap ContentName (CatalogValue Id)}

theorem FirstDiffer.lt_length {left right : ContentName} {index : Nat}
    (h : FirstDiffer left right index) :
    index < max left.bytes.length right.bytes.length * 8 := by
  by_contra hge
  apply h.differ
  rw [keyBit_eq, keyBit_eq, bytesBit, bytesBit, getD_eq_default _ _ (by omega),
    getD_eq_default _ _ (by omega)]

/-- Few and short names. -/
theorem accountable_of_small (hsmall : (totals m).logicalBytes < wordLimit ∧
    (totals m).quotaBytes * 8 ≤ wordLimit ∧ (totals m).entries < wordLimit) : Accountable m := by
  obtain ⟨hlogical, hquota, hentries⟩ := hsmall
  have hlength : ∀ name ∈ m, name.bytes.length ≤ (totals m).quotaBytes := by
    intro name hname
    obtain ⟨value, hvalue⟩ := mem_iff_getElem?.1 hname
    have hmem := mem_toList_iff_getElem?_eq_some.2 hvalue
    have hle := le_sum_of_mem (mem_map_of_mem (f := fun entry =>
      entry.2.logicalBytes.toNat + entry.1.bytes.length) hmem)
    exact (Nat.le_add_left _ _).trans hle
  refine ⟨⟨hlogical, by omega, hentries⟩, fun name hname name' hname' index hindex => ?_⟩
  have hlt := hindex.lt_length
  have hleft := hlength name hname
  have hright := hlength name' hname'
  omega

variable [Key Id] {identify : ObjectRecord Id → Id} {store : Records Id}
  {root : Option (CatalogRoot Id)} (hinj : Function.Injective identify)
  (h : CatalogRun identify store root m)

include hinj h

theorem CatalogRun.exists_insert (name : ContentName) (value : CatalogValue Id)
    (hfits : Accountable (m.insert name value)) :
    ∃ store' root', CatalogRun identify store' root' (m.insert name value) := by
  obtain ⟨_, ht⟩ := h.holds hinj
  obtain ⟨_, hreturns, hiff⟩ := ht.insert hinj name value
  obtain ⟨mutation, rfl⟩ := hiff.2 hfits
  exact ⟨_, _, h.inserted name value mutation hreturns⟩

theorem CatalogRun.exists_delete (name : ContentName) :
    ∃ store' root', CatalogRun identify store' root' (m.erase name) := by
  obtain ⟨_, ht⟩ := h.holds hinj
  obtain ⟨_, mutation, _, hreturns, _⟩ := ht.delete_returns hinj name
  exact ⟨_, _, h.deleted name mutation hreturns⟩

/-- A catalog with a name has a root. -/
theorem CatalogRun.exists_root (name : ContentName) (hname : name ∈ m) :
    ∃ root', root = some root' := by
  obtain ⟨t, ht⟩ := h.holds hinj
  refine ⟨_, ht.root_eq.trans (catalogRoot_of_ne identify fun hempty => ?_)⟩
  obtain ⟨value, hvalue⟩ := mem_iff_getElem?.1 hname
  have hfind := (ht.represents.find_eq name).trans hvalue
  rw [hempty] at hfind
  cases hfind

end Histories

/-- Names that begin with each other. -/
def lettered (n : Nat) (hn : 0 < n ∧ n < 4) : ContentName := longName n hn.1 (by omega)

/-- Three names, of which one is overwritten and one deleted. -/
def editedMap : FMap ContentName (CatalogValue Nat) :=
  (((((∅ : FMap _ _).insert (lettered 1 (by decide)) ⟨0, 5⟩).insert (lettered 2 (by decide))
    ⟨1, 6⟩).insert (lettered 1 (by decide)) ⟨2, 7⟩).insert (lettered 3 (by decide)) ⟨3, 8⟩).erase
    (lettered 3 (by decide))

/-- The two names that are left, each inserted once. -/
def plainMap : FMap ContentName (CatalogValue Nat) :=
  ((∅ : FMap _ _).insert (lettered 2 (by decide)) ⟨1, 6⟩).insert (lettered 1 (by decide)) ⟨2, 7⟩

section

variable {identify : ObjectRecord Nat → Nat} (hinj : Function.Injective identify)

include hinj

theorem exists_edited : ∃ store root, CatalogRun identify store root editedMap := by
  obtain ⟨_, _, hfirst⟩ := CatalogRun.empty.exists_insert hinj (lettered 1 (by decide)) ⟨0, 5⟩
    (accountable_of_small (by decide +kernel))
  obtain ⟨_, _, hsecond⟩ := hfirst.exists_insert hinj (lettered 2 (by decide)) ⟨1, 6⟩
    (accountable_of_small (by decide +kernel))
  obtain ⟨_, _, hthird⟩ := hsecond.exists_insert hinj (lettered 1 (by decide)) ⟨2, 7⟩
    (accountable_of_small (by decide +kernel))
  obtain ⟨_, _, hfourth⟩ := hthird.exists_insert hinj (lettered 3 (by decide)) ⟨3, 8⟩
    (accountable_of_small (by decide +kernel))
  exact hfourth.exists_delete hinj _

theorem exists_plain : ∃ store root, CatalogRun identify store root plainMap := by
  obtain ⟨_, _, hfirst⟩ := CatalogRun.empty.exists_insert hinj (lettered 2 (by decide)) ⟨1, 6⟩
    (accountable_of_small (by decide +kernel))
  exact hfirst.exists_insert hinj (lettered 1 (by decide)) ⟨2, 7⟩
    (accountable_of_small (by decide +kernel))

end

/-! ## The catalog of a map -/

/-- Along every history of insertions and deletions, the catalog is that of its map. -/
theorem catalog_canonical {Id : Type} [Key Id] {identify : ObjectRecord Id → Id}
    {store : Records Id} {root : Option (CatalogRoot Id)}
    {m : FMap ContentName (CatalogValue Id)} (hinj : Function.Injective identify)
    (h : CatalogRun identify store root m) : Answers identify store root m := by
  obtain ⟨_, ht⟩ := h.holds hinj
  exact {
    built := ht.built hinj
    summary := ht.summary
    lookup := ht.lookup
    list := ht.list
    listPrefix := fun _ hbits => ht.listPrefix hbits
    prefixExists := fun _ hbits => ht.prefixExists hbits
    insert := ht.insert hinj
    delete := fun name => by
      obtain ⟨_, mutation, _, hreturns, _⟩ := ht.delete_returns hinj name
      exact ⟨mutation, hreturns⟩
    restore := fun _ _ _ hfresh hok => ht.restore hinj hfresh hok }

theorem catalog_canonical_edited :
    ∃ (identify : ObjectRecord Nat → Nat) (store : Records Nat) (root : Option (CatalogRoot Nat)),
      Answers identify store root editedMap := by
  obtain ⟨identify, hinj⟩ := exists_injective_nat (ObjectRecord Nat)
  obtain ⟨store, root, hrun⟩ := exists_edited hinj
  exact ⟨identify, store, root, catalog_canonical hinj hrun⟩

theorem listPrefix_overflow {Id : Type} (load : Load Id) (root : CatalogRoot Id)
    {namePrefix : ContentName} (hlong : wordLimit ≤ namePrefix.bytes.length * 8) (fuel : Nat) :
    listPrefix load (some root) namePrefix fuel = some (.error .accountingOverflow) ∧
      prefixExists load (some root) namePrefix fuel = some (.error .accountingOverflow) := by
  have hbits : checkedMul namePrefix.bytes.length 8 = none := if_neg (Nat.not_lt.2 hlong)
  unfold listPrefix prefixExists
  rw [hbits]
  exact ⟨rfl, rfl⟩

theorem exists_long : ∃ name : ContentName, wordLimit ≤ name.bytes.length * 8 := by
  have hall : ∀ n, 0 < n → n < 9223372036854775808 → wordLimit ≤ n * 8 →
      ∃ name : ContentName, wordLimit ≤ name.bytes.length * 8 := by
    intro n hpos hlt hlong
    refine ⟨longName n hpos hlt, ?_⟩
    rw [longName, length_replicate]
    exact hlong
  exact hall 2305843009213693952 (by decide) (by decide) (by decide)

/-- The walks count the bits of a prefix in 64 bits, and refuse longer prefixes. -/
theorem listPrefix_refuses :
    ∃ (identify : ObjectRecord Nat → Nat) (store : Records Nat) (root : CatalogRoot Nat)
      (m : FMap ContentName (CatalogValue Nat)) (namePrefix : ContentName),
      Function.Injective identify ∧ CatalogRun identify store (some root) m ∧
      ∀ fuel, listPrefix (serve store) (some root) namePrefix fuel =
          some (.error .accountingOverflow) ∧
        prefixExists (serve store) (some root) namePrefix fuel =
          some (.error .accountingOverflow) := by
  obtain ⟨identify, hinj⟩ := exists_injective_nat (ObjectRecord Nat)
  obtain ⟨store, _, hrun⟩ := exists_edited hinj
  obtain ⟨root, rfl⟩ := hrun.exists_root hinj (lettered 1 (by decide)) (by decide +kernel)
  obtain ⟨namePrefix, hlong⟩ := exists_long
  exact ⟨identify, store, root, _, namePrefix, hinj, hrun, listPrefix_overflow _ _ hlong⟩

/-- A root stands for one map: catalogs with any histories, in any stores, have the same root
exactly when they have the same entries. -/
theorem root_eq_iff {Id : Type} [Key Id] {identify : ObjectRecord Id → Id}
    (hinj : Function.Injective identify) {store store' : Records Id}
    {root root' : Option (CatalogRoot Id)} {m m' : FMap ContentName (CatalogValue Id)}
    (h : CatalogRun identify store root m) (h' : CatalogRun identify store' root' m') :
    root = root' ↔ m = m' := by
  obtain ⟨t, ht⟩ := h.holds hinj
  obtain ⟨t', ht'⟩ := h'.holds hinj
  constructor
  · rintro rfl
    -- The union of the stores holds both, and there a lookup has one answer.
    have hunion := ht.addressed.union ht'.addressed
    have hleft : Holds identify (store ∪ store') root m t :=
      ⟨ht.represents, ht.accounted, hunion, stored_union hinj ht.addressed ht'.addressed
        (ht.stored.mono fun _ _ => .inl), ht.root_eq⟩
    have hright : Holds identify (store ∪ store') root m' t' :=
      ⟨ht'.represents, ht'.accounted, hunion, stored_union hinj ht.addressed ht'.addressed
        (ht'.stored.mono fun _ _ hserves => .inr (serves_iff.1 hserves)), ht'.root_eq⟩
    ext name : 1
    exact Except.ok.inj ((hleft.lookup name).unique (hright.lookup name))
  · rintro rfl
    rw [ht.root_eq, ht'.root_eq, ht.represents.unique ht'.represents]

/-- Two histories of the same names have one root, and another one has another. -/
theorem root_eq_iff_edited :
    ∃ (identify : ObjectRecord Nat → Nat) (store store' store'' : Records Nat)
      (root root' root'' : Option (CatalogRoot Nat)), CatalogRun identify store root editedMap ∧
      CatalogRun identify store' root' plainMap ∧
      CatalogRun identify store'' root'' (plainMap.erase (lettered 1 (by decide))) ∧
      root = root' ∧ root ≠ root'' := by
  obtain ⟨identify, hinj⟩ := exists_injective_nat (ObjectRecord Nat)
  obtain ⟨store, root, hedited⟩ := exists_edited hinj
  obtain ⟨store', root', hplain⟩ := exists_plain hinj
  obtain ⟨store'', root'', herased⟩ := hplain.exists_delete hinj (lettered 1 (by decide))
  refine ⟨identify, store, store', store'', root, root', root'', hedited, hplain, herased, ?_, ?_⟩
  · exact (root_eq_iff hinj hedited hplain).2 (by decide +kernel)
  · rw [ne_eq, root_eq_iff hinj hedited herased]
    decide +kernel

end Astrid.Catalog
