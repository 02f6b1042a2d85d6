import Astrid.Audit.Registry

/-!
# The key registry is an append-only history of roles

What a registry means is a list of assignments: for each registry state, which key holds which
role (`holdersAt`). The genesis record makes the first assignment; a rotation copies the latest
one and replaces the key of one role. The grants of the code are another way to write that list
down, as intervals that rotations edit in place, and `Models` is the connection: at every state
a grant covers exactly the bindings of the assignment.

`push_models` carries `Models` over an accepted record and `fromRecords_models` over the whole list
that `fromRecords` reads. What a role's history looks like is then read off the assignments
(`History`): the roles are those of the genesis, the keys of the audit role are nobody else's,
and a key that is replaced does not come back to its role.

A key may hold several of the other roles at once, as the runtime key does. Retiring it from one
of them leaves the others in place.
-/

namespace Astrid.Audit

open Std KeyRegistry List

variable {crypto : Crypto} {self : KeyRegistry} {record : KeyRegistryRecord}
  {records : List KeyRegistryRecord} {role : KeyRole}

/-! ## What a push does -/

namespace KeyRegistry

/-- The checks of `push`, in its order. -/
def verdict (crypto : Crypto) (self : KeyRegistry) (record : KeyRegistryRecord) :
    AuditResult Unit := do
  require (self.records.length < 2 ^ 64) (registryError "key registry too long")
  require (record.seq = UInt64.ofNat self.records.length)
    (registryError ("record " ++ toString record.seq ++ " is out of sequence; expected " ++
      toString (UInt64.ofNat self.records.length)))
  require (record.prev = self.headHashOrZero)
    (registryError ("record " ++ toString record.seq ++ " does not link to the previous record"))
  require ((timestampNanos record.timestamp).isSome)
    (registryError "record time is not representable")
  checkSorted record.add
  checkSorted record.retire
  match record.op with
  | .genesis => self.checkGenesis record
  | .rotate => self.checkRotation record
  checkSignatures crypto record

/-- The registry with `record` applied and appended. -/
def extended (crypto : Crypto) (self : KeyRegistry) (record : KeyRegistryRecord) : KeyRegistry :=
  { records := self.records ++ [record]
    hashes := self.hashes ++ [record.recordHash crypto]
    grants := (self.apply record).grants }

/-- Running a check and then `next` is running `next` if the check passes. -/
theorem run_checked {result rest : AuditResult Unit} {next : Update Unit} {after : KeyRegistry}
    (h : next.run self = match rest with
      | .error e => (.error e, self)
      | .ok _ => (.ok (), after)) :
    (check result >>= fun _ => next).run self = match result >>= fun _ => rest with
      | .error e => (.error e, self)
      | .ok _ => (.ok (), after) := by
  cases result with
  | error => rfl
  | ok => exact h

/-- A record is applied if it passes every check, and changes nothing otherwise. -/
theorem push_run (crypto : Crypto) (self : KeyRegistry) (record : KeyRegistryRecord) :
    (push crypto record).run self = match self.verdict crypto record with
      | .error e => (.error e, self)
      | .ok _ => (.ok (), self.extended crypto record) := by
  -- The three updates come after the last check.
  have hlast : ExceptT.run (do
        check (checkSignatures crypto record)
        modify fun self => self.apply record
        modify fun self => { self with hashes := self.hashes ++ [record.recordHash crypto] }
        modify fun self => { self with records := self.records ++ [record] }) self =
      match checkSignatures crypto record with
      | .error e => (.error e, self)
      | .ok _ => (.ok (), self.extended crypto record) := by
    cases checkSignatures crypto record <;> rfl
  iterate 6 refine run_checked ?_
  cases record.op with
  | genesis | rotate => exact run_checked hlast

variable {self' : KeyRegistry}

/-- A record that `push` accepts passed every check. -/
theorem push_eq_ok :
    (push crypto record).run self = (.ok (), self') ↔
      self.verdict crypto record = .ok () ∧ self' = self.extended crypto record := by
  rw [push_run]
  cases self.verdict crypto record with
  | error =>
    constructor
    · intro h
      cases h
    · intro h
      cases h.1
  | ok =>
    constructor
    · intro h
      exact ⟨rfl, (congrArg Prod.snd h).symm⟩
    · intro h
      rw [h.2]

/-- A record that `push` refuses leaves the registry as it was. -/
theorem push_error {e : AuditError} (h : (push crypto record).run self = (.error e, self')) :
    self' = self := by
  rw [push_run] at h
  cases hverdict : self.verdict crypto record with
  | error => rw [hverdict] at h; exact (congrArg Prod.snd h).symm
  | ok => rw [hverdict] at h; cases h

end KeyRegistry

/-! ## What an accepted record says -/

/-- A record that binds one key to each of some roles, the audit key to no other role. -/
structure IsGenesis (record : KeyRegistryRecord) : Prop where
  retire : record.retire = []
  roles : (record.add.map KeyBinding.role).Nodup
  audit : ∃ binding ∈ record.add, binding.role = .audit
  exclusive : ∀ audit ∈ record.add, audit.role = .audit →
    ∀ binding ∈ record.add, binding.role ≠ .audit → binding.key ≠ audit.key

/-- Sorted bindings of which no two neighbours have the same role bind each role once. -/
theorem nodup_roles {bindings : List KeyBinding}
    (hsorted : bindings.IsChain fun left right => compare left.sortKey right.sortKey = .lt)
    (hroles : ((bindings.map KeyBinding.role).destutter (· ≠ ·)).length = bindings.length) :
    (bindings.map KeyBinding.role).Nodup := by
  have hne : (bindings.map KeyBinding.role).IsChain (· ≠ ·) := by
    rw [← destutter_eq_self_iff]
    exact (destutter_sublist _ _).eq_of_length (by rw [hroles, length_map])
  rw [isChain_map] at hne
  -- The role codes increase from each binding to the next, so they increase throughout.
  have hlt : bindings.IsChain fun left right => left.role.code.toNat < right.role.code.toNat := by
    rw [isChain_iff_forall_rel_of_append_cons_cons] at hsorted hne ⊢
    intro left right before after h
    have hcompare : (compare left.role.code.toNat right.role.code.toNat).then
        (compare left.key.bytes right.key.bytes) = .lt := hsorted h
    rw [Ordering.then_eq_lt] at hcompare
    rcases hcompare with hlt | ⟨heq, _⟩
    · exact Nat.compare_eq_lt.1 hlt
    refine absurd ?_ (hne h)
    have hcode := Nat.compare_eq_eq.1 heq
    cases hl : left.role <;> cases hr : right.role <;> rw [hl, hr] at hcode <;>
      first | rfl | cases hcode
  have hpairwise := isChain_iff_pairwise.1 hlt
  rw [List.Nodup, pairwise_map]
  exact hpairwise.imp fun h heq => absurd h (by rw [heq]; exact lt_irrefl _)

theorem checkGenesis_eq_ok (hsorted : checkSorted record.add = .ok ())
    (h : self.checkGenesis record = .ok ()) :
    self.records = [] ∧ IsGenesis record := by
  simp only [checkGenesis, bind_eq_ok, require_eq_ok] at h
  obtain ⟨_, hfirst, _, hkeys, _, hroles, h⟩ := h
  have hnodup := nodup_roles (require_eq_ok.1 hsorted) hroles
  refine ⟨hfirst.2, ?_⟩
  split at h
  next audit haudit =>
    have hmem (binding : KeyBinding) :
        binding ∈ record.add ∧ binding.role = .audit ↔ binding = audit := by
      have hfilter := @List.mem_filter _ (fun binding => decide (binding.role = .audit))
        record.add binding
      rw [haudit, mem_singleton, decide_eq_true_iff] at hfilter
      exact hfilter.symm
    rw [require_eq_ok] at h
    refine ⟨hkeys.1, hnodup, ⟨audit, (hmem audit).2 rfl⟩, ?_⟩
    intro binding hbinding hrole other hother hne
    obtain rfl := (hmem binding).1 ⟨hbinding, hrole⟩
    exact h other hother hne
  next => cases h

/-- A record that replaces the active key of one role by a new key. -/
structure IsRotation (registry : KeyRegistry) (record : KeyRegistryRecord)
    (added retired : KeyBinding) : Prop where
  add : record.add = [added]
  retire : record.retire = [retired]
  role : added.role = retired.role
  active : registry.activeKey retired.role registry.headSeq = some retired.key
  fresh : ∀ grant ∈ registry.grants, grant.binding.key ≠ added.key

theorem checkRotation_eq_ok (h : self.checkRotation record = .ok ()) :
    self.records ≠ [] ∧ ∃ added retired, IsRotation self record added retired := by
  simp only [checkRotation, bind_eq_ok, require_eq_ok] at h
  obtain ⟨_, hfirst, h⟩ := h
  refine ⟨hfirst, ?_⟩
  split at h
  next added retired hadd hretire =>
    simp only [bind_eq_ok, require_eq_ok] at h
    obtain ⟨_, hrole, _, hactive, h⟩ := h
    exact ⟨added, retired, hadd, hretire, hrole, hactive, h⟩
  next => cases h

/-- What `push` has established when it accepts a record. -/
theorem verdict_eq_ok {crypto : Crypto} (h : self.verdict crypto record = .ok ()) :
    self.records.length < 2 ^ 64 ∧ record.seq = UInt64.ofNat self.records.length ∧
      (self.records = [] ∧ IsGenesis record ∨
        self.records ≠ [] ∧ ∃ added retired, IsRotation self record added retired) := by
  simp only [verdict, bind_eq_ok, require_eq_ok] at h
  obtain ⟨_, hlength, _, hseq, _, _, _, _, _, hadd, _, _, h⟩ := h
  refine ⟨hlength, hseq, ?_⟩
  cases hop : record.op with
  | genesis =>
    rw [hop] at h
    obtain ⟨_, hgenesis, _⟩ := bind_eq_ok.1 h
    exact .inl (checkGenesis_eq_ok hadd hgenesis)
  | rotate =>
    rw [hop] at h
    obtain ⟨_, hrotation, _⟩ := bind_eq_ok.1 h
    exact .inr (checkRotation_eq_ok hrotation)

/-! ## Assignments -/

/-- Which key holds which role. -/
abbrev Holders := KeyRole → Option PublicKey

/-- Give a role to a key. -/
def Holders.assign (holders : Holders) (binding : KeyBinding) : Holders :=
  fun role => if binding.role = role then some binding.key else holders role

/-- The assignment after some records. -/
def holders (records : List KeyRegistryRecord) : Holders :=
  records.foldl (fun holders record => record.add.foldl Holders.assign holders) fun _ => none

/-- The assignment in registry state `epoch`. -/
def holdersAt (records : List KeyRegistryRecord) (epoch : Nat) : Holders :=
  holders (records.take (epoch + 1))

variable {epoch : Nat}

/-- A rotation gives its role to its key. -/
theorem holders_rotate {added : KeyBinding} (h : record.add = [added]) :
    holders (records ++ [record]) = (holders records).assign added := by
  rw [holders, foldl_append, foldl_cons, foldl_nil, h, foldl_cons, foldl_nil, holders]

theorem holdersAt_snoc_of_lt (h : epoch < records.length) (record : KeyRegistryRecord) :
    holdersAt (records ++ [record]) epoch = holdersAt records epoch := by
  rw [holdersAt, take_append_of_le_length h, holdersAt]

theorem holdersAt_of_length_le (h : records.length ≤ epoch + 1) :
    holdersAt records epoch = holders records := by
  rw [holdersAt, take_of_length_le h]

/-- Bindings with distinct roles are what they assign. -/
theorem foldl_assign_eq_some {bindings : List KeyBinding} : ∀ {before : Holders}, (bindings.map
    KeyBinding.role).Nodup → ∀ {role : KeyRole} {key : PublicKey}, (bindings.foldl Holders.assign
    before role = some key ↔ ⟨role, key⟩ ∈ bindings ∨ role ∉ bindings.map KeyBinding.role ∧ before
    role = some key) := by
  induction bindings with
  | nil => simp
  | cons binding bindings ih =>
    intro before hnodup role key
    rw [map_cons, nodup_cons] at hnodup
    rw [foldl_cons, ih hnodup.2, mem_cons, map_cons, mem_cons, not_or]
    by_cases hrole : binding.role = role
    · subst hrole
      have hnot (key : PublicKey) : ⟨binding.role, key⟩ ∉ bindings := fun hmem =>
        hnodup.1 (mem_map.2 ⟨_, hmem, rfl⟩)
      have hassign : before.assign binding binding.role = some binding.key := if_pos rfl
      rw [hassign]
      constructor
      · rintro (hmem | ⟨_, hkey⟩)
        · exact absurd hmem (hnot key)
        · exact .inl (.inl (by rw [← Option.some.inj hkey]))
      · rintro ((heq | hmem) | ⟨⟨hne, _⟩, _⟩)
        · exact .inr ⟨hnodup.1, by rw [← heq]⟩
        · exact absurd hmem (hnot key)
        · exact absurd rfl hne
    · have hassign : before.assign binding role = before role := if_neg hrole
      have hne : (⟨role, key⟩ : KeyBinding) ≠ binding := fun heq => hrole (by rw [← heq])
      rw [hassign]
      simp only [hne, false_or, ne_comm.1 hrole, not_false_eq_true, true_and]

/-! ## Grants against assignments -/

/-- The grant is valid in registry state `epoch`. -/
def Grant.Covers (grant : Grant) (epoch : Nat) : Prop :=
  grant.start.toNat ≤ epoch ∧ ∀ stop ∈ grant.until?, epoch < stop.toNat

theorem Grant.covers_iff {grant : Grant} {epoch : UInt64} :
    grant.covers epoch = true ↔ grant.Covers epoch.toNat := by
  unfold covers Covers
  rw [Bool.and_eq_true, decide_eq_true_iff, UInt64.le_iff_toNat_le]
  cases grant.until? with
  | none => simp
  | some => simp [UInt64.lt_iff_toNat_lt]

/-- The registry holds one record for each state, and its grants cover in each state exactly
the bindings of that state's assignment. -/
structure KeyRegistry.Models (registry : KeyRegistry) : Prop where
  fits : registry.records.length ≤ 2 ^ 64
  seqs : ∀ (i : Nat) (record : KeyRegistryRecord),
    registry.records[i]? = some record → record.seq.toNat = i
  started : ∀ grant ∈ registry.grants, grant.start.toNat < registry.records.length
  stopped : ∀ grant ∈ registry.grants, ∀ stop ∈ grant.until?, stop.toNat < registry.records.length
  holds : ∀ epoch < registry.records.length, ∀ binding : KeyBinding,
    (∃ grant ∈ registry.grants, grant.binding = binding ∧ grant.Covers epoch) ↔
      holdersAt registry.records epoch binding.role = some binding.key
  granted : ∀ record ∈ registry.records, ∀ binding ∈ record.add,
    ∃ grant ∈ registry.grants, grant.binding = binding

namespace KeyRegistry

theorem models_empty : empty.Models where
  fits := Nat.zero_le _
  seqs := by simp [empty]
  started := by simp [empty]
  stopped := by simp [empty]
  holds := by simp [empty]
  granted := by simp [empty]

namespace Models

variable (h : self.Models)

include h

/-- The latest record's number is the number of records before it. -/
theorem headSeq_toNat (hne : self.records ≠ []) :
    self.headSeq.toNat + 1 = self.records.length := by
  obtain ⟨init, last, hrecords⟩ := (eq_nil_or_concat' self.records).resolve_left hne
  have hseq := h.seqs init.length last (by rw [hrecords]; simp)
  rw [headSeq, hrecords]
  simpa using hseq

/-- The key of a role is the key of its grant. -/
theorem isActive_iff (hne : self.records ≠ []) {key : PublicKey} {epoch : UInt64} :
    self.isActive role key epoch = true ↔
      epoch ≤ self.headSeq ∧ holdersAt self.records epoch.toNat role = some key := by
  unfold isActive
  rw [Bool.and_eq_true, decide_eq_true_iff, any_eq_true]
  refine and_congr_right fun hle => ?_
  have hlt : epoch.toNat < self.records.length := by
    have hhead := h.headSeq_toNat hne
    rw [UInt64.le_iff_toNat_le] at hle
    omega
  rw [← h.holds _ hlt ⟨role, key⟩]
  refine exists_congr fun grant => and_congr_right fun _ => ?_
  rw [Bool.and_eq_true, Bool.and_eq_true, decide_eq_true_iff, decide_eq_true_iff, Grant.covers_iff]
  refine and_congr_left fun _ => ?_
  constructor
  · rintro ⟨rfl, rfl⟩
    rfl
  · intro heq
    rw [heq]
    exact ⟨rfl, rfl⟩

theorem activeKey_eq {epoch : UInt64} (hlt : epoch.toNat < self.records.length) :
    self.activeKey role epoch = holdersAt self.records epoch.toNat role := by
  unfold activeKey
  -- Any grant of the role that covers the state has the assigned key.
  have hkey : ∀ grant ∈ self.grants, grant.binding.role = role → grant.Covers epoch.toNat →
      holdersAt self.records epoch.toNat role = some grant.binding.key := by
    intro grant hgrant hrole hcovers
    rw [← hrole, ← h.holds _ hlt]
    exact ⟨grant, hgrant, rfl, hcovers⟩
  cases hfind : self.grants.find? fun grant =>
      decide (grant.binding.role = role) && grant.covers epoch with
  | some grant =>
    have hsome := find?_some hfind
    rw [Bool.and_eq_true, decide_eq_true_iff, Grant.covers_iff] at hsome
    exact (hkey grant (mem_of_find?_eq_some hfind) hsome.1 hsome.2).symm
  | none =>
    rw [find?_eq_none] at hfind
    cases hheld : holdersAt self.records epoch.toNat role with
    | none => rfl
    | some key =>
      obtain ⟨grant, hgrant, hbinding, hcovers⟩ := (h.holds _ hlt ⟨role, key⟩).2 hheld
      refine absurd ?_ (hfind grant hgrant)
      rw [Bool.and_eq_true, decide_eq_true_iff, Grant.covers_iff, hbinding]
      exact ⟨rfl, hcovers⟩

end Models

/-! ## A push keeps the connection -/

@[simp]
theorem closeGrant_binding (seq : UInt64) (retired : KeyBinding) (grant : Grant) :
    (closeGrant seq retired grant).binding = grant.binding := by
  unfold closeGrant
  split <;> rfl

@[simp]
theorem closeGrant_start (seq : UInt64) (retired : KeyBinding) (grant : Grant) :
    (closeGrant seq retired grant).start = grant.start := by
  unfold closeGrant
  split <;> rfl

variable {seq : UInt64} {retired : KeyBinding} {grant : Grant}

theorem closeGrant_stop {stop : UInt64} (h : stop ∈ (closeGrant seq retired grant).until?) :
    stop = seq ∨ stop ∈ grant.until? := by
  unfold closeGrant at h
  split at h
  · exact .inl (Option.mem_some.1 h).symm
  · exact .inr h

/-- Closing a grant at `seq` does not change the states before. -/
theorem closeGrant_covers_of_lt (h : epoch < seq.toNat) :
    (closeGrant seq retired grant).Covers epoch ↔ grant.Covers epoch := by
  unfold closeGrant
  split
  next hopen =>
    unfold Grant.Covers
    rw [hopen.2]
    simp [h]
  next => exact Iff.rfl

/-- In the state of the record that closes, the grants that were open go on, except the closed
one. -/
theorem closeGrant_covers_self {last : Nat} (hlast : last + 1 = seq.toNat)
    (hstart : grant.start.toNat ≤ last) (hstop : ∀ stop ∈ grant.until?, stop.toNat ≤ last) :
    (closeGrant seq retired grant).Covers seq.toNat ↔
      grant.Covers last ∧ grant.binding ≠ retired := by
  unfold closeGrant Grant.Covers
  cases huntil : grant.until? with
  | none =>
    by_cases hbinding : grant.binding = retired
    · simp [hbinding]
    · simp [hbinding, huntil, hstart]
      omega
  | some stop =>
    have := hstop stop huntil
    simp [huntil]
    omega

section

variable (h : self.Models) (hseq : record.seq.toNat = self.records.length)

include h hseq

theorem extended_seqs (i : Nat) (found : KeyRegistryRecord)
    (hfound : (self.extended crypto record).records[i]? = some found) : found.seq.toNat = i := by
  rw [extended, getElem?_append] at hfound
  split at hfound
  next => exact h.seqs i found hfound
  next hlength =>
    obtain ⟨_, rfl⟩ : i - self.records.length = 0 ∧ record = found := by
      cases hindex : i - self.records.length with
      | zero =>
        rw [hindex] at hfound
        exact ⟨rfl, Option.some.inj hfound⟩
      | succ =>
        rw [hindex] at hfound
        cases hfound
    omega

/-- The genesis of an empty registry. -/
theorem Models.genesis (hempty : self.records = []) (hgenesis : IsGenesis record) :
    (self.extended crypto record).Models := by
  have hgrants : self.grants = [] := by
    rw [eq_nil_iff_forall_not_mem]
    intro grant hgrant
    have := h.started grant hgrant
    rw [hempty] at this
    cases this
  have hrecords : (self.extended crypto record).records = [record] := by
    rw [extended, hempty]
    rfl
  have hadded : (self.extended crypto record).grants =
      record.add.map fun added => ⟨added, record.seq, none⟩ := by
    rw [extended, apply, hgenesis.retire, hgrants]
    rfl
  rw [hempty] at hseq
  refine ⟨?_, extended_seqs h (by rw [hseq, hempty]), ?_, ?_, ?_, ?_⟩
  · rw [hrecords]
    exact Nat.one_le_two_pow
  · intro grant hgrant
    rw [hadded, mem_map] at hgrant
    obtain ⟨added, _, rfl⟩ := hgrant
    rw [hrecords, hseq]
    exact Nat.zero_lt_one
  · intro grant hgrant stop hstop
    rw [hadded, mem_map] at hgrant
    obtain ⟨added, _, rfl⟩ := hgrant
    cases hstop
  · intro epoch hepoch binding
    rw [hrecords, length_singleton, Nat.lt_one_iff] at hepoch
    rw [hadded, hrecords, hepoch, holdersAt_of_length_le (by simp), holders, foldl_cons,
      foldl_nil, foldl_assign_eq_some hgenesis.roles]
    constructor
    · rintro ⟨grant, hgrant, rfl, _⟩
      obtain ⟨_, hmem, rfl⟩ := mem_map.1 hgrant
      exact .inl hmem
    · rintro (hmem | ⟨_, hnone⟩)
      · refine ⟨⟨binding, record.seq, none⟩, mem_map.2 ⟨binding, hmem, rfl⟩, rfl, ?_⟩
        exact ⟨hseq.le, fun stop hstop => by cases hstop⟩
      · cases hnone
  · intro found hfound binding hbinding
    rw [hrecords, mem_singleton] at hfound
    rw [hfound] at hbinding
    rw [hadded]
    exact ⟨_, mem_map.2 ⟨binding, hbinding, rfl⟩, rfl⟩

end

variable {added : KeyBinding}

/-- The key that a rotation retires holds the role in the latest state. -/
theorem Models.retired_holds (h : self.Models) (hne : self.records ≠ [])
    (hrotation : IsRotation self record added retired) :
    holders self.records retired.role = some retired.key := by
  have hhead := h.headSeq_toNat hne
  rw [← hrotation.active, h.activeKey_eq (by omega), holdersAt_of_length_le (by omega)]

/-- A rotation in a registry that has its genesis. -/
theorem Models.rotation (h : self.Models) (hfits : self.records.length < 2 ^ 64)
    (hseq : record.seq.toNat = self.records.length) (hne : self.records ≠ [])
    (hrotation : IsRotation self record added retired) : (self.extended crypto record).Models := by
  have hhead := h.headSeq_toNat hne
  have hlast : self.headSeq.toNat + 1 = record.seq.toNat := by omega
  have hlength : (self.extended crypto record).records.length = self.records.length + 1 := by
    rw [extended, length_append, length_singleton]
  have hgrants : (self.extended crypto record).grants =
      self.grants.map (closeGrant record.seq retired) ++ [⟨added, record.seq, none⟩] := by
    rw [extended, apply, hrotation.retire, hrotation.add]
    rfl
  have hmem (grant : Grant) : grant ∈ (self.extended crypto record).grants ↔
      (∃ old ∈ self.grants, closeGrant record.seq retired old = grant) ∨
        grant = ⟨added, record.seq, none⟩ := by
    rw [hgrants, mem_append, mem_map, mem_singleton]
  have hexists (binding : KeyBinding) (epoch : Nat) :
      (∃ grant ∈ (self.extended crypto record).grants,
        grant.binding = binding ∧ grant.Covers epoch) ↔
      (∃ old ∈ self.grants, old.binding = binding ∧
        (closeGrant record.seq retired old).Covers epoch) ∨
        added = binding ∧ record.seq.toNat ≤ epoch := by
    simp [hmem, or_and_right, exists_or, closeGrant_binding, Grant.Covers]
  have hretired := h.retired_holds hne hrotation
  refine ⟨by omega, extended_seqs h hseq, ?_, ?_, ?_, ?_⟩
  · intro grant hgrant
    rcases (hmem grant).1 hgrant with ⟨old, hold, rfl⟩ | rfl
    · have := h.started old hold
      rw [closeGrant_start]
      omega
    · show record.seq.toNat < _
      omega
  · intro grant hgrant stop hstop
    rcases (hmem grant).1 hgrant with ⟨old, hold, rfl⟩ | rfl
    · rcases closeGrant_stop hstop with rfl | hstop
      · omega
      · have := h.stopped old hold stop hstop
        omega
    · cases hstop
  · intro epoch hepoch binding
    rw [hexists]
    rcases lt_or_ge epoch self.records.length with hlt | hge
    · -- An earlier state: no grant changed there, and the new one starts later.
      have hearlier : epoch < record.seq.toNat := by omega
      rw [extended, holdersAt_snoc_of_lt hlt, ← h.holds epoch hlt binding]
      simp only [closeGrant_covers_of_lt hearlier, Nat.not_le.2 hearlier, and_false, or_false]
    · -- The state of the record: its key has the role, the other roles go on.
      obtain rfl : epoch = record.seq.toNat := by omega
      have hclose (old : Grant) (hold : old ∈ self.grants) :=
        @closeGrant_covers_self record.seq retired old _ hlast
          (by have := h.started old hold; omega)
          (fun stop hstop => by have := h.stopped old hold stop hstop; omega)
      have hgoesOn : (∃ old ∈ self.grants, old.binding = binding ∧
          (closeGrant record.seq retired old).Covers record.seq.toNat) ↔
            holders self.records binding.role = some binding.key ∧ binding ≠ retired := by
        have hheld := h.holds self.headSeq.toNat (by omega) binding
        rw [holdersAt_of_length_le (by omega)] at hheld
        rw [← hheld]
        constructor
        · rintro ⟨old, hold, rfl, hcovers⟩
          obtain ⟨hcovers, hother⟩ := (hclose old hold).1 hcovers
          exact ⟨⟨old, hold, rfl, hcovers⟩, hother⟩
        · rintro ⟨⟨old, hold, rfl, hcovers⟩, hother⟩
          exact ⟨old, hold, rfl, (hclose old hold).2 ⟨hcovers, hother⟩⟩
      rw [hgoesOn, holdersAt_of_length_le (by omega), extended, holders_rotate hrotation.add,
        Holders.assign]
      split
      next hrole =>
        constructor
        · rintro (⟨hkey, hother⟩ | ⟨rfl, _⟩)
          · -- The key of the role that goes on would be the retired one.
            rw [← hrole, hrotation.role, hretired] at hkey
            exact absurd (KeyBinding.ext (hrole.symm.trans hrotation.role)
              (Option.some.inj hkey).symm) hother
          · rfl
        · intro hkey
          exact .inr ⟨KeyBinding.ext hrole (Option.some.inj hkey), le_rfl⟩
      next hrole =>
        constructor
        · rintro (⟨hkey, _⟩ | ⟨rfl, _⟩)
          · exact hkey
          · exact absurd rfl hrole
        · intro hkey
          exact .inl ⟨hkey, fun heq => hrole (by rw [hrotation.role, heq])⟩
  · intro found hfound binding hbinding
    rw [extended, mem_append, mem_singleton] at hfound
    rcases hfound with hfound | rfl
    · obtain ⟨old, hmemOld, rfl⟩ := h.granted found hfound binding hbinding
      exact ⟨_, (hmem _).2 (.inl ⟨old, hmemOld, rfl⟩), closeGrant_binding ..⟩
    · rw [hrotation.add, mem_singleton] at hbinding
      exact ⟨_, (hmem _).2 (.inr rfl), hbinding.symm⟩

end KeyRegistry

/-! ## The history of an accepted list -/

/-- A genesis followed by rotations, each of the key that holds the role in favour of a key that
no earlier record added. -/
inductive History : List KeyRegistryRecord → Prop
  | genesis {record : KeyRegistryRecord} : IsGenesis record → History [record]
  | rotate {records : List KeyRegistryRecord} {record : KeyRegistryRecord}
      {added retired : KeyBinding} : History records → record.add = [added] →
      record.retire = [retired] → added.role = retired.role →
      holders records retired.role = some retired.key →
      (∀ earlier ∈ records, ∀ binding ∈ earlier.add, binding.key ≠ added.key) →
      History (records ++ [record])

theorem toNat_ofNat_of_lt {n : Nat} (h : n < 2 ^ 64) : (UInt64.ofNat n).toNat = n := by
  rw [UInt64.toNat_ofNat', Nat.mod_eq_of_lt h]

namespace KeyRegistry

/-- An accepted record continues the history, and the grants follow it. -/
theorem push_models {record : KeyRegistryRecord} (h : self.Models)
    (hhistory : self.records = [] ∨ History self.records)
    (hok : self.verdict crypto record = .ok ()) :
    (self.extended crypto record).Models ∧ History (self.extended crypto record).records := by
  obtain ⟨hfits, hseq, hrecord⟩ := verdict_eq_ok hok
  replace hseq : record.seq.toNat = self.records.length := by
    rw [hseq, toNat_ofNat_of_lt hfits]
  rcases hrecord with ⟨hempty, hgenesis⟩ | ⟨hne, _, _, hrotation⟩
  · refine ⟨h.genesis hseq hempty hgenesis, ?_⟩
    rw [extended, hempty]
    exact .genesis hgenesis
  refine ⟨h.rotation hfits hseq hne hrotation, ?_⟩
  refine .rotate (hhistory.resolve_left hne) hrotation.add hrotation.retire hrotation.role
    (h.retired_holds hne hrotation) ?_
  intro earlier hearlier binding hbinding
  obtain ⟨grant, hgrant, rfl⟩ := h.granted earlier hearlier binding hbinding
  exact hrotation.fresh grant hgrant

theorem run_bind (update next : Update Unit) (self : KeyRegistry) :
    (update >>= fun _ => next).run self = match update.run self with
      | (.ok _, after) => next.run after
      | (.error e, after) => (.error e, after) := by
  change (match update.run self with
    | (result, after) => ExceptT.bindCont (fun _ => next) result after) = _
  rcases update.run self with ⟨result, _⟩
  cases result <;> rfl

/-- What holds of no records and the empty registry, and is kept by every record that passes the
checks, holds of a list that is accepted. -/
theorem fromRecords_induct {P : List KeyRegistryRecord → KeyRegistry → Prop} (hempty : P [] empty)
    (hpush : ∀ {done self record}, P done self → self.verdict crypto record = .ok () →
      P (done ++ [record]) (self.extended crypto record))
    (h : fromRecords crypto records = .ok self) : records ≠ [] ∧ P records self := by
  have hrun : ∀ {records done : List KeyRegistryRecord} {self self' : KeyRegistry}, P done self →
      (records.forM (push crypto)).run self = (.ok (), self') → P (done ++ records) self' := by
    intro records
    induction records with
    | nil =>
      intro done self self' hdone hrun
      cases hrun
      rwa [append_nil]
    | cons record records ih =>
      intro done self self' hdone hrun
      change (push crypto record >>= fun _ => records.forM (push crypto)).run self = _ at hrun
      rw [run_bind, push_run] at hrun
      cases hverdict : self.verdict crypto record with
      | error => rw [hverdict] at hrun; cases hrun
      | ok =>
        rw [hverdict] at hrun
        rw [append_cons]
        exact ih (hpush hdone hverdict) hrun
  obtain ⟨_, hne, h⟩ := bind_eq_ok.1 h
  rcases hresult : (records.forM (push crypto)).run empty with ⟨_, _⟩
  rw [hresult] at h
  obtain ⟨_, hok, h⟩ := bind_eq_ok.1 h
  cases h
  rw [hok] at hresult
  exact ⟨require_eq_ok.1 hne, hrun hempty hresult⟩

/-- The hashes of a registry are those of its records. -/
theorem fromRecords_hashes (h : fromRecords crypto records = .ok self) :
    self.hashes = records.map (KeyRegistryRecord.recordHash crypto) := by
  refine (fromRecords_induct (P := fun done self => self.hashes = done.map _) rfl ?_ h).2
  intro done self record hdone _
  rw [extended, hdone, map_append]
  rfl

theorem fromRecords_models (h : fromRecords crypto records = .ok self) :
    self.Models ∧ self.records = records ∧ History records := by
  obtain ⟨hne, hmodels, hrecords, hhistory⟩ := fromRecords_induct
    (P := fun done self => self.Models ∧ self.records = done ∧ (done = [] ∨ History done))
    ⟨models_empty, rfl, .inl rfl⟩ (by
      rintro done self record ⟨hmodels, rfl, hhistory⟩ hverdict
      obtain ⟨hmodels', hhistory'⟩ := push_models hmodels hhistory hverdict
      exact ⟨hmodels', rfl, .inr hhistory'⟩) h
  exact ⟨hmodels, hrecords, hhistory.resolve_left hne⟩

end KeyRegistry

namespace History

section

variable (h : History records)

include h

theorem ne_nil : records ≠ [] := by
  cases h <;> simp

theorem first_isGenesis : ∀ genesis ∈ records.head?, IsGenesis genesis := by
  induction h with
  | genesis =>
    intro genesis hfirst
    rwa [← Option.mem_some.1 hfirst]
  | rotate hrecords _ _ _ _ _ ih =>
    intro genesis hfirst
    rw [head?_append_of_ne_nil _ hrecords.ne_nil] at hfirst
    exact ih genesis hfirst

/-- A role that the genesis binds is held in every state, and no other role ever is. -/
theorem holders_isSome : ∀ genesis ∈ records.head?, ∀ role,
    (holders records role).isSome ↔ role ∈ genesis.add.map KeyBinding.role := by
  induction h with
  | @genesis record hgenesis =>
    intro genesis hfirst role
    obtain rfl : record = genesis := Option.mem_some.1 hfirst
    rw [holders, foldl_cons, foldl_nil, Option.isSome_iff_exists, mem_map]
    simp only [foldl_assign_eq_some hgenesis.roles, reduceCtorEq, and_false, or_false]
    constructor
    · rintro ⟨key, hmem⟩
      exact ⟨_, hmem, rfl⟩
    · rintro ⟨binding, hmem, rfl⟩
      exact ⟨binding.key, hmem⟩
  | rotate hrecords hadd _ hrole hheld _ ih =>
    intro genesis hfirst role
    rw [head?_append_of_ne_nil _ hrecords.ne_nil] at hfirst
    rw [holders_rotate hadd, Holders.assign, ← ih genesis hfirst role]
    split
    next heq => rw [← heq, hrole, hheld]; simp
    next => rfl

/-- Every key that holds a role was added for it. -/
theorem added_of_holds {role : KeyRole} {key : PublicKey}
    (hheld : holders records role = some key) : ∃ record ∈ records, ⟨role, key⟩ ∈ record.add := by
  induction h with
  | @genesis record hgenesis =>
    rw [holders, foldl_cons, foldl_nil, foldl_assign_eq_some hgenesis.roles] at hheld
    rcases hheld with hmem | ⟨_, hnone⟩
    · exact ⟨record, mem_singleton_self _, hmem⟩
    · cases hnone
  | @rotate _ record _ _ _ hadd _ _ _ _ ih =>
    rw [holders_rotate hadd, Holders.assign] at hheld
    split at hheld
    next heq =>
      refine ⟨record, by simp, ?_⟩
      rw [hadd, mem_singleton]
      exact KeyBinding.ext heq.symm (Option.some.inj hheld).symm
    next =>
      obtain ⟨earlier, hearlier, hmem⟩ := ih hheld
      exact ⟨earlier, mem_append_left _ hearlier, hmem⟩

/-- A registry state is itself the end of a history. -/
theorem take (hepoch : epoch < records.length) : History (records.take (epoch + 1)) := by
  induction h with
  | genesis hgenesis =>
    rw [take_of_length_le (by simp)]
    exact .genesis hgenesis
  | @rotate records _ _ _ hrecords hadd hretire hrole hheld hfresh ih =>
    rcases lt_or_ge epoch records.length with hlt | hge
    · rw [take_append_of_le_length hlt]
      exact ih hlt
    · rw [take_of_length_le (by simp; omega)]
      exact .rotate hrecords hadd hretire hrole hheld hfresh

/-- A key that one record after the genesis adds is added nowhere else. -/
theorem binding_unique : ∀ genesis ∈ records.head?,
    ∀ record ∈ records, ∀ binding ∈ record.add, ∀ other ∈ records, ∀ binding' ∈ other.add,
    binding.key = binding'.key →
      binding = binding' ∨ binding ∈ genesis.add ∧ binding' ∈ genesis.add := by
  induction h with
  | @genesis record =>
    intro genesis hfirst found hfound binding hbinding other hother binding' hbinding' hkey
    obtain rfl : record = genesis := Option.mem_some.1 hfirst
    rw [mem_singleton] at hfound hother
    rw [hfound] at hbinding
    rw [hother] at hbinding'
    exact .inr ⟨hbinding, hbinding'⟩
  | rotate hrecords hadd _ _ _ hfresh ih =>
    intro genesis hfirst found hfound binding hbinding other hother binding' hbinding' hkey
    rw [head?_append_of_ne_nil _ hrecords.ne_nil] at hfirst
    rw [mem_append, mem_singleton] at hfound hother
    -- The new key differs from every earlier one, so both bindings are old or both are new.
    rcases hfound with hfound | rfl <;> rcases hother with hother | rfl
    · exact ih genesis hfirst found hfound binding hbinding other hother binding' hbinding' hkey
    · rw [hadd, mem_singleton] at hbinding'
      rw [hbinding'] at hkey
      exact absurd hkey (hfresh found hfound binding hbinding)
    · rw [hadd, mem_singleton] at hbinding
      rw [hbinding] at hkey
      exact absurd hkey.symm (hfresh other hother binding' hbinding')
    · rw [hadd, mem_singleton] at hbinding hbinding'
      exact .inl (hbinding.trans hbinding'.symm)

/-- The keys of the audit role are added for no other role. -/
theorem audit_exclusive : ∀ record ∈ records, ∀ binding ∈ record.add,
    binding.role = .audit → ∀ other ∈ records, ∀ binding' ∈ other.add,
    binding.key = binding'.key → binding'.role = .audit := by
  intro record hrecord binding hbinding haudit other hother binding' hbinding' hkey
  obtain ⟨genesis, _, rfl⟩ := exists_cons_of_ne_nil h.ne_nil
  rcases h.binding_unique genesis rfl record hrecord binding hbinding other hother binding'
    hbinding' hkey with rfl | ⟨hfirst, hfirst'⟩
  · exact haudit
  · by_contra hne
    exact (h.first_isGenesis genesis rfl).exclusive binding hfirst haudit binding' hfirst' hne
      hkey.symm

/-- A binding that a record retires was added before the last one. -/
theorem added_of_retired : ∀ record ∈ records, ∀ binding ∈ record.retire,
    ∃ earlier ∈ records.dropLast, binding ∈ earlier.add := by
  induction h with
  | genesis hgenesis =>
    intro found hfound binding hbinding
    rw [mem_singleton.1 hfound, hgenesis.retire] at hbinding
    cases hbinding
  | rotate hrecords _ hretire _ hheld _ ih =>
    intro found hfound binding hbinding
    rw [mem_append, mem_singleton] at hfound
    rw [dropLast_concat]
    rcases hfound with hfound | rfl
    · obtain ⟨earlier, hearlier, hmem⟩ := ih found hfound binding hbinding
      exact ⟨earlier, mem_of_mem_dropLast hearlier, hmem⟩
    · rw [hretire, mem_singleton] at hbinding
      exact hbinding ▸ hrecords.added_of_holds hheld

/-- A key that was retired from a role does not hold the role. -/
theorem retired_gone : ∀ record ∈ records, ∀ binding ∈ record.retire,
    holders records binding.role ≠ some binding.key := by
  induction h with
  | genesis hgenesis =>
    intro found hfound binding hbinding
    rw [mem_singleton.1 hfound, hgenesis.retire] at hbinding
    cases hbinding
  | rotate hrecords hadd hretire hrole hheld hfresh ih =>
    intro found hfound binding hbinding
    -- The key that takes the role is new, the retired one was added before.
    obtain ⟨earlier, hearlier, hmem⟩ := (History.rotate hrecords hadd hretire hrole hheld
      hfresh).added_of_retired found hfound binding hbinding
    rw [dropLast_concat] at hearlier
    rw [holders_rotate hadd, Holders.assign]
    split
    next => exact fun heq => hfresh earlier hearlier binding hmem (Option.some.inj heq).symm
    next hne =>
      rw [mem_append, mem_singleton] at hfound
      rcases hfound with hfound | rfl
      · exact ih found hfound binding hbinding
      · rw [hretire, mem_singleton] at hbinding
        exact absurd (by rw [hbinding, hrole]) hne

end

end History

/-! ## The registry as a whole -/

namespace KeyRegistry

variable {epoch : UInt64} {key : PublicKey}

section

variable (h : fromRecords crypto records = .ok self)

include h

/-- The key that is active for a role is the assigned one. -/
theorem isActive_iff_holdersAt :
    self.isActive role key epoch = true ↔
      epoch ≤ self.headSeq ∧ holdersAt records epoch.toNat role = some key := by
  obtain ⟨hmodels, hrecords, hhistory⟩ := fromRecords_models h
  rw [hmodels.isActive_iff (by rw [hrecords]; exact hhistory.ne_nil), hrecords]

theorem toNat_lt_length (hepoch : epoch ≤ self.headSeq) : epoch.toNat < records.length := by
  obtain ⟨hmodels, hrecords, hhistory⟩ := fromRecords_models h
  have hhead := hmodels.headSeq_toNat (by rw [hrecords]; exact hhistory.ne_nil)
  rw [UInt64.le_iff_toNat_le] at hepoch
  rw [← hrecords]
  omega

/-- Up to the head, `activeKey` finds the active key. -/
theorem activeKey_eq_some_iff (hepoch : epoch ≤ self.headSeq) :
    self.activeKey role epoch = some key ↔ self.isActive role key epoch = true := by
  obtain ⟨hmodels, hrecords, _⟩ := fromRecords_models h
  have hlt := toNat_lt_length h hepoch
  rw [isActive_iff_holdersAt h, hmodels.activeKey_eq (by rwa [hrecords]), hrecords]
  exact (and_iff_right hepoch).symm

end

/-- Up to the head, a role of the genesis has one key and any other role none. -/
theorem active_of_genesis {genesis : KeyRegistryRecord} {rest : List KeyRegistryRecord}
    (h : fromRecords crypto (genesis :: rest) = .ok self) (hepoch : epoch ≤ self.headSeq)
    (role : KeyRole) :
    (role ∈ genesis.add.map KeyBinding.role → ∃! key, self.isActive role key epoch = true) ∧
      (role ∉ genesis.add.map KeyBinding.role → ∀ key, self.isActive role key epoch = false) := by
  obtain ⟨_, _, hhistory⟩ := fromRecords_models h
  have hsome := (hhistory.take (toNat_lt_length h hepoch)).holders_isSome genesis rfl role
  rw [← hsome]
  change ((holdersAt (genesis :: rest) epoch.toNat role).isSome = true → _) ∧ _
  constructor
  · intro hbound
    obtain ⟨key, hkey⟩ := Option.isSome_iff_exists.1 hbound
    refine ⟨key, (isActive_iff_holdersAt h).2 ⟨hepoch, hkey⟩, ?_⟩
    intro other hother
    have hheld := ((isActive_iff_holdersAt h).1 hother).2
    rw [hkey] at hheld
    exact (Option.some.inj hheld).symm
  · intro hunbound key
    rw [Bool.eq_false_iff]
    intro hactive
    have hheld := ((isActive_iff_holdersAt h).1 hactive).2
    exact hunbound (Option.isSome_iff_exists.2 ⟨key, hheld⟩)

section

variable (h : fromRecords crypto records = .ok self)

include h

/-- Whoever is active for a role in some state was added for it. -/
theorem added_of_isActive (hactive : self.isActive role key epoch = true) :
    ∃ record ∈ records, ⟨role, key⟩ ∈ record.add := by
  obtain ⟨_, _, hhistory⟩ := fromRecords_models h
  obtain ⟨hepoch, hheld⟩ := (isActive_iff_holdersAt h).1 hactive
  obtain ⟨record, hrecord, hmem⟩ :=
    (hhistory.take (toNat_lt_length h hepoch)).added_of_holds hheld
  exact ⟨record, mem_of_mem_take hrecord, hmem⟩

/-- From the state of its retirement on, a key does not hold the role it was retired from. -/
theorem not_isActive_of_retired {record : KeyRegistryRecord} (hrecord : record ∈ records)
    {binding : KeyBinding} (hbinding : binding ∈ record.retire) (hle : record.seq ≤ epoch) :
    self.isActive binding.role binding.key epoch = false := by
  obtain ⟨hmodels, hrecords, hhistory⟩ := fromRecords_models h
  rw [Bool.eq_false_iff]
  intro hactive
  obtain ⟨hepoch, hheld⟩ := (isActive_iff_holdersAt h).1 hactive
  -- The retiring record is among those that make the state.
  obtain ⟨i, hi⟩ := getElem?_of_mem hrecord
  have hseq := hmodels.seqs i record (by rw [hrecords, hi])
  rw [UInt64.le_iff_toNat_le] at hle
  have hmem : record ∈ records.take (epoch.toNat + 1) := by
    refine mem_of_getElem? (?_ : (records.take (epoch.toNat + 1))[i]? = _)
    rw [getElem?_take_of_lt (by omega), hi]
  exact (hhistory.take (toNat_lt_length h hepoch)).retired_gone record hmem binding hbinding hheld

/-- An accepted record leaves the states before it as they were. -/
theorem push_earlier {record : KeyRegistryRecord} {self' : KeyRegistry}
    (hpush : (push crypto record).run self = (.ok (), self')) (hepoch : epoch < record.seq)
    (role : KeyRole) :
    self'.activeKey role epoch = self.activeKey role epoch ∧
      ∀ key, self'.isActive role key epoch = self.isActive role key epoch := by
  obtain ⟨hmodels, hrecords, hhistory⟩ := fromRecords_models h
  obtain ⟨hverdict, rfl⟩ := push_eq_ok.1 hpush
  have hne : self.records ≠ [] := by rw [hrecords]; exact hhistory.ne_nil
  obtain ⟨hmodels', _⟩ := push_models hmodels (.inr (by rwa [hrecords])) hverdict
  obtain ⟨hfits, hseq, _⟩ := verdict_eq_ok hverdict
  have hne' : (self.extended crypto record).records ≠ [] := by simp [extended]
  have hhead := hmodels.headSeq_toNat hne
  have hhead' := hmodels'.headSeq_toNat hne'
  rw [UInt64.lt_iff_toNat_lt, hseq, toNat_ofNat_of_lt hfits] at hepoch
  have hlength : (self.extended crypto record).records.length = self.records.length + 1 := by
    rw [extended, length_append, length_singleton]
  have hat : holdersAt (self.extended crypto record).records epoch.toNat =
      holdersAt self.records epoch.toNat := holdersAt_snoc_of_lt hepoch record
  constructor
  · rw [hmodels'.activeKey_eq (by omega), hmodels.activeKey_eq hepoch, hat]
  · intro key
    rw [Bool.eq_iff_iff, hmodels'.isActive_iff hne', hmodels.isActive_iff hne, hat,
      UInt64.le_iff_toNat_le, UInt64.le_iff_toNat_le]
    exact and_congr_left fun _ => by omega

end

/-- An accepted list of records is a history of exclusive roles: up to the head each role of the
genesis has exactly one active key and the others none; a key of the audit role has no other
role; a key retired from a role never holds it again, and holds another role only if the genesis
bound it to that one too; a further record changes no earlier state, and a refused one nothing. -/
theorem fromRecords_history {genesis : KeyRegistryRecord} {rest : List KeyRegistryRecord}
    (h : fromRecords crypto (genesis :: rest) = .ok self) :
    (∀ epoch ≤ self.headSeq, ∀ role,
      (∀ key, self.activeKey role epoch = some key ↔ self.isActive role key epoch = true) ∧
      (role ∈ genesis.add.map KeyBinding.role → ∃! key, self.isActive role key epoch = true) ∧
      (role ∉ genesis.add.map KeyBinding.role → ∀ key, self.isActive role key epoch = false)) ∧
    (∀ key epoch epoch' role, self.isActive .audit key epoch = true →
      self.isActive role key epoch' = true → role = .audit) ∧
    (∀ record ∈ genesis :: rest, ∀ binding ∈ record.retire, ∀ epoch, record.seq ≤ epoch →
      self.isActive binding.role binding.key epoch = false ∧
      ∀ role, self.isActive role binding.key epoch = true →
        ⟨binding.role, binding.key⟩ ∈ genesis.add ∧ ⟨role, binding.key⟩ ∈ genesis.add) ∧
    (∀ record self', (push crypto record).run self = (.ok (), self') →
      ∀ epoch < record.seq, ∀ role, self'.activeKey role epoch = self.activeKey role epoch ∧
        ∀ key, self'.isActive role key epoch = self.isActive role key epoch) ∧
    ∀ record e self', (push crypto record).run self = (.error e, self') → self' = self := by
  obtain ⟨_, _, hhistory⟩ := fromRecords_models h
  refine ⟨?_, ?_, ?_, ?_, ?_⟩
  · intro epoch hepoch role
    exact ⟨fun key => activeKey_eq_some_iff h hepoch, active_of_genesis h hepoch role⟩
  · intro key epoch epoch' role haudit hactive
    obtain ⟨record, hrecord, hmem⟩ := added_of_isActive h haudit
    obtain ⟨other, hother, hmem'⟩ := added_of_isActive h hactive
    exact hhistory.audit_exclusive record hrecord _ hmem rfl other hother _ hmem' rfl
  · intro record hrecord binding hbinding epoch hle
    have hgone := not_isActive_of_retired h hrecord hbinding hle
    refine ⟨hgone, ?_⟩
    intro role hactive
    obtain ⟨earlier, hearlier, hmem⟩ := hhistory.added_of_retired record hrecord binding hbinding
    obtain ⟨other, hother, hmem'⟩ := added_of_isActive h hactive
    rcases hhistory.binding_unique genesis rfl earlier (mem_of_mem_dropLast hearlier) binding hmem
      other hother _ hmem' rfl with heq | hboth
    · rw [heq] at hgone
      rw [hgone] at hactive
      cases hactive
    · exact hboth
  · intro record self' hpush epoch hepoch role
    exact push_earlier h hpush hepoch role
  · intro record e self' hpush
    exact push_error hpush

/-! ## A key with two roles -/

/-- A signature scheme that accepts everything. -/
def lenient : Crypto where
  sha256 _ := zeroHash
  hmacSha256 _ _ := zeroHash
  blake3 _ := zeroHash
  verify _ _ _ := true
  verifyStrict _ _ _ := true

/-- A key of one repeated byte. -/
def repeatedKey (byte : UInt8) : PublicKey := ⟨List.replicate 32 byte, by simp⟩

def signedBy (keys : List PublicKey) : List RegistrySignature :=
  keys.map fun key => ⟨key, ⟨List.replicate 64 0, Signature.length_zero⟩⟩

/-- The runtime key signs capability tokens and builds. -/
def sharedGenesis : KeyRegistryRecord where
  seq := 0
  prev := zeroHash
  timestamp := 0
  op := .genesis
  add := [⟨.audit, repeatedKey 1⟩, ⟨.capability, repeatedKey 2⟩, ⟨.build, repeatedKey 2⟩]
  retire := []
  signatures := signedBy [repeatedKey 1, repeatedKey 2]

/-- A new key takes over capability tokens. -/
def capabilityRotation : KeyRegistryRecord where
  seq := 1
  prev := zeroHash
  timestamp := 0
  op := .rotate
  add := [⟨.capability, repeatedKey 3⟩]
  retire := [⟨.capability, repeatedKey 2⟩]
  signatures := signedBy [repeatedKey 2, repeatedKey 3]

def sharedRegistry : KeyRegistry where
  records := [sharedGenesis, capabilityRotation]
  hashes := [zeroHash, zeroHash]
  grants := [⟨⟨.audit, repeatedKey 1⟩, 0, none⟩, ⟨⟨.capability, repeatedKey 2⟩, 0, some 1⟩,
    ⟨⟨.build, repeatedKey 2⟩, 0, none⟩, ⟨⟨.capability, repeatedKey 3⟩, 1, none⟩]

theorem fromRecords_shared :
    fromRecords lenient [sharedGenesis, capabilityRotation] = .ok sharedRegistry := by
  rfl

/-- Retired from capability tokens, the runtime key is still the key of builds. -/
theorem retired_key_active :
    fromRecords lenient [sharedGenesis, capabilityRotation] = .ok sharedRegistry ∧
      ⟨.capability, repeatedKey 2⟩ ∈ capabilityRotation.retire ∧
      capabilityRotation.seq ≤ 1 ∧ sharedRegistry.isActive .build (repeatedKey 2) 1 = true :=
  ⟨fromRecords_shared, by decide, by decide, by decide⟩

/-- The history of the shared registry. -/
theorem sharedRegistry_history :
    fromRecords lenient [sharedGenesis, capabilityRotation] = .ok sharedRegistry ∧
      sharedRegistry.isActive .capability (repeatedKey 2) 1 = false :=
  ⟨fromRecords_shared, ((fromRecords_history fromRecords_shared).2.2.1 capabilityRotation
    (by decide) ⟨.capability, repeatedKey 2⟩ (by decide) 1 (by decide)).1⟩

end KeyRegistry

end Astrid.Audit
