import Astrid.Durable.Stored
import Astrid.Model.WorldRun

/-!
# The in-memory engine beside the durable one

`InMemoryEngine::commit` of `engine/mod.rs` verifies identities and leaves the rest to the
world; the durable engine validates the same transaction with code of its own. Both accept
a transaction only if its records agree with each other and the closure of its commit is
complete. They differ in what they say of the records that do not belong to that closure:
the world refuses the whole import, the durable engine passes over them. And only the
durable engine has frame limits.

`Carries` and `Fits` name the two differences, and `reference_agrees_iff` says that there
are no others.
-/

namespace Astrid

open Std List Option

variable {P : Type} [Key P]

/-! ## The in-memory engine -/

namespace InMemoryEngine

def verifyIdentities (env : WalEnv P) :
    List (Digest × ObjectRecord Digest) → Except (ModelError Digest) Unit
  | [] => .ok ()
  | (declared, record) :: rest => do
    require (env.identify record = declared)
      (.objectIdentityMismatch declared (env.identify record))
    verifyIdentities env rest

def commit (env : WalEnv P) (world : World Digest P) (transaction : RootTransaction P) :
    Except (ModelError Digest) CommitOutcome × World Digest P :=
  match verifyIdentities env transaction.records with
  | .error error => (.error error, world)
  | .ok () =>
    match world.commitClosureOwned transaction.principal transaction.expected transaction.commit
        transaction.records with
    | (.error error, world) => (.error error, world)
    | (.ok (root, objectsInserted), world) => (.ok ⟨root, objectsInserted⟩, world)

/-- Commit the transactions one after another. -/
def commitEach (env : WalEnv P) (world : World Digest P) : List (RootTransaction P) →
    List (Except (ModelError Digest) CommitOutcome) × World Digest P
  | [] => ([], world)
  | transaction :: rest =>
    let (outcome, world) := commit env world transaction
    let (outcomes, world) := commitEach env world rest
    (outcome :: outcomes, world)

end InMemoryEngine

/-- Both engines reject, or both accept with the same new root and insertion count. -/
def Matches : Except DurableError CommitOutcome → Except (ModelError Digest) CommitOutcome → Prop
  | .ok outcome, .ok outcome' => outcome = outcome'
  | .error _, .error _ => True
  | _, _ => False

/-! ## Record lists -/

section Records

variable {env : WalEnv P}

section

variable (records : List (Digest × ObjectRecord Digest))

/-- Records with the same identity are the same. -/
def Consistent : Prop :=
  ∀ a ∈ records, ∀ b ∈ records, a.1 = b.1 → a.2 = b.2

/-- The first record of an identity. -/
def broughtRecord (id : Digest) : Option (ObjectRecord Digest) :=
  (records.find? fun entry => entry.1 = id).map Prod.snd

end

variable {records : List (Digest × ObjectRecord Digest)}

theorem broughtRecord_eq_some (h : Consistent records) {id : Digest}
    {record : ObjectRecord Digest} :
    broughtRecord records id = some record ↔ (id, record) ∈ records := by
  unfold broughtRecord
  constructor
  · intro hrecord
    obtain ⟨entry, hfind, hentry⟩ := map_eq_some_iff.1 hrecord
    have hid : entry.1 = id := by simpa using find?_some hfind
    rw [← hid, ← hentry]
    exact mem_of_find?_eq_some hfind
  · intro hmem
    cases hfind : records.find? fun entry => entry.1 = id with
    | none => simpa using find?_eq_none.1 hfind _ hmem
    | some entry =>
      have hid : entry.1 = id := by simpa using find?_some hfind
      exact congrArg some (h entry (mem_of_find?_eq_some hfind) _ hmem hid)

omit [Key P] in
theorem verifyIdentities_eq_ok :
    InMemoryEngine.verifyIdentities env records = .ok () ↔
      ∀ entry ∈ records, env.identify entry.2 = entry.1 := by
  induction records with
  | nil => simp [InMemoryEngine.verifyIdentities]
  | cons _ _ ih =>
    simp only [InMemoryEngine.verifyIdentities, bind_eq_ok, require_eq_ok, ih, forall_mem_cons,
      exists_const]

theorem uniqueTransactionRecords_of : ∀ {records : List (Digest × ObjectRecord Digest)}
    {start : FMap Digest (ObjectRecord Digest)}, Consistent records →
    (∀ entry ∈ records, ∀ record, start[entry.1]? = some record → record = entry.2) →
    ∃ unique, LiveEngine.uniqueTransactionRecords records start = .ok unique := by
  intro records
  induction records with
  | nil => exact fun {start} _ _ => ⟨start, rfl⟩
  | cons entry rest ih =>
    intro start hconsistent hstart
    have hrest : Consistent rest := fun a ha b hb =>
      hconsistent a (mem_cons_of_mem _ ha) b (mem_cons_of_mem _ hb)
    unfold LiveEngine.uniqueTransactionRecords
    cases hexisting : start[entry.1]? with
    | some existing =>
      dsimp only
      rw [require_pos (hstart entry mem_cons_self existing hexisting)]
      exact ih hrest (forall_mem_cons.1 hstart).2
    | none =>
      refine ih hrest fun other hother record hrecord => ?_
      rcases insert_cases hrecord with ⟨heq, rfl⟩ | ⟨_, hrecord⟩
      · exact hconsistent entry mem_cons_self other (mem_cons_of_mem _ hother) heq
      · exact hstart other (mem_cons_of_mem _ hother) record hrecord

end Records

/-! ## What the world accepts -/

section World

variable {w : World Digest P} {records : List (Digest × ObjectRecord Digest)} {root : Digest}

/-- What a closure is read from: the records of the transaction, then what is stored. -/
def carriedObject (records : List (Digest × ObjectRecord Digest))
    (objects : FMap Digest (ObjectRecord Digest)) (id : Digest) : Option (ObjectRecord Digest) :=
  (broughtRecord records id).or objects[id]?

/-- The records agree with each other and with what is stored. -/
structure Coherent (records : List (Digest × ObjectRecord Digest))
    (objects : FMap Digest (ObjectRecord Digest)) : Prop where
  consistent : Consistent records
  stored : ∀ entry ∈ records, ∀ record, objects[entry.1]? = some record → record = entry.2

variable {objects : FMap Digest (ObjectRecord Digest)}

theorem Coherent.carried (h : Coherent records objects) {entry : Digest × ObjectRecord Digest}
    (hentry : entry ∈ records) : carriedObject records objects entry.1 = some entry.2 := by
  unfold carriedObject
  rw [(broughtRecord_eq_some h.consistent).2 hentry, some_or]

omit [Key P] in
theorem Coherent.covers {records : List (Digest × ObjectRecord Digest)}
    (h : Coherent records objects) (id : Digest) (record : ObjectRecord Digest)
    (hrecord : objects[id]? = some record) : carriedObject records objects id = some record := by
  unfold carriedObject
  cases hbrought : broughtRecord records id with
  | none => rw [none_or, hrecord]
  | some =>
    have hmem := (broughtRecord_eq_some h.consistent).1 hbrought
    rw [some_or, h.stored _ hmem record hrecord]

theorem carriedObject_of_not_mem {id : Digest} (h : id ∉ records.map Prod.fst) :
    carriedObject records objects id = objects[id]? := by
  unfold carriedObject broughtRecord
  rw [find?_eq_none.mpr, map_none, none_or]
  intro entry hentry hid
  exact h (mem_map.2 ⟨entry, hentry, by simpa using hid⟩)

theorem stageImport_of : ∀ {records : List (Digest × ObjectRecord Digest)}
    {staged : FMap Digest (ObjectRecord Digest)}, Coherent records w.objects →
    (∀ entry ∈ records, ∀ record, staged[entry.1]? = some record → record = entry.2) →
    ∃ staged', w.stageImport records staged = .ok staged' := by
  intro records
  induction records with
  | nil => exact fun {staged} _ _ => ⟨staged, rfl⟩
  | cons entry rest ih =>
    intro staged hcoherent hstaged
    have hrest : Coherent rest w.objects :=
      ⟨fun a ha b hb => hcoherent.consistent a (mem_cons_of_mem _ ha) b
          (mem_cons_of_mem _ hb),
        (forall_mem_cons.1 hcoherent.stored).2⟩
    unfold World.stageImport
    cases hexisting : (staged[entry.1]?).or w.objects[entry.1]? with
    | some existing =>
      have hsame : existing = entry.2 := by
        rcases or_eq_some_iff.1 hexisting with hold | ⟨_, hold⟩
        · exact hstaged entry mem_cons_self existing hold
        · exact hcoherent.stored entry mem_cons_self existing hold
      dsimp only
      rw [if_pos hsame]
      exact ih hrest (forall_mem_cons.1 hstaged).2
    | none =>
      refine ih hrest fun other hother record hrecord => ?_
      rcases insert_cases hrecord with ⟨heq, rfl⟩ | ⟨_, hrecord⟩
      · exact hcoherent.consistent entry mem_cons_self other (mem_cons_of_mem _ hother) heq
      · exact hstaged other (mem_cons_of_mem _ hother) record hrecord

variable {staged : FMap Digest (ObjectRecord Digest)}

/-- What staging has found out: coherence, and the records that are new. -/
theorem coherent_of_stageImport (h : w.stageImport records ∅ = .ok staged) :
    Coherent records w.objects ∧ (∀ (id : Digest) record, staged[id]? = some record ↔
        (id, record) ∈ records ∧ w.objects[id]? = none) ∧
      ∀ id, (staged[id]?).or w.objects[id]? = carriedObject records w.objects id := by
  obtain ⟨_, hfrom, hall⟩ := World.stageImport_ok h
  have hstaged : ∀ (id : Digest) record, staged[id]? = some record →
      w.objects[id]? = none ∧ id ∈ records.map Prod.fst := by
    intro id record hrecord
    rcases hfrom id record hrecord with hempty | hnew
    · cases hempty
    · exact hnew
  have hcoherent : Coherent records w.objects := by
    constructor
    · intro a ha b hb hid
      have hb' := hall b hb
      rw [← hid, hall a ha] at hb'
      exact Option.some.inj hb'
    · intro entry hentry record hrecord
      have hview := hall entry hentry
      rcases or_eq_some_iff.1 hview with hnew | ⟨_, hold⟩
      · rw [(hstaged _ _ hnew).1] at hrecord
        cases hrecord
      · rw [hold] at hrecord
        exact (Option.some.inj hrecord).symm
  refine ⟨hcoherent, fun id record => ⟨fun hrecord => ?_, fun ⟨hmem, hnone⟩ => ?_⟩, fun id => ?_⟩
  · obtain ⟨hnone, hkey⟩ := hstaged id record hrecord
    obtain ⟨entry, hentry, rfl⟩ := mem_map.1 hkey
    have hview := hall entry hentry
    rw [hrecord] at hview
    cases hview
    exact ⟨hentry, hnone⟩
  · have hview := hall _ hmem
    rwa [hnone, or_none] at hview
  · by_cases hkey : id ∈ records.map Prod.fst
    · obtain ⟨entry, hentry, rfl⟩ := mem_map.1 hkey
      rw [hall entry hentry, hcoherent.carried hentry]
    · have hnone : staged[id]? = none := by
        cases hrecord : staged[id]? with
        | none => rfl
        | some record => exact absurd (hstaged id record hrecord).2 hkey
      rw [hnone, none_or, carriedObject_of_not_mem hkey]

/-- The import is accepted exactly when its records are coherent, the closure of the root
is complete and no record lies outside it. -/
theorem classifyImport_iff :
    w.classifyImport records root = .ok staged ↔ w.stageImport records ∅ = .ok staged ∧
        Grounded (owned (carriedObject records w.objects)) root ∧
        ∀ entry ∈ records, Reaches (owned (carriedObject records w.objects)) root entry.1 := by
  unfold World.classifyImport
  cases hstage : w.stageImport records ∅ with
  | error => simp
  | ok staged' =>
    obtain ⟨_, _, hview⟩ := coherent_of_stageImport hstage
    have hsource : ((ObjectSource.ofMap staged').orElse w.source).object =
        carriedObject records w.objects := funext hview
    dsimp only
    cases hclosure : closureWith ((ObjectSource.ofMap staged').orElse w.source) root with
    | error =>
      refine ⟨fun h => (by cases h), fun ⟨_, hgrounded, _⟩ => ?_⟩
      rw [← hsource] at hgrounded
      obtain ⟨_, hids⟩ := closureWith_of_grounded hgrounded
      rw [hclosure] at hids
      cases hids
    | ok closure =>
      obtain ⟨hgrounded, hreaches⟩ := closureWith_ok hclosure
      rw [hsource] at hgrounded hreaches
      dsimp only
      cases hfind : (records.map Prod.fst).find? fun id => id ∉ closure with
      | some =>
        refine ⟨fun h => (by cases h), fun ⟨_, _, hall⟩ => ?_⟩
        obtain ⟨entry, hentry, rfl⟩ := mem_map.1 (mem_of_find?_eq_some hfind)
        have hout : entry.1 ∉ closure := by simpa using find?_some hfind
        exact absurd ((hreaches _).2 (hall entry hentry)) hout
      | none =>
        have hall : ∀ entry ∈ records, Reaches (owned (carriedObject records w.objects)) root
            entry.1 := by
          intro entry hentry
          have hin := find?_eq_none.1 hfind entry.1 (mem_map_of_mem hentry)
          exact (hreaches _).1 (by simpa using hin)
        exact ⟨fun h => ⟨h, hgrounded, hall⟩, fun h => h.1⟩

theorem incomingRoot_of {records : List (Digest × ObjectRecord Digest)}
    {start : Option (ObjectRecord Digest)} (hconsistent : Consistent records)
    (hstart : ∀ entry ∈ records, entry.1 = root → ∀ record, start = some record →
      record = entry.2) :
    World.incomingRoot root records start = .ok (start.or (broughtRecord records root)) := by
  induction records generalizing start with
  | nil =>
    rw [World.incomingRoot, broughtRecord, find?_nil, map_none, or_none]
  | cons entry rest ih =>
    have hrest : Consistent rest := fun a ha b hb =>
      hconsistent a (mem_cons_of_mem _ ha) b (mem_cons_of_mem _ hb)
    rw [World.incomingRoot]
    by_cases hid : entry.1 = root
    · -- every copy of the root is the first one
      have hsame : start = none ∨ start = some entry.2 := by
        cases start with
        | none => exact .inl rfl
        | some record => exact .inr (congrArg some (hstart entry mem_cons_self hid record rfl))
      have hbrought : broughtRecord (entry :: rest) root = some entry.2 := by
        rw [broughtRecord, find?_cons_of_pos (by simpa using hid), map_some]
      have hany : ¬ start.any (· ≠ entry.2) = true := by
        rcases hsame with rfl | rfl <;> simp
      rw [if_neg (not_not_intro hid), if_neg hany, ih hrest ?_, hbrought]
      · rcases hsame with rfl | rfl <;> rfl
      · rintro other hother hother' record ⟨⟩
        exact hconsistent entry mem_cons_self other (mem_cons_of_mem _ hother)
          (hid.trans hother'.symm)
    · have hbrought : broughtRecord (entry :: rest) root = broughtRecord rest root := by
        rw [broughtRecord, find?_cons_of_neg (by simpa using hid)]
        rfl
      rw [if_pos hid, ih hrest (forall_mem_cons.1 hstart).2,
        hbrought]

theorem validateTransactionRoot_iff (h : Consistent records) :
    w.validateTransactionRoot records root = .ok () ↔
      ∃ record, carriedObject records w.objects root = some record ∧ record.kind = .commit := by
  have hincoming : World.incomingRoot root records none = .ok (broughtRecord records root) := by
    rw [incomingRoot_of h (by simp), none_or]
  unfold World.validateTransactionRoot carriedObject
  rw [hincoming]
  dsimp only
  cases (broughtRecord records root).or w.objects[root]? with
  | none => simp
  | some record => by_cases hkind : record.kind = .commit <;> simp [hkind]

omit [Key P] in
theorem nextGeneration_eq_ok {actual : Option (RootState Digest)} {generation : RootGeneration} :
    World.nextGeneration actual = .ok generation ↔
      LiveEngine.nextGeneration actual = some generation := by
  unfold World.nextGeneration LiveEngine.nextGeneration
  cases actual with
  | none => simp
  | some =>
    dsimp only
    split
    next generation' hnext => rw [hnext, Except.ok.injEq, Option.some.injEq]
    next hnext => simp [hnext]

/-- What both engines ask of a transaction, over the same roots and objects. -/
structure Admissible (env : WalEnv P) (roots : FMap P (RootState Digest))
    (objects : FMap Digest (ObjectRecord Digest)) (transaction : RootTransaction P)
    (generation : RootGeneration) : Prop where
  identities : ∀ entry ∈ transaction.records, env.identify entry.2 = entry.1
  current : roots[transaction.principal]? = transaction.expected
  next : LiveEngine.nextGeneration transaction.expected = some generation
  coherent : Coherent transaction.records objects
  commit : ∃ record, carriedObject transaction.records objects transaction.commit = some record ∧
    record.kind = .commit
  grounded : Grounded (owned (carriedObject transaction.records objects)) transaction.commit

/-- Every record of the transaction belongs to the closure of its commit. -/
def OwnsAll (objects : FMap Digest (ObjectRecord Digest)) (transaction : RootTransaction P) :
    Prop :=
  ∀ entry ∈ transaction.records,
    Reaches (owned (carriedObject transaction.records objects)) transaction.commit entry.1

/-- The in-memory engine asks for just one more thing. -/
theorem reference_commit_iff {env : WalEnv P} {transaction : RootTransaction P}
    {outcome : CommitOutcome} {w' : World Digest P} :
    InMemoryEngine.commit env w transaction = (.ok outcome, w') ↔
      ∃ generation staged, Admissible env w.roots w.objects transaction generation ∧
        OwnsAll w.objects transaction ∧
        w.stageImport transaction.records ∅ = .ok staged ∧ staged.size < wordLimit ∧
        outcome = ⟨⟨generation, transaction.commit⟩, staged.size⟩ ∧ w' = { w with
          objects := w.objects.insertMany (World.takeStaged transaction.records staged)
          roots := w.roots.insert transaction.principal ⟨generation, transaction.commit⟩ } := by
  constructor
  · intro h
    unfold InMemoryEngine.commit at h
    split at h
    · cases h
    rename_i hidentities
    split at h
    · cases h
    rename_i root inserted w'' hcommit
    obtain ⟨houtcome, rfl⟩ := Prod.mk.inj h
    cases houtcome
    unfold World.commitClosureOwned at hcommit
    split at hcommit
    next => cases (Prod.mk.inj hcommit).1
    next hcurrent =>
      split at hcommit
      next => cases (Prod.mk.inj hcommit).1
      next generation hgeneration =>
        split at hcommit
        next => cases (Prod.mk.inj hcommit).1
        next hroot =>
          split at hcommit
          next => cases (Prod.mk.inj hcommit).1
          next staged hclassify =>
            split at hcommit
            next hsize =>
              obtain ⟨hresult, rfl⟩ := Prod.mk.inj hcommit
              cases hresult
              obtain ⟨hstage, hgrounded, howns⟩ := classifyImport_iff.1 hclassify
              obtain ⟨hcoherent, _, _⟩ := coherent_of_stageImport hstage
              have hcurrent' := not_not.1 hcurrent
              rw [hcurrent'] at hgeneration
              exact ⟨generation, staged, ⟨verifyIdentities_eq_ok.1 hidentities, hcurrent',
                nextGeneration_eq_ok.1 hgeneration, hcoherent,
                (validateTransactionRoot_iff hcoherent.consistent).1 hroot, hgrounded⟩,
                howns, hstage, hsize, rfl, rfl⟩
            next => cases (Prod.mk.inj hcommit).1
  · rintro ⟨generation, staged, h, howns, hstage, hsize, rfl, rfl⟩
    have hcommit : w.commitClosureOwned transaction.principal transaction.expected
        transaction.commit transaction.records = (.ok (⟨generation, transaction.commit⟩,
          staged.size), { w with
            objects := w.objects.insertMany (World.takeStaged transaction.records staged)
            roots := w.roots.insert transaction.principal ⟨generation, transaction.commit⟩ }) := by
      unfold World.commitClosureOwned
      rw [if_neg (not_not_intro h.current), h.current, nextGeneration_eq_ok.2 h.next]
      rw [(validateTransactionRoot_iff h.coherent.consistent).2 h.commit]
      rw [classifyImport_iff.2 ⟨hstage, h.grounded, howns⟩]
      dsimp only
      rw [if_pos hsize]
    unfold InMemoryEngine.commit
    rw [verifyIdentities_eq_ok.2 h.identities, hcommit]

end World

namespace LiveEngine

variable {env : WalEnv P} {e : LiveEngine P} {transaction : RootTransaction P}
  {unique : FMap Digest (ObjectRecord Digest)}

/-- What a closure is read from is the same in both engines. -/
theorem closureObjects_eq_carried (h : Sound env e)
    (hunique : uniqueTransactionRecords transaction.records ∅ = .ok unique) :
    Consistent transaction.records ∧
      (e.closureObjects unique).object = carriedObject transaction.records e.arena := by
  have hconsistent : Consistent transaction.records := by
    intro a ha b hb hid
    have hb' := (unique_eq_some_iff hunique).2 hb
    rw [← hid, (unique_eq_some_iff hunique).2 ha] at hb'
    exact Option.some.inj hb'
  refine ⟨hconsistent, ?_⟩
  rw [h.closureObjects]
  funext id
  congr 1
  refine ext fun record => ?_
  rw [broughtRecord_eq_some hconsistent, unique_eq_some_iff hunique]

/-- Known objects are closed and grounded in what the transaction sees, too. -/
theorem Sound.carried (h : Sound env e) (hcoherent : Coherent transaction.records e.arena) :
    (∀ id ∈ e.validated, Grounded (owned (carriedObject transaction.records e.arena)) id) ∧
    ∀ a b, decide (a ∈ e.validated) = true →
      Edge (owned (carriedObject transaction.records e.arena)) a b →
        decide (b ∈ e.validated) = true := by
  have hmono : ∀ id children, owned (fun id => e.arena[id]?) id = some children →
      owned (carriedObject transaction.records e.arena) id = some children :=
    owned_mono hcoherent.covers
  refine ⟨fun id hid => (h.grounded id hid).mono hmono, ?_⟩
  rintro a b ha ⟨children, hchildren, hb⟩
  have hvalidated := of_decide_eq_true ha
  obtain ⟨stored, hstored⟩ := (h.grounded a hvalidated).present
  have hsame := hmono a stored hstored
  rw [hchildren] at hsame
  cases hsame
  exact decide_eq_true (h.closed a hvalidated b ⟨children, hstored, hb⟩)

/-- A record that is stored already, or whose frame can be stored. -/
def Storable (env : WalEnv P) (e : LiveEngine P) (entry : Digest × ObjectRecord Digest) : Prop :=
  match e.arena[entry.1]? with
  | some record => record = entry.2
  | none => ∃ payload, encodeObjectFrame env.scheme entry.1 entry.2 = some payload ∧
      payload.length ≤ env.maxFrameBytes

theorem prepareObjects_isOk_iff (h : Sound env e) {reachable : FSet Digest}
    {entries : List (Digest × ObjectRecord Digest)} :
    (∃ frames, e.prepareObjects env reachable entries = .ok frames) ↔
      ∀ entry ∈ entries, entry.1 ∈ reachable → e.Storable env entry := by
  induction entries with
  | nil => exact ⟨fun _ => by simp, fun _ => ⟨[], rfl⟩⟩
  | cons entry rest ih =>
    rw [prepareObjects_cons h, forall_mem_cons, ← ih]
    by_cases hreached : entry.1 ∈ reachable
    · rw [if_neg (not_not_intro hreached)]
      unfold Storable
      cases e.arena[entry.1]? with
      | some => simp [bind_eq_ok, require_eq_ok, hreached]
      | none =>
        simp only [ensurePayloadLimit, bind_eq_ok, okOr_eq_ok, require_eq_ok, hreached,
          true_imp_iff]
        constructor
        · rintro ⟨_, payload, hpayload, _, hlimit, frames, hframes, _⟩
          exact ⟨⟨payload, hpayload, hlimit⟩, frames, hframes⟩
        · rintro ⟨⟨payload, hpayload, hlimit⟩, frames, hframes⟩
          exact ⟨_, payload, hpayload, (), hlimit, frames, hframes, rfl⟩
    · rw [if_pos hreached]
      simp [hreached]

/-- What the durable engine asks of a transaction. It looks at no object below one that it has
validated, and at no record that it does not reach. -/
structure Prepares (env : WalEnv P) (e : LiveEngine P) (transaction : RootTransaction P)
    (generation : RootGeneration) : Prop where
  identities : ∀ entry ∈ transaction.records, env.identify entry.2 = entry.1
  current : e.rootsByPrincipal[transaction.principal]? = transaction.expected
  next : nextGeneration transaction.expected = some generation
  consistent : Consistent transaction.records
  commit : ∃ record, carriedObject transaction.records e.arena transaction.commit = some record ∧
    record.kind = .commit
  grounded : Grounded (cut (fun id => decide (id ∈ e.validated))
    (owned (carriedObject transaction.records e.arena))) transaction.commit
  storable : ∀ entry ∈ transaction.records, Reaches (cut (fun id => decide (id ∈ e.validated))
    (owned (carriedObject transaction.records e.arena))) transaction.commit entry.1 →
      e.Storable env entry
  journal : ∃ payload, encodeRootRecord env.scheme (env.encodePrincipal transaction.principal)
    transaction.expected ⟨generation, transaction.commit⟩ = some payload ∧
      payload.length ≤ env.maxFrameBytes

theorem prepare_isOk_iff (h : Sound env e) :
    (∃ prepared, e.prepare env transaction = .ok prepared) ↔
      ∃ generation, e.Prepares env transaction generation := by
  constructor
  · rintro ⟨_, hprepare⟩
    simp only [prepare, ensurePayloadLimit, bind_eq_ok, okOr_eq_ok, require_eq_ok] at hprepare
    obtain ⟨_, hidentities, _, hexpected, generation, hgeneration, _, hunique, _, hreachable,
      frames, hframes, journal, hjournal, _, hlimit, _⟩ := hprepare
    obtain ⟨hconsistent, hview⟩ := closureObjects_eq_carried h hunique
    obtain ⟨hcommit, hgrounded, hreaches⟩ := validateIncrementalClosure_ok hreachable
    rw [hview] at hcommit hgrounded hreaches
    refine ⟨generation, verifyDeclaredIdentities_eq_ok.1 hidentities, hexpected,
      hexpected ▸ hgeneration, hconsistent, hcommit, hgrounded, fun entry hentry hreach => ?_,
      journal, hjournal, hlimit⟩
    exact (prepareObjects_isOk_iff h).1 ⟨frames, hframes⟩ entry
      ((mem_unique_iff hunique entry).2 hentry) ((hreaches _).2 hreach)
  · rintro ⟨generation, hp⟩
    obtain ⟨unique, hunique⟩ : ∃ unique, uniqueTransactionRecords transaction.records ∅ =
        .ok unique := uniqueTransactionRecords_of hp.consistent (by simp)
    obtain ⟨_, hview⟩ := closureObjects_eq_carried h hunique
    obtain ⟨_, hrecord, hkind⟩ := hp.commit
    obtain ⟨reachable, hreachable⟩ := validateIncrementalClosure_of_grounded
      (hview ▸ hrecord) hkind (hview ▸ hp.grounded)
    obtain ⟨_, _, hreaches⟩ := validateIncrementalClosure_ok hreachable
    rw [hview] at hreaches
    obtain ⟨frames, hframes⟩ := (prepareObjects_isOk_iff h).2 fun entry hentry hreached =>
      hp.storable entry ((mem_unique_iff hunique entry).1 hentry) ((hreaches _).1 hreached)
    obtain ⟨journal, hjournal, hlimit⟩ := hp.journal
    refine ⟨⟨transaction.principal, transaction.expected, ⟨generation, transaction.commit⟩, frames,
      journal, reachable⟩, ?_⟩
    simp only [prepare, ensurePayloadLimit, bind_eq_ok, okOr_eq_ok, require_eq_ok]
    exact ⟨(), verifyDeclaredIdentities_eq_ok.2 hp.identities, (), hp.current, generation,
      hp.current ▸ hp.next, unique, hunique, reachable, hreachable, frames, hframes, journal,
      hjournal, (), hlimit, rfl⟩

end LiveEngine

end Astrid
