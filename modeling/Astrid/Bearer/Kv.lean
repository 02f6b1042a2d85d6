import Astrid.Lib.Ledger
import Astrid.Capability.Token

/-!
# Records of bearer tokens in the key-value store

`astrid-kernel`, `pair_token` and `invite`: both stores keep their records in one namespace of
the key-value store, as JSON under a prefix and the identifier of the token, and change them
only by conditional batches. Any number of daemons work on one namespace. A read and a batch
are one atomic action each; either may fail, and the answer to a batch may be lost after it was
applied. Each daemon reads its own clock.
-/

namespace Astrid.Bearer

open Std Calls Capability List

inductive StorageError
  | notFound (detail : String)
  | internal (detail : String)
  | connection (detail : String)
  | serialization (detail : String)
  | invalidKey (detail : String)
  deriving DecidableEq

abbrev Outcome (α : Type) := Except StorageError α

abbrev Values := FMap Text Bytes

/-! ## Records -/

/-- The `serde_json` crate for one type. -/
structure Json (α : Type) where
  toVec : α → Bytes
  fromSlice : Bytes → Option α
  round_trip : ∀ a, fromSlice (toVec a) = some a

/-- How records of one type are written and read, with the texts of the errors. -/
structure Schema (α : Type) where
  json : Json α
  tokenHash : α → Text
  validateRecord : α → Outcome Unit
  oversized : String
  invalid : String
  disappeared : String
  tooMany : String

def maxRecordBytes : Nat := 16 * 1024

def maxRecords : Nat := 4096

namespace Schema

variable {α : Type} (schema : Schema α)

def encode (record : α) : Outcome Bytes := do
  schema.validateRecord record
  let value := schema.json.toVec record
  if value.length > maxRecordBytes then .error (.serialization schema.oversized) else .ok value

def decode (bytes : Bytes) : Outcome α :=
  if bytes.length > maxRecordBytes then .error (.serialization schema.oversized)
  else
    match schema.json.fromSlice bytes with
    | some record => do
      schema.validateRecord record
      .ok record
    | none => .error (.serialization schema.invalid)

theorem decode_encode {record : α} {value : Bytes} (h : schema.encode record = .ok value) :
    schema.decode value = .ok record := by
  obtain ⟨_, hvalid, h⟩ := bind_eq_ok.1 h
  dsimp only at h
  split at h
  · cases h
  rename_i hsize
  cases h
  unfold decode
  rw [if_neg hsize, schema.json.round_trip]
  simp only [hvalid]
  rfl

end Schema

/-! ## Texts -/

/-- Split at the first occurrence of a character. -/
def splitOnce (c : Char) : Text → Option (Text × Text)
  | [] => none
  | d :: rest => if d = c then some ([], rest) else (splitOnce c rest).map fun p => (d :: p.1, p.2)

/-! ## Batches -/

/-- A batch of mutations, each to a value or to absence, under conditions on current values. -/
structure Batch where
  conditions : List (Text × Option Bytes)
  mutations : List (Text × Option Bytes)

namespace Batch

def Holds (batch : Batch) (kv : Values) : Prop :=
  ∀ condition ∈ batch.conditions, kv[condition.1]? = condition.2

instance (batch : Batch) (kv : Values) : Decidable (batch.Holds kv) :=
  inferInstanceAs (Decidable (∀ condition ∈ batch.conditions, _))

def mutate (kv : Values) (mutation : Text × Option Bytes) : Values :=
  match mutation.2 with
  | some value => kv.insert mutation.1 value
  | none => kv.erase mutation.1

def run (batch : Batch) (kv : Values) : Values := batch.mutations.foldl mutate kv

def keys (batch : Batch) : List Text := (batch.conditions ++ batch.mutations).map Prod.fst

/-- Delete a key that still has the value. -/
def deleteExact (key : Text) (value : Bytes) : Batch := ⟨[(key, some value)], [(key, none)]⟩

end Batch

def validateKey (key : Text) : Outcome Unit :=
  if key = [] then .error (.invalidKey "key must not be empty")
  else if '\x00' ∈ key then .error (.invalidKey "key must not contain null bytes")
  else .ok ()

/-! ## Actions -/

abbrev Store := Ledger Values Text

abbrev Call := Prog Store

/-- Go on unless there was an error. -/
def andThen {α β : Type} (p : Call (Outcome α)) (k : α → Call (Outcome β)) : Call (Outcome β) := do
  match ← p with
  | .ok a => k a
  | .error e => pure (.error e)

def ofOutcome {α : Type} (outcome : Outcome α) : Call (Outcome α) := pure outcome

def backendFailed : StorageError := .connection "the backend failed"

/-- A read, which may fail. -/
def readKv {α : Type} (f : Values → α) : Call (Outcome α) := do
  let outcome ← .pick
  if outcome = 0 then pure (.error backendFailed) else .read fun s => .ok (f s.store)

def get (key : Text) : Call (Outcome (Option Bytes)) :=
  andThen (ofOutcome (validateKey key)) fun _ => readKv fun kv => kv[key]?

def listKeysWithPrefix (start : Text) : Call (Outcome (List Text)) :=
  readKv fun kv => kv.keys.filter fun key => start.isPrefixOf key

/-- What a batch means for a token. -/
inductive Note
  | nothing
  | spends (hash : Text)
  | issues (hash : Text) (uses : Nat)

section Apply

variable (weight : Values → Text → Nat)

/-- The store after a batch of call `n`, with the entry in the ledger. -/
def enter (n : Nat) (batch : Batch) (note : Note) (s : Store) : Store :=
  match note with
  | .nothing => { s with store := batch.run s.store }
  | .spends hash =>
    { s with
      store := batch.run s.store
      spent := (n, hash, weight s.store hash) :: s.spent }
  | .issues hash uses =>
    { s with
      store := batch.run s.store
      issued := (n, hash, uses) :: s.issued }

/-- Apply a batch if its conditions hold, and say whether they did. -/
def apply (n : Nat) (batch : Batch) (note : Note) : Call (Outcome Bool) :=
  andThen (ofOutcome (batch.keys.forM validateKey)) fun _ => do
    let outcome ← .pick
    if outcome = 0 then pure (.error backendFailed)
    else
      let applied ← .atomically fun s =>
        if batch.Holds s.store then (true, enter weight n batch note s) else (false, s)
      -- The answer may be lost.
      if outcome = 1 then pure (.error backendFailed) else pure (.ok applied)

end Apply

/-- The time of the daemon. -/
def nowEpoch : Call Nat := .pick

/-! ## Scans -/

def recordPrefix : Text := ['r', 'e', 'c', 'o', 'r', 'd', ':']

section Scans

variable {α : Type} (schema : Schema α)

/-- Read and decode the records under some keys. -/
def readRecords : List Text → Call (Outcome (List α))
  | [] => pure (.ok [])
  | key :: rest =>
    andThen (get key) fun value =>
      match value with
      | none => pure (.error (.internal schema.disappeared))
      | some value =>
        andThen (ofOutcome (schema.decode value)) fun record =>
          andThen (readRecords rest) fun records => pure (.ok (record :: records))

/-- The current records, in the order of their identifiers. -/
def list : Call (Outcome (List α)) :=
  andThen (listKeysWithPrefix recordPrefix) fun keys =>
    if keys.length > maxRecords then pure (.error (.internal schema.tooMany))
    else
      andThen (readRecords schema keys) fun records =>
        pure (.ok (records.mergeSort fun a b =>
          (compare (schema.tokenHash a) (schema.tokenHash b)).isLE))

/-- Delete the records that are not kept, each as it is read now. -/
def pruneRecords (weight : Values → Text → Nat) (n : Nat) (keep : α → Bool)
    (keyOf : α → Outcome Text) : List α → Call (Outcome Nat)
  | [] => pure (.ok 0)
  | record :: rest =>
    if keep record = true then pruneRecords weight n keep keyOf rest
    else
      andThen (ofOutcome (keyOf record)) fun key =>
        andThen (get key) fun value =>
          match value with
          | none => pruneRecords weight n keep keyOf rest
          | some value =>
            andThen (apply weight n (.deleteExact key value) .nothing) fun applied =>
              andThen (pruneRecords weight n keep keyOf rest) fun removed =>
                pure (.ok (if applied then removed + 1 else removed))

end Scans

/-! ## Rules -/

section Rules

variable {ι α β γ : Type} (c : Component Store ι α) (weight : Values → Text → Nat)
  (made : Nat → Text → Nat → Prop) (tracked : Text → Prop) (n : Nat)

/-- Wherever call `n` is, the program returns what `Q` says. -/
def Steady (p : Call β) (Q : β → Store → Prop) : Prop :=
  ∀ s, Valid c (Ledger.Follows weight made tracked) n p s Q

variable {c weight made tracked n} (hr : Relies c (Ledger.Follows weight made tracked))

include hr

namespace Steady

variable {Q : β → Store → Prop}

omit hr in
theorem pure {a : β} (h : ∀ s, Q a s := by intros; trivial) :
    Steady c weight made tracked n (pure a) Q :=
  fun _ => Valid.pure fun s' _ => h s'

variable {p : Call β}

theorem bind {k : β → Call γ} {Q : β → Prop} {Q' : γ → Store → Prop}
    (h : Steady c weight made tracked n p fun b _ => Q b)
    (hk : ∀ b, Q b → Steady c weight made tracked n (k b) Q') :
    Steady c weight made tracked n (p >>= k) Q' := by
  intro s
  apply Valid.bind hr
  exact (h s).mono fun b s' hb => hk b hb s'

theorem andThen {p : Call (Outcome β)} {k : β → Call (Outcome γ)} {Q : Outcome β → Prop}
    {Q' : Outcome γ → Store → Prop} (h : Steady c weight made tracked n p fun b _ => Q b)
    (hok : ∀ b, Q (.ok b) → Steady c weight made tracked n (k b) Q')
    (herror : ∀ e s, Q' (.error e) s := by intros; trivial) :
    Steady c weight made tracked n (andThen p k) Q' := by
  refine bind hr h fun outcome houtcome => ?_
  cases outcome with
  | ok b => exact hok b houtcome
  | error e => exact pure (herror e)

omit hr in
theorem ofOutcome {outcome : Outcome β} :
    Steady c weight made tracked n (ofOutcome outcome) fun b _ => b = outcome :=
  pure fun _ => rfl

omit hr in
theorem pick : Steady c weight made tracked n .pick fun _ _ => True :=
  fun _ => Valid.pick fun _ _ _ => trivial

omit hr in
theorem nowEpoch : Steady c weight made tracked n nowEpoch fun _ _ => True := pick

theorem readKv {f : Values → β} : Steady c weight made tracked n (readKv f) fun _ _ => True := by
  refine bind hr pick fun outcome _ => ?_
  by_cases houtcome : outcome = 0
  · rw [if_pos houtcome]
    exact pure
  · rw [if_neg houtcome]
    exact fun s => Valid.read hr fun _ _ _ _ => trivial

theorem get {key : Text} : Steady c weight made tracked n (get key) fun _ _ => True :=
  andThen hr ofOutcome fun _ _ => readKv hr

variable {batch : Batch}

/-- A batch, whose conditions hold where it is applied. -/
theorem apply {note : Note}
    (hacts : ∀ s : Store, batch.Holds s.store →
      Ledger.Acts weight made tracked n s (enter weight n batch note s)) :
    Steady c weight made tracked n (apply weight n batch note) fun result s' => result = .ok true →
      ∃ s₀ : Store, batch.Holds s₀.store ∧ (enter weight n batch note s₀).spent <:+ s'.spent := by
  refine andThen hr ofOutcome fun _ _ => ?_
  refine bind hr pick fun outcome _ => ?_
  by_cases hfail : outcome = 0
  · rw [if_pos hfail]
    exact pure
  rw [if_neg hfail]
  intro s
  apply Valid.bind hr
  refine Valid.atomically fun s₁ _ _ => ?_
  by_cases hholds : batch.Holds s₁.store
  · rw [if_pos hholds]
    refine ⟨(hacts s₁ hholds).follows, fun s₂ hs₂ => ?_⟩
    dsimp only
    by_cases hlost : outcome = 1
    · rw [if_pos hlost]
      exact Valid.pure nofun
    · rw [if_neg hlost]
      exact Valid.pure fun s₃ hs₃ _ => ⟨s₁, hholds, hs₂.spent.trans hs₃.spent⟩
  · rw [if_neg hholds]
    refine ⟨fun m _ => hr.refl m s₁, fun s₂ _ => ?_⟩
    dsimp only
    by_cases hlost : outcome = 1
    · rw [if_pos hlost]
      exact Valid.pure nofun
    · rw [if_neg hlost]
      exact Valid.pure nofun

omit hr in
theorem mono {Q' : β → Store → Prop} (h : Steady c weight made tracked n p Q)
    (hQ : ∀ b s, Q b s → Q' b s) : Steady c weight made tracked n p Q' :=
  fun s => (h s).mono hQ

/-- A batch that raises no weight and is not entered. -/
theorem applyQuiet
    (hweight : ∀ kv, batch.Holds kv → ∀ hash, weight (batch.run kv) hash ≤ weight kv hash) :
    Steady c weight made tracked n (Bearer.apply weight n batch .nothing) fun _ _ => True := by
  refine mono (apply hr fun s hholds => ?_) fun _ _ _ => trivial
  exact ⟨fun hs => hs.quiet (hweight s.store hholds), fun _ _ _ _ h => h, fun _ _ _ _ h => h,
    suffix_refl _⟩

/-- A batch that spends a unit. -/
theorem applySpends {hash : Text}
    (hweight : ∀ kv, batch.Holds kv → ∀ hash', weight (batch.run kv) hash' ≤ weight kv hash')
    (hlower : ∀ kv, batch.Holds kv → weight (batch.run kv) hash < weight kv hash) :
    Steady c weight made tracked n (Bearer.apply weight n batch (.spends hash)) fun result s' =>
      result = .ok true → ∃ kv, batch.Holds kv ∧ (n, hash, weight kv hash) ∈ s'.spent := by
  refine mono (apply hr fun s hholds => ?_) fun result s' h hresult => ?_
  · refine ⟨fun hs => ?_, fun _ _ _ _ h => h, fun m h w hm hmem => ?_, suffix_cons _ _⟩
    · exact hs.spend (hweight s.store hholds) (hlower s.store hholds)
    · rcases mem_cons.1 hmem with heq | hold
      · exact absurd (Prod.ext_iff.1 heq).1 hm
      · exact hold
  · obtain ⟨s₀, hholds, hspent⟩ := h hresult
    exact ⟨s₀.store, hholds, hspent.subset mem_cons_self⟩

variable {schema : Schema β}

theorem readRecords (keys : List Text) :
    Steady c weight made tracked n (readRecords schema keys) fun _ _ => True := by
  induction keys with
  | nil => exact .pure
  | cons _ _ ih =>
    refine .andThen hr (.get hr) fun value _ => ?_
    cases value with
    | none => exact .pure
    | some =>
      refine .andThen hr .ofOutcome fun record _ => ?_
      exact .andThen hr ih fun _ _ => .pure

theorem list : Steady c weight made tracked n (list schema) fun _ _ => True := by
  refine .andThen hr (.readKv hr) fun keys _ => ?_
  by_cases hmany : keys.length > maxRecords
  · rw [if_pos hmany]
    exact .pure
  · rw [if_neg hmany]
    exact .andThen hr (readRecords hr keys) fun _ _ => .pure

section

variable (hweight : ∀ kv key hash, weight (kv.erase key) hash ≤ weight kv hash)

include hweight

/-- Deleting, where it raises no weight. -/
theorem deleteExact (key : Text) (value : Bytes) :
    Steady c weight made tracked n (Bearer.apply weight n (.deleteExact key value) .nothing)
      fun _ _ => True :=
  .applyQuiet hr fun kv _ hash => hweight kv key hash

theorem pruneRecords {keep : β → Bool} {keyOf : β → Outcome Text} (records : List β) :
    Steady c weight made tracked n (pruneRecords weight n keep keyOf records) fun _ _ => True := by
  induction records with
  | nil => exact .pure
  | cons record _ ih =>
    unfold Bearer.pruneRecords
    by_cases hkeep : keep record = true
    · rw [if_pos hkeep]
      exact ih
    rw [if_neg hkeep]
    refine .andThen hr .ofOutcome fun key _ => ?_
    refine .andThen hr (.get hr) fun value _ => ?_
    cases value with
    | none => exact ih
    | some value =>
      refine .andThen hr (deleteExact hr hweight key value) fun _ _ => ?_
      exact .andThen hr ih fun _ _ => .pure

end

end Steady

omit hr in
theorem holds_deleteExact {key : Text} {value : Bytes} {kv : Values}
    (h : (Batch.deleteExact key value).Holds kv) : kv[key]? = some value :=
  h (key, some value) mem_cons_self

/-- A batch that issues, by a call that has not issued anything. -/
theorem applyIssues_valid {batch : Batch} {hash : Text} {uses : Nat} (hmade : made n hash uses)
    (hweight : ∀ kv, batch.Holds kv → ∀ hash', hash' ≠ hash →
      weight (batch.run kv) hash' ≤ weight kv hash')
    (hraise : ∀ kv, batch.Holds kv → weight (batch.run kv) hash ≤ weight kv hash + uses)
    {s : Store} (hnew : ∀ h k, (n, h, k) ∉ s.issued) :
    Valid c (Ledger.Follows weight made tracked) n (apply weight n batch (.issues hash uses)) s
      fun _ _ => True := by
  apply Valid.bind hr
  refine Valid.pure fun s₁ hs₁ => ?_
  cases batch.keys.forM validateKey with
  | error => exact Valid.pure fun _ _ => trivial
  | ok =>
    apply Valid.bind hr
    refine Valid.pick fun outcome s₂ hs₂ => ?_
    by_cases hfail : outcome = 0
    · rw [if_pos hfail]
      exact Valid.pure fun _ _ => trivial
    rw [if_neg hfail]
    apply Valid.bind hr
    refine Valid.atomically fun s₃ hs₃ _ => ?_
    have hnew₃ : ∀ h k, (n, h, k) ∉ s₃.issued := fun h k hk =>
      hnew h k (((hs₁.trans hs₂).trans hs₃).own h k hk)
    have hlast : ∀ (applied : Bool) (s' : Store), Valid c (Ledger.Follows weight made tracked) n
        (if outcome = 1 then pure (.error backendFailed) else pure (.ok applied) :
          Call (Outcome Bool)) s' fun _ _ => True := by
      intro applied s'
      by_cases hlost : outcome = 1
      · rw [if_pos hlost]
        exact Valid.pure fun _ _ => trivial
      · rw [if_neg hlost]
        exact Valid.pure fun _ _ => trivial
    by_cases hholds : batch.Holds s₃.store
    · rw [if_pos hholds]
      refine ⟨?_, fun s₄ _ => hlast true s₄⟩
      refine Ledger.Acts.follows ⟨fun hs => ?_, fun m h k hm hk => ?_, fun _ _ _ _ h => h,
        suffix_refl _⟩
      · exact hs.issue hmade hnew₃ (hweight s₃.store hholds) (hraise s₃.store hholds)
      · rcases mem_cons.1 hk with heq | hold
        · exact absurd (Prod.ext_iff.1 heq).1 hm
        · exact hold
    · rw [if_neg hholds]
      exact ⟨fun m _ => hr.refl m s₃, fun s₄ _ => hlast false s₄⟩

end Rules

end Astrid.Bearer
