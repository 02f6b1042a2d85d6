import Astrid.Audit.Entry

/-!
# The signed body determines the entry

Everything that an entry records is in its body, some of it behind commitments. CBOR is read in
one way (`encode_delimits`), a commitment opens to one value as long as the hash has no collision
among the strings at hand (`CollisionFree`), and the `serde` form of an action, an authorization
or an outcome determines it (`Payloads.Lawful`). So two entries with the same body record the
same (`bodyItem_inj`): only the salt key and the signature may differ.
-/

namespace Astrid.Audit

open Std List Function

variable {crypto : Crypto} {content : Section} {v2 v2' : EntryV2Seal}

/-- What is assumed of the `serde` forms: they are values in memory, and a form comes from one
value only. -/
structure Payloads.Lawful (P : Payloads) : Prop where
  action_stored : ∀ a v, P.actionValue a = .ok v → Stored v
  action_inj : ∀ a b v, P.actionValue a = .ok v → P.actionValue b = .ok v → a = b
  authorization_stored : ∀ a v, P.authorizationValue a = .ok v → Stored v
  authorization_inj : ∀ a b v,
    P.authorizationValue a = .ok v → P.authorizationValue b = .ok v → a = b
  outcome_stored : ∀ a v, P.outcomeValue a = .ok v → Stored v
  outcome_inj : ∀ a b v, P.outcomeValue a = .ok v → P.outcomeValue b = .ok v → a = b

/-- No two of the strings have the same SHA-256. -/
def CollisionFree (crypto : Crypto) (inputs : List Bytes) : Prop :=
  ∀ x ∈ inputs, ∀ y ∈ inputs, crypto.sha256 x = crypto.sha256 y → x = y

theorem CollisionFree.subset {inputs inputs' : List Bytes} (h : CollisionFree crypto inputs)
    (hsub : inputs' ⊆ inputs) : CollisionFree crypto inputs' :=
  fun x hx y hy => h x (hsub hx) y (hsub hy)

/-! ## Small items -/

variable {a b : Digest}

theorem Digest.ext_bytes (h : a.bytes = b.bytes) : a = b := by
  cases a
  cases b
  cases h
  rfl

theorem fits_digest (hash : Digest) : (Cbor.bytes hash.bytes).Fits :=
  .bytes (by rw [hash.length_eq]; decide)

theorem fits_uuid (id : Uuid) : (Cbor.bytes (Uuid.asBytes id)).Fits :=
  .bytes (by rw [Uuid.asBytes, length_beBytes]; decide)

theorem asBytes_inj {id id' : Uuid} (h : Uuid.asBytes id = Uuid.asBytes id') : id = id' :=
  BitVec.eq_of_toNat_eq (beBytes_inj id.isLt id'.isLt h)

theorem same_digest (h : Cbor.Same (.bytes a.bytes) (.bytes b.bytes)) : a = b :=
  Digest.ext_bytes h.bytes_inj

variable {α : Type} {item : α → Cbor}

/-- An optional item, absent as `null`. -/
theorem optional_inj {a b : Option α} (hkind : ∀ x, (item x).kind ≠ Cbor.simpleNull)
    (hitem : ∀ x ∈ a, ∀ y ∈ b, Cbor.Same (item x) (item y) → x = y)
    (h : Cbor.Same ((a.map item).getD .null) ((b.map item).getD .null)) : a = b := by
  cases a with
  | none =>
    cases b with
    | none => rfl
    | some y => exact absurd h.split.1.symm (hkind y)
  | some x =>
    cases b with
    | none => exact absurd h.split.1 (hkind x)
    | some y => rw [hitem x rfl y rfl h]

theorem optional_fits {a : Option α} (h : ∀ x ∈ a, (item x).Fits) :
    ((a.map item).getD .null).Fits := by
  cases a with
  | none => exact .null
  | some x => exact h x rfl

theorem kind_bytes_ne (content : Bytes) : (Cbor.bytes content).kind ≠ Cbor.simpleNull := by
  show Cbor.majorBytes ≠ _
  decide

theorem kind_text_ne (content : String) : (Cbor.text content).kind ≠ Cbor.simpleNull := by
  show Cbor.majorText ≠ _
  decide

theorem kind_array_ne (items : List Cbor) : (Cbor.array items).kind ≠ Cbor.simpleNull := by
  show Cbor.majorArray ≠ _
  decide

def TextFits (text : String) : Prop := (Cbor.utf8 text).length < 2 ^ 64

/-! ## Principals and actors -/

variable {principal : Option String}

theorem principalItem_fits (uid : Option Digest) (h : ∀ text ∈ principal, TextFits text) :
    (principalItem principal uid).Fits := by
  refine .array (by decide : 2 < 2 ^ 64) ?_
  intro item hitem
  rw [mem_cons, mem_singleton] at hitem
  rcases hitem with rfl | rfl
  · exact optional_fits fun uid _ => fits_digest uid
  · exact optional_fits fun text htext => .text (h text htext)

theorem principalItem_inj {principal' : Option String} {uid uid' : Option Digest}
    (hfits : (principalItem principal uid).Fits) (hfits' : (principalItem principal' uid').Fits)
    (h : Cbor.Same (principalItem principal uid) (principalItem principal' uid')) :
    principal = principal' ∧ uid = uid' := by
  have hitems := h.array_inj hfits hfits'
  simp only [forall₂_cons, List.Forall₂.nil, and_true] at hitems
  refine ⟨?_, ?_⟩
  · exact optional_inj kind_text_ne (fun _ _ _ _ h => h.text_inj) hitems.2
  · exact optional_inj (fun _ => kind_bytes_ne _) (fun _ _ _ _ h => same_digest h) hitems.1

variable {actor : AuditActor}

theorem actorItem_fits (h : TextFits actor.capsuleId) : (actorItem actor).Fits := by
  refine .array (by decide : 2 < 2 ^ 64) ?_
  intro item hitem
  rw [mem_cons, mem_singleton] at hitem
  rcases hitem with rfl | rfl
  · exact .text h
  · exact optional_fits fun hash _ => fits_digest hash

theorem actorItem_inj {actor' : AuditActor} (hfits : (actorItem actor).Fits)
    (hfits' : (actorItem actor').Fits) (h : Cbor.Same (actorItem actor) (actorItem actor')) :
    actor = actor' := by
  have hitems := h.array_inj hfits hfits'
  simp only [forall₂_cons, List.Forall₂.nil, and_true] at hitems
  have hid := hitems.1.text_inj
  have hwasm := optional_inj (fun _ => kind_bytes_ne _) (fun _ _ _ _ h => same_digest h) hitems.2
  cases actor
  cases actor'
  dsimp only at hid hwasm
  rw [hid, hwasm]

/-! ## Sections -/

/-- The strings hashed for the commitments of a section. -/
def sectionInputs (crypto : Crypto) (index : UInt64) (content : Section) (v2 : EntryV2Seal) :
    List Bytes :=
  content.fields.map fun field => commitmentInput v2.chainId v2.seq index field.1
    (fieldSalt crypto v2.saltKey index field.1) field.2

/-- A section is taken from the members of an object: the tag, and the fields. -/
structure SectionFrom (members : List (String × Value)) (tag : String) (content : Section) :
    Prop where
  stored : Stored (.object members)
  tagged : (tag, .string content.kind) ∈ members
  fields : content.fields = (members.filter fun member => decide (member.1 ≠ tag)).map
    fun member => (member.1, toCbor member.2)

variable {what : String}

theorem sectionOf_eq_ok {value : Except String Value} {tag : String} {content : Section}
    (hstored : ∀ v, value = .ok v → Stored v) (h : sectionOf value tag what = .ok content) :
    ∃ members, value = .ok (.object members) ∧ SectionFrom members tag content := by
  unfold sectionOf at h
  split at h
  next => cases h
  next members =>
    split at h
    next kind hlookup =>
      cases h
      refine ⟨members, rfl, hstored _ rfl, ?_, rfl⟩
      obtain ⟨_, _, heq, _⟩ := lookup_eq_some_iff.1 hlookup
      rw [heq]
      exact mem_append_right _ mem_cons_self
    next => cases h
  next => cases h

namespace SectionFrom

variable {members : List (String × Value)} {tag : String}

section

variable (h : SectionFrom members tag content)

include h

theorem mem_fields {field : String × Cbor} :
    field ∈ content.fields ↔
      ∃ member ∈ members, member.1 ≠ tag ∧ field = (member.1, toCbor member.2) := by
  rw [h.fields, mem_map]
  constructor
  · rintro ⟨member, hmember, rfl⟩
    rw [mem_filter, decide_eq_true_iff] at hmember
    exact ⟨member, hmember.1, hmember.2, rfl⟩
  · rintro ⟨member, hmember, hne, rfl⟩
    exact ⟨member, mem_filter.2 ⟨hmember, decide_eq_true hne⟩, rfl⟩

/-- Names and values of the members fit. -/
theorem member_fits {member : String × Value} (hmember : member ∈ members) :
    TextFits member.1 ∧ Stored member.2 := by
  cases h.stored with
  | object _ hkeys _ hvalues => exact ⟨hkeys member hmember, hvalues member hmember⟩

theorem kind_fits : TextFits content.kind := by
  cases (h.member_fits h.tagged).2 with
  | string hlength => exact hlength

theorem length_fields : content.fields.length < 2 ^ 64 := by
  cases h.stored with
  | object hlength =>
    rw [h.fields, length_map]
    exact (length_filter_le _ _).trans_lt hlength

theorem sorted : members.Pairwise KeyLt := by
  cases h.stored with
  | object _ _ hsorted => exact hsorted

theorem fields_fits (crypto : Crypto) (index : UInt64) (v2 : EntryV2Seal) :
    (Cbor.map (content.fields.map fun field =>
      (.text field.1, .bytes (commitment crypto v2.chainId v2.seq index field.1
        (fieldSalt crypto v2.saltKey index field.1) field.2).bytes))).Fits := by
  refine .map (by rw [length_map]; exact h.length_fields) ?_ ?_
  · intro entry hentry
    obtain ⟨field, hfield, rfl⟩ := mem_map.1 hentry
    obtain ⟨_, hmember, _, rfl⟩ := h.mem_fields.1 hfield
    exact .text (h.member_fits hmember).1
  · intro entry hentry
    obtain ⟨_, _, rfl⟩ := mem_map.1 hentry
    exact fits_digest _

theorem sectionItem_fits (crypto : Crypto) (index : UInt64) (v2 : EntryV2Seal) :
    (sectionItem crypto index content v2).Fits := by
  refine .array (by decide : 2 < 2 ^ 64) ?_
  intro item hitem
  rw [mem_cons, mem_singleton] at hitem
  rcases hitem with rfl | rfl
  · exact .text h.kind_fits
  · exact h.fields_fits crypto index v2

end

variable {index : UInt64}

/-- A commitment opens to one name and value. -/
theorem commitment_inj {chainId chainId' : Digest} {seq seq' : UInt64} {name name' : String}
    {salt salt' : Bytes} {value value' : Value} (hname : TextFits name) (hname' : TextFits name')
    (hsalt : salt.length ≤ 16) (hsalt' : salt'.length ≤ 16) (hvalue : Stored value)
    (hvalue' : Stored value') (h : commitmentInput chainId seq index name salt (toCbor value) =
      commitmentInput chainId' seq' index name' salt' (toCbor value')) : value = value' := by
  have hfits {chainId : Digest} {seq : UInt64} {name : String} {salt : Bytes} {value : Value}
      (hname : TextFits name) (hsalt : salt.length ≤ 16) (hvalue : Stored value) :
      (Cbor.array [.text fieldTag, .bytes chainId.bytes, .uint seq, .uint index, .text name,
        .bytes salt, toCbor value]).Fits := by
    refine .array (by decide : 7 < 2 ^ 64) ?_
    simp only [forall_mem_cons, not_mem_nil, false_imp_iff, implies_true, and_true]
    exact ⟨.text (by decide +kernel), fits_digest _, .uint _, .uint _, .text hname,
      .bytes (by omega), hvalue.fits⟩
  have hitems := Cbor.Same.array_inj (hfits hname hsalt hvalue) (hfits hname' hsalt' hvalue') h
  simp only [forall₂_cons, List.Forall₂.nil, and_true] at hitems
  exact toCbor_inj hvalue hvalue' hitems.2.2.2.2.2.2

theorem length_fieldSalt (crypto : Crypto) (saltKey : Digest) (index : UInt64) (name : String) :
    (fieldSalt crypto saltKey index name).length ≤ 16 := by
  exact length_take_le _ _

variable {members' : List (String × Value)} {content' : Section}

section

variable (h : SectionFrom members tag content) (h' : SectionFrom members' tag content')
  (hfree : CollisionFree crypto
    (sectionInputs crypto index content v2 ++ sectionInputs crypto index content' v2'))
  (hsame : Cbor.Same (sectionItem crypto index content v2) (sectionItem crypto index content' v2'))

include h h' hfree hsame

/-- The members of sections with the same item, in one direction. -/
theorem subset_of_same : members ⊆ members' := by
  have hitems := hsame.array_inj (h.sectionItem_fits crypto index v2)
    (h'.sectionItem_fits crypto index v2')
  simp only [forall₂_cons, List.Forall₂.nil, and_true] at hitems
  obtain ⟨hkind, hmap⟩ := hitems
  have hkind := hkind.text_inj
  intro member hmember
  by_cases htag : member.1 = tag
  · -- The tag is the only member of its name.
    rw [eq_of_key_eq h.sorted hmember h.tagged htag, hkind]
    exact h'.tagged
  -- Its commitment is one of the other section, and opens to the same value there.
  have hperm := hmap.map_inj (h.fields_fits crypto index v2) (h'.fields_fits crypto index v2')
  rw [Cbor.encodeEntries_eq, Cbor.encodeEntries_eq, map_map, map_map] at hperm
  have hfield := h.mem_fields.2 ⟨member, hmember, htag, rfl⟩
  obtain ⟨_, hfield', heq⟩ := mem_map.1
    (hperm.subset (mem_map.2 ⟨_, hfield, rfl⟩))
  obtain ⟨member', hmember', _, rfl⟩ := h'.mem_fields.1 hfield'
  rw [Prod.mk.injEq] at heq
  have hname : Cbor.Same (.text member'.1) (.text member.1) := heq.1
  have hcommitment := same_digest (show Cbor.Same _ _ from heq.2)
  have hinput := hfree _ (mem_append_right _ (mem_map.2 ⟨_, hfield', rfl⟩)) _
    (mem_append_left _ (mem_map.2 ⟨_, hfield, rfl⟩)) hcommitment
  have hvalue := commitment_inj (h'.member_fits hmember').1 (h.member_fits hmember).1
    (length_fieldSalt ..) (length_fieldSalt ..) (h'.member_fits hmember').2
    (h.member_fits hmember).2 hinput
  rwa [show member = member' from Prod.ext hname.text_inj.symm hvalue.symm]

/-- Sections with the same item come from the same object. -/
theorem members_eq : members = members' := by
  have hsub := h.subset_of_same h' hfree hsame
  have hsub' := h'.subset_of_same h
    (fun x hx y hy => hfree x (by rw [mem_append] at hx ⊢; exact hx.symm) y
      (by rw [mem_append] at hy ⊢; exact hy.symm)) hsame.symm
  have hnodup {members : List (String × Value)} (hsorted : members.Pairwise KeyLt) :
      members.Nodup := hsorted.imp fun hlt heq => hlt.ne (by rw [heq])
  refine eq_of_sorted h.sorted h'.sorted hsub (Nat.le_antisymm ?_ ?_)
  · exact (subperm_of_subset (hnodup h.sorted) hsub).length_le
  · exact (subperm_of_subset (hnodup h'.sorted) hsub').length_le

end

end SectionFrom

/-! ## Entries -/

namespace AuditEntry

variable {P : Payloads}

/-- The texts of the entry are texts in memory. -/
structure InMemory (entry : AuditEntry P) (v2 : EntryV2Seal) : Prop where
  principal : ∀ text ∈ entry.principal, TextFits text
  actor : ∀ actor ∈ v2.actor, TextFits actor.capsuleId

/-- The strings hashed for the commitments of one section. -/
def inputsOf (crypto : Crypto) (index : UInt64) (content : AuditResult Section)
    (v2 : EntryV2Seal) : List Bytes :=
  match content with
  | .ok content => sectionInputs crypto index content v2
  | .error _ => []

/-- The strings hashed for a v2 entry: its commitments and its body. -/
def hashInputs (crypto : Crypto) (entry : AuditEntry P) (v2 : EntryV2Seal) : List Bytes :=
  inputsOf crypto sectionAction entry.actionSection v2 ++
    inputsOf crypto sectionAuthorization entry.authorizationSection v2 ++
    inputsOf crypto sectionOutcome entry.outcomeSection v2 ++
    (entry.bodyBytes crypto v2).toOption.toList

/-- Two v2 entries record the same. -/
structure SameRecord (entry : AuditEntry P) (v2 : EntryV2Seal) (entry' : AuditEntry P)
    (v2' : EntryV2Seal) : Prop where
  id : entry.id = entry'.id
  time : (timestampNanos entry.timestamp).getD 0 = (timestampNanos entry'.timestamp).getD 0
  sessionId : entry.sessionId = entry'.sessionId
  principal : entry.principal = entry'.principal
  principalUid : v2.principalUid = v2'.principalUid
  actor : v2.actor = v2'.actor
  action : entry.action = entry'.action
  authorization : entry.authorization = entry'.authorization
  outcome : entry.outcome = entry'.outcome
  chainId : v2.chainId = v2'.chainId
  seq : v2.seq = v2'.seq
  keyEpoch : v2.keyEpoch = v2'.keyEpoch
  runtimeKey : entry.runtimeKey = entry'.runtimeKey
  previousHash : entry.previousHash = entry'.previousHash

/-- One of the enums, from the item of its section. -/
theorem payload_eq {toValue : α → Except String Value}
    (hstored : ∀ a v, toValue a = .ok v → Stored v)
    (hinj : ∀ a b v, toValue a = .ok v → toValue b = .ok v → a = b) {a a' : α} {tag : String}
    {content' : Section} (h : sectionOf (toValue a) tag what = .ok content)
    (h' : sectionOf (toValue a') tag what = .ok content') {index : UInt64}
    (hfree : CollisionFree crypto
      (sectionInputs crypto index content v2 ++ sectionInputs crypto index content' v2'))
    (hsame : Cbor.Same (sectionItem crypto index content v2)
      (sectionItem crypto index content' v2')) : a = a' := by
  obtain ⟨_, hvalue, hfrom⟩ := sectionOf_eq_ok (hstored a) h
  obtain ⟨_, hvalue', hfrom'⟩ := sectionOf_eq_ok (hstored a') h'
  have hmembers := hfrom.members_eq hfrom' hfree hsame
  exact hinj a a' _ hvalue (by rw [hvalue', hmembers])

variable {entry : AuditEntry P}

theorem action_inputs (h : entry.actionSection = .ok content) :
    sectionInputs crypto sectionAction content v2 ⊆ entry.hashInputs crypto v2 := by
  intro input hinput
  simp [hashInputs, inputsOf, h, hinput]

theorem authorization_inputs (h : entry.authorizationSection = .ok content) :
    sectionInputs crypto sectionAuthorization content v2 ⊆ entry.hashInputs crypto v2 := by
  intro input hinput
  simp [hashInputs, inputsOf, h, hinput]

theorem outcome_inputs (h : entry.outcomeSection = .ok content) :
    sectionInputs crypto sectionOutcome content v2 ⊆ entry.hashInputs crypto v2 := by
  intro input hinput
  simp [hashInputs, inputsOf, h, hinput]

theorem signer_fits (keyEpoch : UInt64) (key : PublicKey) :
    (Cbor.array [.uint keyEpoch, .bytes key.bytes]).Fits := by
  refine .array (by decide : 2 < 2 ^ 64) ?_
  simp only [forall_mem_cons, not_mem_nil, false_imp_iff, implies_true, and_true]
  exact ⟨.uint _, fits_digest _⟩

variable {item : Cbor}

theorem bodyItem_fits (hP : P.Lawful) (hmem : entry.InMemory v2)
    (h : entry.bodyItem crypto v2 = .ok item) : item.Fits := by
  simp only [bodyItem, bind_eq_ok] at h
  obtain ⟨_, haction, _, hauthorization, _, houtcome, hitem⟩ := h
  cases hitem
  obtain ⟨_, _, haction⟩ := sectionOf_eq_ok (hP.action_stored _) haction
  obtain ⟨_, _, hauthorization⟩ := sectionOf_eq_ok (hP.authorization_stored _) hauthorization
  obtain ⟨_, _, houtcome⟩ := sectionOf_eq_ok (hP.outcome_stored _) houtcome
  refine .array (by decide : 13 < 2 ^ 64) ?_
  simp only [forall_mem_cons, not_mem_nil, false_imp_iff, implies_true, and_true]
  exact ⟨.text (by decide +kernel), fits_digest _, .uint _, fits_digest _, .uint _, fits_uuid _,
    fits_uuid _, principalItem_fits _ hmem.principal,
    optional_fits fun actor hactor => actorItem_fits (hmem.actor actor hactor),
    haction.sectionItem_fits .., hauthorization.sectionItem_fits ..,
    houtcome.sectionItem_fits .., signer_fits ..⟩

variable {entry' : AuditEntry P} {item' : Cbor}

/-- Entries with the same body record the same. -/
theorem bodyItem_inj (hP : P.Lawful) (hmem : entry.InMemory v2) (hmem' : entry'.InMemory v2')
    (h : entry.bodyItem crypto v2 = .ok item) (h' : entry'.bodyItem crypto v2' = .ok item')
    (hfree : CollisionFree crypto (entry.hashInputs crypto v2 ++ entry'.hashInputs crypto v2'))
    (hsame : Cbor.Same item item') : entry.SameRecord v2 entry' v2' := by
  have hfits := bodyItem_fits hP hmem h
  have hfits' := bodyItem_fits hP hmem' h'
  simp only [bodyItem, bind_eq_ok] at h h'
  obtain ⟨action, haction, authorization, hauthorization, outcome, houtcome, hitem⟩ := h
  obtain ⟨_, haction', _, hauthorization', _, houtcome', hitem'⟩ := h'
  cases hitem
  cases hitem'
  have hitems := hsame.array_inj hfits hfits'
  simp only [forall₂_cons, List.Forall₂.nil, and_true] at hitems
  obtain ⟨-, hchain, hseq, hprevious, htime, hid, hsession, hprincipal, hactor, hact, hauth, hout,
    hsigner⟩ := hitems
  have hprincipal := principalItem_inj (principalItem_fits _ hmem.principal)
    (principalItem_fits _ hmem'.principal) hprincipal
  have hactor := optional_inj (fun _ => kind_array_ne _)
    (fun actor hactor actor' hactor' => actorItem_inj (actorItem_fits (hmem.actor actor hactor))
      (actorItem_fits (hmem'.actor actor' hactor'))) hactor
  have hsigner := hsigner.array_inj (signer_fits ..) (signer_fits ..)
  simp only [forall₂_cons, List.Forall₂.nil, and_true] at hsigner
  -- The commitments of the two entries are among the strings without collisions.
  have hsub {index : UInt64} {content content' : Section}
      (hinputs : sectionInputs crypto index content v2 ⊆ entry.hashInputs crypto v2)
      (hinputs' : sectionInputs crypto index content' v2' ⊆ entry'.hashInputs crypto v2') :
      CollisionFree crypto
        (sectionInputs crypto index content v2 ++ sectionInputs crypto index content' v2') :=
    hfree.subset (append_subset.2 ⟨subset_append_of_subset_left _ hinputs,
      subset_append_of_subset_right _ hinputs'⟩)
  exact {
    id := asBytes_inj hid.bytes_inj
    time := htime.uint_inj
    sessionId := asBytes_inj hsession.bytes_inj
    principal := hprincipal.1
    principalUid := hprincipal.2
    actor := hactor
    action := payload_eq hP.action_stored hP.action_inj haction haction'
      (hsub (action_inputs haction) (action_inputs haction')) hact
    authorization := payload_eq hP.authorization_stored hP.authorization_inj hauthorization
      hauthorization' (hsub (authorization_inputs hauthorization)
        (authorization_inputs hauthorization')) hauth
    outcome := payload_eq hP.outcome_stored hP.outcome_inj houtcome houtcome'
      (hsub (outcome_inputs houtcome) (outcome_inputs houtcome')) hout
    chainId := same_digest hchain
    seq := hseq.uint_inj
    keyEpoch := hsigner.1.uint_inj
    runtimeKey := same_digest hsigner.2
    previousHash := same_digest hprevious }

/-- An encodable v2 entry has the hash of its body. -/
theorem contentHash_eq (hv2 : entry.v2 = some v2) (h : entry.bodyItem crypto v2 = .ok item) :
    entry.contentHash crypto = crypto.sha256 item.encode := by
  rw [contentHash, hv2]
  dsimp only
  rw [v2HashOrUnencodable, v2EntryHash, bodyBytes, h]
  rfl

theorem encode_mem_hashInputs (h : entry.bodyItem crypto v2 = .ok item) :
    item.encode ∈ entry.hashInputs crypto v2 := by
  refine mem_append_right _ ?_
  rw [bodyBytes, h]
  exact mem_singleton_self _

/-- Encodable entries with the same hash record the same. -/
theorem contentHash_inj (hP : P.Lawful) (hv2 : entry.v2 = some v2) (hv2' : entry'.v2 = some v2')
    (hmem : entry.InMemory v2) (hmem' : entry'.InMemory v2')
    (h : entry.bodyItem crypto v2 = .ok item) (h' : entry'.bodyItem crypto v2' = .ok item')
    (hfree : CollisionFree crypto (entry.hashInputs crypto v2 ++ entry'.hashInputs crypto v2'))
    (hhash : entry.contentHash crypto = entry'.contentHash crypto) :
    entry.SameRecord v2 entry' v2' := by
  rw [contentHash_eq hv2 h, contentHash_eq hv2' h'] at hhash
  exact bodyItem_inj hP hmem hmem' h h' hfree (hfree _
    (mem_append_left _ (encode_mem_hashInputs h)) _
    (mem_append_right _ (encode_mem_hashInputs h')) hhash)

end AuditEntry

end Astrid.Audit
