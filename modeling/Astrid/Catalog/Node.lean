import Astrid.Lib.Try
import Astrid.Model.Object

/-!
# Nodes of the content catalog

`content/catalog/tree.rs`: the catalog of a principal maps names to files. It is a binary
Patricia trie whose nodes are immutable objects. A leaf has a name and owns a file; a branch
has a bit position, owns its two children and repeats their totals. This module has the
names, the totals and the two record formats; a record that was written is read back as the
node it was written for (`decodeNode_leaf`, `decodeNode_branch`).
-/

namespace Astrid.Catalog

open Std List

/-! ## Names -/

inductive ContentNameError
  | empty
  | containsNull
  | invalidUtf8
  deriving DecidableEq

inductive CatalogError (Id : Type)
  | invalidName (e : ContentNameError)
  | projection (e : ModelError Id)
  | invalidGraph (object : Id) (detail : String)
  | accountingOverflow
  deriving DecidableEq

def validUtf8 (bytes : Bytes) : Bool := ByteArray.validateUTF8 ⟨bytes.toArray⟩

/-- Canonical name of one value: UTF-8, not empty, without null bytes. It is a string, and
no string has more than the signed half of 64 bits of bytes. -/
structure ContentName where
  bytes : Bytes
  length_lt : bytes.length < 9223372036854775808
  utf8 : validUtf8 bytes = true
  ne_nil : bytes ≠ []
  no_null : 0 ∉ bytes
  deriving DecidableEq

/-- Validate a name. -/
def ContentName.new (value : Bytes)
    (hstring : value.length < 9223372036854775808 ∧ validUtf8 value = true) :
    Except ContentNameError ContentName :=
  if hnil : value = [] then .error .empty
  else if hnull : 0 ∈ value then .error .containsNull
  else .ok ⟨value, hstring.1, hstring.2, hnil, hnull⟩

def ContentName.fromBytes {Id : Type} (bytes : Bytes) : Except (CatalogError Id) ContentName :=
  if h : bytes.length < 9223372036854775808 ∧ validUtf8 bytes = true then
    (ContentName.new bytes h).mapError .invalidName
  else .error (.invalidName .invalidUtf8)

/-- Names are ordered by their bytes. -/
instance : Ord ContentName := ⟨fun left right => compare left.bytes right.bytes⟩

theorem ContentName.ext_bytes {left right : ContentName} (h : left.bytes = right.bytes) :
    left = right := by
  cases left
  cases right
  cases h
  rfl

instance : TransOrd ContentName where
  eq_swap {left right} :=
    show compare left.bytes right.bytes = (compare right.bytes left.bytes).swap from
      OrientedCmp.eq_swap
  isLE_trans {first second third} h h' :=
    show (compare first.bytes third.bytes).isLE from
      TransCmp.isLE_trans (show (compare first.bytes second.bytes).isLE from h) h'

instance : LawfulEqOrd ContentName where
  compare_self {name} := show compare name.bytes name.bytes = .eq from ReflCmp.compare_self
  eq_of_compare h := ContentName.ext_bytes (LawfulEqOrd.eq_of_compare h)

instance : Key ContentName where

theorem ContentName.fromBytes_bytes {Id : Type} (name : ContentName) :
    (ContentName.fromBytes name.bytes : Except (CatalogError Id) ContentName) = .ok name := by
  unfold ContentName.fromBytes ContentName.new
  rw [dif_pos ⟨name.length_lt, name.utf8⟩, dif_neg name.ne_nil, dif_neg name.no_null]
  rfl

/-! ## Values and totals -/

structure CatalogValue (Id : Type) where
  file : Id
  logicalBytes : UInt64
  deriving DecidableEq

/-- Totals of a subtree: file bytes, file and name bytes, and names. -/
structure CatalogSummary where
  logicalBytes : Nat
  quotaBytes : Nat
  entries : Nat
  deriving DecidableEq

structure CatalogRoot (Id : Type) where
  object : Id
  summary : CatalogSummary
  deriving DecidableEq

inductive Node (Id : Type)
  | leaf (name : ContentName) (value : CatalogValue Id)
  | branch (bit : Nat) (left right : CatalogRoot Id)
  deriving DecidableEq

section Nodes

variable {Id : Type}

def CatalogSummary.combine (left right : CatalogSummary) :
    Except (CatalogError Id) CatalogSummary := do
  let logicalBytes ← okOr (checkedAdd left.logicalBytes right.logicalBytes) .accountingOverflow
  let quotaBytes ← okOr (checkedAdd left.quotaBytes right.quotaBytes) .accountingOverflow
  let entries ← okOr (checkedAdd left.entries right.entries) .accountingOverflow
  pure ⟨logicalBytes, quotaBytes, entries⟩

def leafSummary (name : ContentName) (value : CatalogValue Id) :
    Except (CatalogError Id) CatalogSummary := do
  require (name.bytes.length < wordLimit) .accountingOverflow
  let quotaBytes ← okOr (checkedAdd value.logicalBytes.toNat name.bytes.length)
    .accountingOverflow
  pure ⟨value.logicalBytes.toNat, quotaBytes, 1⟩

/-! ## Records -/

def catalogVersion : ObjectFormatVersion := ⟨2, by decide⟩

def leafFixedBytes : Nat := 17

def branchBytes : Nat := 57

def fileLabel : Bytes := [102, 105, 108, 101]

def leftLabel : Bytes := [108, 101, 102, 116]

def rightLabel : Bytes := [114, 105, 103, 104, 116]

def encodeSummary (summary : CatalogSummary) : Bytes :=
  leBytes 8 summary.logicalBytes ++ (leBytes 8 summary.quotaBytes ++ leBytes 8 summary.entries)

def leafBytes (name : ContentName) (value : CatalogValue Id) : Bytes :=
  [0] ++ (leBytes 8 value.logicalBytes.toNat ++ (leBytes 8 name.bytes.length ++ name.bytes))

def branchRecordBytes (bit : Nat) (left right : CatalogRoot Id) : Bytes :=
  [1] ++ (leBytes 8 bit ++ (encodeSummary left.summary ++ encodeSummary right.summary))

abbrev Records (Id : Type) [Key Id] := FMap Id (ObjectRecord Id)

section Intern

variable [Key Id] (identify : ObjectRecord Id → Id)

def intern (record : ObjectRecord Id) (summary : CatalogSummary) (records : Records Id) :
    Except (CatalogError Id) (CatalogRoot Id × Records Id) :=
  match records[identify record]? with
  | some existing => do
    require (existing = record)
      (.invalidGraph (identify record) "content catalog identity collision")
    pure (⟨identify record, summary⟩, records)
  | none => .ok (⟨identify record, summary⟩, records.insert (identify record) record)

def internLeaf (name : ContentName) (value : CatalogValue Id) (records : Records Id) :
    Except (CatalogError Id) (CatalogRoot Id × Records Id) := do
  require (name.bytes.length < wordLimit) .accountingOverflow
  let record ← (ObjectRecord.new .directory catalogVersion (leafBytes name value)
    [.owns fileLabel value.file] value.logicalBytes .metadata).mapError .projection
  let summary ← leafSummary name value
  intern identify record summary records

def internBranch (bit : Nat) (left right : CatalogRoot Id) (records : Records Id) :
    Except (CatalogError Id) (CatalogRoot Id × Records Id) := do
  let summary ← left.summary.combine right.summary
  let record ← (ObjectRecord.new .directory catalogVersion (branchRecordBytes bit left right)
    [.owns leftLabel left.object, .owns rightLabel right.object] 0 .metadata).mapError .projection
  intern identify record summary records

end Intern

/-! ## Decoding -/

def readU64 (bytes : Bytes) (offset : Nat) : Except (CatalogError Id) Nat := do
  require (offset + 8 ≤ bytes.length) .accountingOverflow
  pure (ofLe (slice bytes offset 8))

def decodeSummary (bytes : Bytes) (offset : Nat) : Except (CatalogError Id) CatalogSummary := do
  let logicalBytes ← readU64 bytes offset
  let quotaBytes ← readU64 bytes (offset + 8)
  let entries ← readU64 bytes (offset + 16)
  pure ⟨logicalBytes, quotaBytes, entries⟩

def decodeLeaf (object : Id) (record : ObjectRecord Id) : Except (CatalogError Id) (Node Id) := do
  let bytes := record.canonicalBytes
  require (leafFixedBytes ≤ bytes.length ∧ record.references.length = 1)
    (.invalidGraph object "invalid content catalog leaf")
  let logicalBytes ← readU64 bytes 1
  let nameLen ← readU64 bytes 9
  require (bytes.length = min (leafFixedBytes + nameLen) (wordLimit - 1))
    (.invalidGraph object "content catalog leaf name length disagrees")
  let reference ← okOr record.references.head?
    (.invalidGraph object "invalid content catalog leaf")
  require (reference.kind = .owns ∧ reference.label = fileLabel)
    (.invalidGraph object "content catalog leaf has invalid file reference")
  require (record.logicalBytes.toNat = logicalBytes)
    (.invalidGraph object "content catalog leaf logical length disagrees")
  let name ← ContentName.fromBytes (bytes.drop leafFixedBytes)
  pure (.leaf name ⟨reference.target, record.logicalBytes⟩)

def decodeBranch (object : Id) (record : ObjectRecord Id) :
    Except (CatalogError Id) (Node Id) := do
  let bytes := record.canonicalBytes
  require (bytes.length = branchBytes ∧ record.references.length = 2)
    (.invalidGraph object "invalid content catalog branch")
  match record.references with
  | [left, right] => do
    require (left.kind = .owns ∧ left.label = leftLabel ∧ right.kind = .owns ∧
      right.label = rightLabel)
      (.invalidGraph object "content catalog branch has invalid child references")
    let bit ← readU64 bytes 1
    let leftSummary ← decodeSummary bytes 9
    let rightSummary ← decodeSummary bytes 33
    let _ ← leftSummary.combine rightSummary
    require (record.logicalBytes = 0)
      (.invalidGraph object "content catalog branch contributes visible bytes")
    pure (.branch bit ⟨left.target, leftSummary⟩ ⟨right.target, rightSummary⟩)
  | _ => .error (.invalidGraph object "invalid content catalog branch")

def decodeNode (object : Id) (record : ObjectRecord Id) : Except (CatalogError Id) (Node Id) := do
  require (record.kind = .directory ∧ record.formatVersion = catalogVersion ∧
    record.cls = .metadata) (.invalidGraph object "invalid content catalog node type")
  match record.canonicalBytes.head? with
  | some 0 => decodeLeaf object record
  | some 1 => decodeBranch object record
  | _ => .error (.invalidGraph object "invalid content catalog node tag")

/-! ## Records read back -/

def leafObject (name : ContentName) (value : CatalogValue Id) : ObjectRecord Id :=
  ⟨.directory, catalogVersion, leafBytes name value, [.owns fileLabel value.file],
    value.logicalBytes, .metadata, .singleton _⟩

def branchObject (bit : Nat) (left right : CatalogRoot Id) : ObjectRecord Id :=
  ⟨.directory, catalogVersion, branchRecordBytes bit left right,
    [.owns leftLabel left.object, .owns rightLabel right.object], 0, .metadata,
    .cons_cons (show compare leftLabel rightLabel = .lt by decide) (.singleton _)⟩

theorem leafObject_new (name : ContentName) (value : CatalogValue Id) :
    ObjectRecord.new .directory catalogVersion (leafBytes name value)
      [.owns fileLabel value.file] value.logicalBytes .metadata = .ok (leafObject name value) := by
  exact dif_pos (leafObject name value).labels

theorem branchObject_new (bit : Nat) (left right : CatalogRoot Id) :
    ObjectRecord.new .directory catalogVersion (branchRecordBytes bit left right)
      [.owns leftLabel left.object, .owns rightLabel right.object] 0 .metadata =
        .ok (branchObject bit left right) := by
  exact dif_pos (branchObject bit left right).labels

variable {bytes : Bytes}

/-! Words, read at their offsets. -/

theorem readU64_skip (before : Bytes) {offset : Nat} (h : before.length ≤ offset) :
    (readU64 (before ++ bytes) offset : Except (CatalogError Id) Nat) =
      readU64 bytes (offset - before.length) := by
  have hfits : offset + 8 ≤ before.length + bytes.length ↔
      offset - before.length + 8 ≤ bytes.length := by omega
  unfold readU64
  simp only [length_append, hfits, slice_skip h]

theorem readU64_here (after : Bytes) {x : Nat} (hx : x < wordLimit) :
    (readU64 (leBytes 8 x ++ after) 0 : Except (CatalogError Id) Nat) = .ok x := by
  unfold readU64
  rw [slice_here (length_leBytes 8 x), ofLe_leBytes hx]
  rfl

theorem length_leafBytes (name : ContentName) (value : CatalogValue Id) :
    (leafBytes name value).length = 17 + name.bytes.length := by
  simp only [leafBytes, length_append, length_singleton, length_leBytes]
  omega

variable {object : Id} {record : ObjectRecord Id}

/-- What a leaf has to be, check by check. -/
theorem decodeLeaf_ok {file : Id} {name : ContentName}
    (hlen : leafFixedBytes ≤ record.canonicalBytes.length)
    (hreferences : record.references = [.owns fileLabel file])
    (hlogical : (readU64 record.canonicalBytes 1 : Except (CatalogError Id) Nat) =
      .ok record.logicalBytes.toNat)
    (hname : (readU64 record.canonicalBytes 9 : Except (CatalogError Id) Nat) =
      .ok name.bytes.length)
    (htotal : record.canonicalBytes.length =
      min (leafFixedBytes + name.bytes.length) (wordLimit - 1))
    (hdrop : record.canonicalBytes.drop leafFixedBytes = name.bytes) :
    decodeLeaf object record = .ok (.leaf name ⟨file, record.logicalBytes⟩) := by
  unfold decodeLeaf
  dsimp only
  rw [require_pos ⟨hlen, by rw [hreferences]; rfl⟩, ok_bind, hlogical, ok_bind, hname, ok_bind,
    require_pos htotal, ok_bind, hreferences, head?_cons, okOr, ok_bind, require_pos rfl, ok_bind,
    hdrop, ContentName.fromBytes_bytes]
  rfl

theorem decodeNode_leaf (object : Id) (name : ContentName) (value : CatalogValue Id) :
    decodeNode object (leafObject name value) = .ok (.leaf name value) := by
  have hword : wordLimit = 18446744073709551616 := rfl
  have hfixed : leafFixedBytes = 17 := rfl
  have hshort := name.length_lt
  have hlen := length_leafBytes name value
  have hlogical : (readU64 (leafBytes name value) 1 : Except (CatalogError Id) Nat) =
      .ok value.logicalBytes.toNat :=
    (readU64_skip [0] le_rfl).trans (readU64_here _ value.logicalBytes.toNat_lt)
  have hname : (readU64 (leafBytes name value) 9 : Except (CatalogError Id) Nat) =
      .ok name.bytes.length :=
    (readU64_skip [0] (by decide)).trans
      (by simp [readU64_skip, readU64_here, show name.bytes.length < wordLimit by omega])
  have hdrop : (leafBytes name value).drop leafFixedBytes = name.bytes := by
    simp [leafBytes, hfixed, drop_append]
  unfold decodeNode
  rw [require_pos ⟨rfl, rfl, rfl⟩, ok_bind]
  exact decodeLeaf_ok (by show _ ≤ (leafBytes name value).length; omega) rfl hlogical hname
    (by show (leafBytes name value).length = _; omega) hdrop

/-- Totals that fit their fields. -/
structure CatalogSummary.Fits (summary : CatalogSummary) : Prop where
  logicalBytes_lt : summary.logicalBytes < wordLimit
  quotaBytes_lt : summary.quotaBytes < wordLimit
  entries_lt : summary.entries < wordLimit

def CatalogSummary.add (left right : CatalogSummary) : CatalogSummary :=
  ⟨left.logicalBytes + right.logicalBytes, left.quotaBytes + right.quotaBytes,
    left.entries + right.entries⟩

variable {left right : CatalogSummary}

theorem combine_eq_ok {total : CatalogSummary} :
    (left.combine right : Except (CatalogError Id) CatalogSummary) = .ok total ↔
      total = left.add right ∧ total.Fits := by
  simp only [CatalogSummary.combine, bind_eq_ok, okOr_eq_ok, checkedAdd_eq_some]
  constructor
  · rintro ⟨_, ⟨rfl, hlogical⟩, _, ⟨rfl, hquota⟩, _, ⟨rfl, hentries⟩, hout⟩
    cases hout
    exact ⟨rfl, hlogical, hquota, hentries⟩
  · rintro ⟨rfl, hlogical, hquota, hentries⟩
    exact ⟨_, ⟨rfl, hlogical⟩, _, ⟨rfl, hquota⟩, _, ⟨rfl, hentries⟩, rfl⟩


variable {bit : Nat}

/-- What a branch has to be, check by check. -/
theorem decodeBranch_ok {left right : CatalogRoot Id}
    (hlen : record.canonicalBytes.length = branchBytes)
    (hreferences : record.references = [.owns leftLabel left.object, .owns rightLabel right.object])
    (hbit : (readU64 record.canonicalBytes 1 : Except (CatalogError Id) Nat) = .ok bit)
    (hleft : (decodeSummary record.canonicalBytes 9 : Except (CatalogError Id) CatalogSummary) =
      .ok left.summary)
    (hright : (decodeSummary record.canonicalBytes 33 : Except (CatalogError Id) CatalogSummary) =
      .ok right.summary) (hfits : (left.summary.add right.summary).Fits)
    (hlogical : record.logicalBytes = 0) :
    decodeBranch object record = .ok (.branch bit left right) := by
  have hcombine : (left.summary.combine right.summary : Except (CatalogError Id) _) =
      .ok (left.summary.add right.summary) := combine_eq_ok.2 ⟨rfl, hfits⟩
  unfold decodeBranch
  dsimp only
  rw [require_pos ⟨hlen, by rw [hreferences]; rfl⟩, ok_bind, hreferences]
  dsimp only
  rw [require_pos ⟨rfl, rfl, rfl, rfl⟩, ok_bind, hbit, ok_bind, hleft, ok_bind, hright, ok_bind,
    hcombine, require_pos hlogical]
  rfl

theorem decodeSummary_skip (before : Bytes) {offset : Nat} (h : before.length ≤ offset) :
    (decodeSummary (before ++ bytes) offset : Except (CatalogError Id) CatalogSummary) =
      decodeSummary bytes (offset - before.length) := by
  unfold decodeSummary
  rw [readU64_skip before h, readU64_skip before (by omega), readU64_skip before (by omega),
    Nat.sub_add_comm h, Nat.sub_add_comm h]

/-- Three words are totals. -/
theorem decodeSummary_here (after : Bytes) {summary : CatalogSummary} (hfits : summary.Fits) :
    (decodeSummary (encodeSummary summary ++ after) 0 : Except (CatalogError Id) CatalogSummary) =
      .ok summary := by
  obtain ⟨hlogical, hquota, hentries⟩ := hfits
  unfold decodeSummary encodeSummary
  simp [readU64_skip, readU64_here, hlogical, hquota, hentries]

theorem CatalogSummary.Fits.of_add (h : (left.add right).Fits) : left.Fits ∧ right.Fits := by
  obtain ⟨hlogical, hquota, hentries⟩ := h
  unfold CatalogSummary.add at hlogical hquota hentries
  dsimp only at hlogical hquota hentries
  exact ⟨⟨by omega, by omega, by omega⟩, by omega, by omega, by omega⟩

theorem length_encodeSummary (summary : CatalogSummary) : (encodeSummary summary).length = 24 := by
  simp only [encodeSummary, length_append, length_leBytes]

theorem decodeNode_branch (object : Id) {left right : CatalogRoot Id} (hbit : bit < wordLimit)
    (hfits : (left.summary.add right.summary).Fits) :
    decodeNode object (branchObject bit left right) = .ok (.branch bit left right) := by
  obtain ⟨hleftFits, hrightFits⟩ := hfits.of_add
  have hlen : (branchRecordBytes bit left right).length = 57 := by
    simp only [branchRecordBytes, length_append, length_singleton, length_leBytes,
      length_encodeSummary]
  have hread : (readU64 (branchRecordBytes bit left right) 1 : Except (CatalogError Id) Nat) =
      .ok bit := (readU64_skip [1] le_rfl).trans (readU64_here _ hbit)
  have hleft : (decodeSummary (branchRecordBytes bit left right) 9 :
      Except (CatalogError Id) CatalogSummary) = .ok left.summary :=
    (decodeSummary_skip [1] (by decide)).trans
      (by simp [decodeSummary_skip, decodeSummary_here, hleftFits])
  have hright : (decodeSummary (branchRecordBytes bit left right) 33 :
      Except (CatalogError Id) CatalogSummary) = .ok right.summary :=
    (decodeSummary_skip [1] (by decide)).trans (by
      simpa [decodeSummary_skip, length_encodeSummary] using decodeSummary_here [] hrightFits)
  unfold decodeNode
  rw [require_pos ⟨rfl, rfl, rfl⟩, ok_bind]
  exact decodeBranch_ok hlen rfl hread hleft hright hfits rfl

end Nodes

end Astrid.Catalog
