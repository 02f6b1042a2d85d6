import Astrid.Lib.PrefixCode
import Astrid.Audit.Cbor

/-!
# CBOR items are read in one way

An encoded item tells where it ends: its head gives the kind and the length of what follows
(`head_inj`), and by induction over the item no encoding is a proper beginning of another
(`encode_delimits`). Below that, equal encodings come from equal items one level at a time:
integers, texts and byte strings are equal, arrays agree item by item (`Same.array_inj`), and
maps have the same encoded entries in some order (`Same.map_inj`).

All this is for items that exist in memory, whose lengths fit a 64-bit word (`Fits`).
-/

namespace Astrid.Audit

open Std List

namespace Cbor

/-! ## Heads -/

/-- Low five bits of the initial byte. -/
def info (value : Nat) : Nat :=
  if value ≤ 23 then value
  else if value ≤ 0xff then 24
  else if value ≤ 0xffff then 25
  else if value ≤ 0xffffffff then 26
  else 27

/-- Number of bytes after the initial one. -/
def width (value : Nat) : Nat :=
  if value ≤ 23 then 0
  else if value ≤ 0xff then 1
  else if value ≤ 0xffff then 2
  else if value ≤ 0xffffffff then 4
  else 8

def majors : List UInt8 :=
  [majorUint, majorNint, majorBytes, majorText, majorArray, majorMap]

theorem major_or : ∀ major ∈ majors, ∀ low < 28,
    (major ||| UInt8.ofNat low).toNat = major.toNat + low := by
  decide +kernel

theorem major_dvd : ∀ major ∈ majors, 32 ∣ major.toNat ∧ major.toNat < 0xe0 := by
  decide +kernel

theorem info_lt (value : Nat) : info value < 28 := by
  unfold info
  split_ifs <;> omega

theorem head_eq (major : UInt8) (value : UInt64) :
    head major value =
      (major ||| UInt8.ofNat (info value.toNat)) :: beBytes (width value.toNat) value.toNat := by
  unfold head info width
  dsimp only
  split_ifs <;> rfl

variable {m n : Nat}

/-- The initial byte gives the number of argument bytes. -/
theorem width_eq_of_info (h : info m = info n) : width m = width n := by
  unfold info at h
  unfold width
  split_ifs at h ⊢ <;> omega

variable {value value' : UInt64} {rest rest' : Bytes} {major : UInt8}

/-- A head is read back: its kind, its argument and what follows. -/
theorem head_inj {major' : UInt8} (hmajor : major ∈ majors) (hmajor' : major' ∈ majors)
    (h : head major value ++ rest = head major' value' ++ rest') :
    major = major' ∧ value = value' ∧ rest = rest' := by
  rw [head_eq, head_eq, cons_append, cons_append, cons.injEq] at h
  obtain ⟨hfirst, htail⟩ := h
  have hsum : major.toNat + info value.toNat = major'.toNat + info value'.toNat := by
    rw [← major_or major hmajor _ (info_lt _), ← major_or major' hmajor' _ (info_lt _), hfirst]
  have hlt := info_lt value.toNat
  have hlt' := info_lt value'.toNat
  have hdvd := (major_dvd major hmajor).1
  have hdvd' := (major_dvd major' hmajor').1
  have hinfo : info value.toNat = info value'.toNat := by omega
  have hwidth := width_eq_of_info hinfo
  obtain ⟨hbytes, hrest⟩ := append_inj htail (by rw [length_beBytes, length_beBytes, hwidth])
  refine ⟨UInt8.toNat_inj.1 (by omega), UInt64.toNat_inj.1 ?_, hrest⟩
  have hbound (value : UInt64) : value.toNat ≤ 23 ∨ value.toNat < 256 ^ width value.toNat := by
    have := value.toNat_lt
    unfold width
    split_ifs <;> omega
  rw [← hwidth] at hbytes
  rcases hbound value with hsmall | hvalue
  · unfold info at hinfo
    split_ifs at hinfo <;> omega
  rcases hbound value' with hsmall | hvalue'
  · unfold info at hinfo
    split_ifs at hinfo <;> omega
  · exact beBytes_inj hvalue (by rwa [hwidth]) hbytes

/-! ## Items -/

/-- Every length in the item fits a 64-bit word. -/
inductive Fits : Cbor → Prop
  | uint (value : UInt64) : Fits (.uint value)
  | nint (value : UInt64) : Fits (.nint value)
  | bytes {content : Bytes} : content.length < 2 ^ 64 → Fits (.bytes content)
  | text {content : String} : (utf8 content).length < 2 ^ 64 → Fits (.text content)
  | array {items : List Cbor} : items.length < 2 ^ 64 → (∀ item ∈ items, Fits item) →
      Fits (.array items)
  | map {entries : List (Cbor × Cbor)} : entries.length < 2 ^ 64 →
      (∀ entry ∈ entries, Fits entry.1) → (∀ entry ∈ entries, Fits entry.2) →
      Fits (.map entries)
  | bool (value : Bool) : Fits (.bool value)
  | null : Fits .null

theorem lenU64_inj (hm : m < 2 ^ 64) (hn : n < 2 ^ 64) (h : lenU64 m = lenU64 n) : m = n := by
  rw [lenU64, lenU64, if_pos hm, if_pos hn, ← UInt64.toNat_inj, UInt64.toNat_ofNat',
    UInt64.toNat_ofNat', Nat.mod_eq_of_lt hm, Nat.mod_eq_of_lt hn] at h
  exact h

theorem encodeItems_eq (items : List Cbor) : encodeItems items = items.flatMap encode := by
  induction items with
  | nil => rw [encodeItems, flatMap_nil]
  | cons _ _ ih => rw [encodeItems, flatMap_cons, ih]

theorem encodeEntries_eq (entries : List (Cbor × Cbor)) :
    encodeEntries entries = entries.map fun entry => (entry.1.encode, entry.2.encode) := by
  induction entries with
  | nil => rw [encodeEntries, map_nil]
  | cons _ _ ih => rw [encodeEntries, map_cons, ih]

theorem sortEntries_perm (entries : List (Bytes × Bytes)) : (sortEntries entries).Perm entries :=
  perm_insertionSort _ _

/-- The kind of an item, as its initial byte shows it. -/
def kind : Cbor → UInt8
  | .uint _ => majorUint
  | .nint _ => majorNint
  | .bytes _ => majorBytes
  | .text _ => majorText
  | .array _ => majorArray
  | .map _ => majorMap
  | .bool false => simpleFalse
  | .bool true => simpleTrue
  | .null => simpleNull

/-- What stands after the initial byte and its argument. -/
def payload : Cbor → Bytes
  | .uint _ => []
  | .nint _ => []
  | .bytes content => content
  | .text content => utf8 content
  | .array items => items.flatMap encode
  | .map entries => (sortEntries (encodeEntries entries)).flatMap fun entry => entry.1 ++ entry.2
  | .bool _ => []
  | .null => []

/-- The argument of the head. -/
def argument : Cbor → UInt64
  | .uint value => value
  | .nint value => value
  | .bytes content => lenU64 content.length
  | .text content => lenU64 (utf8 content).length
  | .array items => lenU64 items.length
  | .map entries => lenU64 entries.length
  | .bool _ => 0
  | .null => 0

/-- An item is a head with what follows, or a single byte above every head. -/
theorem encode_cases (item : Cbor) :
    (0xe0 ≤ item.kind.toNat ∧ item.payload = [] ∧ item.argument = 0 ∧ item.encode = [item.kind]) ∨
    item.kind ∈ majors ∧ item.encode = head item.kind item.argument ++ item.payload := by
  cases item with
  | uint | nint =>
    exact .inr ⟨by simp [kind, majors], by rw [encode, payload, append_nil]; rfl⟩
  | bytes | text => exact .inr ⟨by simp [kind, majors], by rw [encode]; rfl⟩
  | array => exact .inr ⟨by simp [kind, majors], by rw [encode, encodeItems_eq]; rfl⟩
  | map => exact .inr ⟨by simp [kind, majors], by rw [encode]; rfl⟩
  | bool value =>
    cases value
    · exact .inl ⟨by decide, rfl, rfl, by rw [encode]; rfl⟩
    · exact .inl ⟨by decide, rfl, rfl, by rw [encode]; rfl⟩
  | null => exact .inl ⟨by decide, rfl, rfl, by rw [encode]; rfl⟩

/-- The first byte of a head is below the single-byte items. -/
theorem head_first_lt (h : major ∈ majors) (value : UInt64) :
    (major ||| UInt8.ofNat (info value.toNat)).toNat < 0xe0 := by
  have hdvd := major_dvd major h
  have hlt := info_lt value.toNat
  rw [major_or major h _ hlt]
  omega

variable {item item' : Cbor}

/-- Texts that start with two items agree only on items of one kind and argument. -/
theorem encode_split (h : item.encode ++ rest = item'.encode ++ rest') :
    item.kind = item'.kind ∧ item.argument = item'.argument ∧
      item.payload ++ rest = item'.payload ++ rest' := by
  rcases encode_cases item with ⟨hkind, hpayload, hargument, heq⟩ | ⟨hkind, heq⟩ <;>
    rcases encode_cases item' with ⟨hkind', hpayload', hargument', heq'⟩ | ⟨hkind', heq'⟩
  · rw [heq, heq', singleton_append, singleton_append, cons.injEq] at h
    rw [hpayload, hpayload', hargument, hargument']
    exact ⟨h.1, rfl, h.2⟩
  · rw [heq, heq', head_eq, singleton_append, cons_append, cons_append, cons.injEq] at h
    have := head_first_lt hkind' item'.argument
    rw [← h.1] at this
    omega
  · rw [heq, heq', head_eq, singleton_append, cons_append, cons_append, cons.injEq] at h
    have := head_first_lt hkind item.argument
    rw [h.1] at this
    omega
  · rw [heq, heq', append_assoc, append_assoc] at h
    exact head_inj hkind hkind' h

theorem encode_congr (hkind : item.kind = item'.kind) (hargument : item.argument = item'.argument)
    (hpayload : item.payload = item'.payload) : item.encode = item'.encode := by
  have hmajor : ∀ major ∈ majors, ¬ 0xe0 ≤ major.toNat := fun major h => by
    have := major_dvd major h
    omega
  rcases encode_cases item with ⟨hsimple, _, _, heq⟩ | ⟨hhead, heq⟩ <;>
    rcases encode_cases item' with ⟨hsimple', _, _, heq'⟩ | ⟨hhead', heq'⟩
  · rw [heq, heq', hkind]
  · exact absurd (hkind ▸ hsimple) (hmajor _ hhead')
  · exact absurd (hkind ▸ hsimple') (hmajor _ hhead)
  · rw [heq, heq', hkind, hargument, hpayload]

/-- Two items have equal encodings. -/
def Same (item item' : Cbor) : Prop := item.encode = item'.encode

variable {entries entries' : List (Cbor × Cbor)}

/-- Encoded entries of maps whose parts are read in one way. -/
theorem sortEntries_delimits
    (hkeys : ∀ entry ∈ entries, ∀ entry' ∈ entries', Delimits encode Same entry.1 entry'.1)
    (hvalues : ∀ entry ∈ entries, ∀ entry' ∈ entries', Delimits encode Same entry.2 entry'.2)
    (hlength : entries.length = entries'.length)
    (h : (Cbor.map entries).payload ++ rest = (Cbor.map entries').payload ++ rest') :
    sortEntries (encodeEntries entries) = sortEntries (encodeEntries entries') ∧ rest = rest' := by
  have hmem {entries : List (Cbor × Cbor)} {pair : Bytes × Bytes}
      (h : pair ∈ sortEntries (encodeEntries entries)) :
      ∃ entry ∈ entries, (entry.1.encode, entry.2.encode) = pair := by
    rwa [(sortEntries_perm _).mem_iff, encodeEntries_eq, mem_map] at h
  have hlength' : (sortEntries (encodeEntries entries)).length =
      (sortEntries (encodeEntries entries')).length := by
    rw [(sortEntries_perm _).length_eq, (sortEntries_perm _).length_eq, encodeEntries_eq,
      encodeEntries_eq, length_map, length_map, hlength]
  have hpair : ∀ pair ∈ sortEntries (encodeEntries entries),
      ∀ pair' ∈ sortEntries (encodeEntries entries'),
      Delimits (fun pair => pair.1 ++ pair.2) Eq pair pair' := by
    intro pair hpair pair' hpair'
    obtain ⟨entry, hentry, rfl⟩ := hmem hpair
    obtain ⟨entry', hentry', rfl⟩ := hmem hpair'
    exact pair_delimits (hkeys entry hentry entry' hentry') (hvalues entry hentry entry' hentry')
  obtain ⟨hpairs, hrest⟩ := flatMap_delimits hpair hlength' h
  rw [forall₂_eq_eq_eq] at hpairs
  exact ⟨hpairs, hrest⟩

/-- An item of the kind of byte strings is one; and so on for the kinds with a payload. -/
theorem eq_of_kind (item : Cbor) :
    (item.kind = majorBytes → ∃ content, item = .bytes content) ∧
    (item.kind = majorText → ∃ content, item = .text content) ∧
    (item.kind = majorArray → ∃ items, item = .array items) ∧
    (item.kind = majorMap → ∃ entries, item = .map entries) := by
  cases item with
  | bool value =>
    cases value <;> simp [kind, majorBytes, majorText, majorArray, majorMap, simpleFalse,
      simpleTrue]
  | _ => simp [kind, majorUint, majorNint, majorBytes, majorText, majorArray, majorMap, simpleNull]

/-- Items of the other kinds are all head. -/
theorem payload_eq_nil (h : item.kind ∉ [majorBytes, majorText, majorArray, majorMap]) :
    item.payload = [] := by
  cases item with
  | bytes | text | array | map => exact absurd (by simp [kind]) h
  | _ => rfl

variable {items items' : List Cbor}

theorem flatMap_same (h : List.Forall₂ Same items items') :
    items.flatMap encode = items'.flatMap encode := by
  induction h with
  | nil => rfl
  | cons hsame _ ih =>
    rw [flatMap_cons, flatMap_cons, ih, show _ = _ from hsame]

/-- The payloads of items of one kind and argument, read from the front of a text. -/
def PayloadDelimits (item item' : Cbor) : Prop :=
  item.kind = item'.kind → item.argument = item'.argument →
    Delimits payload (fun item item' => item.payload = item'.payload) item item'

theorem delimits_of_payload (h : PayloadDelimits item item') : Delimits encode Same item item' := by
  intro rest rest' heq
  obtain ⟨hkind, hargument, hrest⟩ := encode_split heq
  obtain ⟨hpayload, hrest⟩ := h hkind hargument rest rest' hrest
  exact ⟨encode_congr hkind hargument hpayload, hrest⟩

theorem delimits_of_kind (h : item.kind ∉ [majorBytes, majorText, majorArray, majorMap]) :
    Delimits encode Same item item' := by
  refine delimits_of_payload fun hkind _ rest rest' hrest => ?_
  have hnil := payload_eq_nil h
  have hnil' := payload_eq_nil (hkind ▸ h)
  rw [hnil, hnil'] at hrest
  exact ⟨hnil.trans hnil'.symm, hrest⟩

/-- No encoding is a proper beginning of another. -/
theorem encode_delimits (h : item.Fits) (h' : item'.Fits) : Delimits encode Same item item' := by
  induction h generalizing item' with
  | uint => exact delimits_of_kind (by show majorUint ∉ _; decide)
  | nint => exact delimits_of_kind (by show majorNint ∉ _; decide)
  | bytes hlength =>
    refine delimits_of_payload fun hkind hargument rest rest' hrest => ?_
    obtain ⟨content', rfl⟩ := (eq_of_kind item').1 hkind.symm
    cases h' with
    | bytes hlength' => exact append_inj hrest (lenU64_inj hlength hlength' hargument)
  | text hlength =>
    refine delimits_of_payload fun hkind hargument rest rest' hrest => ?_
    obtain ⟨_, rfl⟩ := (eq_of_kind item').2.1 hkind.symm
    cases h' with
    | text hlength' => exact append_inj hrest (lenU64_inj hlength hlength' hargument)
  | array hlength _ ih =>
    refine delimits_of_payload fun hkind hargument rest rest' hrest => ?_
    obtain ⟨_, rfl⟩ := (eq_of_kind item').2.2.1 hkind.symm
    cases h' with
    | array hlength' hitems' =>
      obtain ⟨hsame, hrest⟩ := flatMap_delimits
        (fun item hitem item' hitem' => ih item hitem (hitems' item' hitem'))
        (lenU64_inj hlength hlength' hargument) hrest
      exact ⟨flatMap_same hsame, hrest⟩
  | @map entries hlength _ _ ihkeys ihvalues =>
    refine delimits_of_payload fun hkind hargument rest rest' hrest => ?_
    obtain ⟨_, rfl⟩ := (eq_of_kind item').2.2.2 hkind.symm
    cases h' with
    | map hlength' hkeys' hvalues' =>
      obtain ⟨hsame, hrest⟩ := sortEntries_delimits
        (fun entry hentry entry' hentry' => ihkeys entry hentry (hkeys' entry' hentry'))
        (fun entry hentry entry' hentry' => ihvalues entry hentry (hvalues' entry' hentry'))
        (lenU64_inj hlength hlength' hargument) hrest
      refine ⟨?_, hrest⟩
      show (sortEntries (encodeEntries entries)).flatMap _ = _
      rw [hsame, payload]
  | bool value => exact delimits_of_kind (by cases value <;> decide)
  | null => exact delimits_of_kind (by decide)

/-! ## One level at a time -/

theorem utf8_inj {text text' : String} (h : utf8 text = utf8 text') : text = text' := by
  rw [utf8, utf8, Array.toList_inj, ← ByteArray.ext_iff, String.toByteArray_inj] at h
  exact h

namespace Same

theorem split (h : Same item item') :
    item.kind = item'.kind ∧ item.argument = item'.argument ∧ item.payload = item'.payload := by
  have h' : item.encode ++ [] = item'.encode ++ [] := by rw [show _ = _ from h]
  simpa using encode_split h'

theorem uint_inj (h : Same (.uint value) (.uint value')) : value = value' := h.split.2.1

theorem nint_inj (h : Same (.nint value) (.nint value')) : value = value' := h.split.2.1

theorem bytes_inj {content content' : Bytes} (h : Same (.bytes content) (.bytes content')) :
    content = content' := h.split.2.2

theorem text_inj {content content' : String} (h : Same (.text content) (.text content')) :
    content = content' := utf8_inj h.split.2.2

/-- Arrays agree item by item. -/
theorem array_inj (hfits : (Cbor.array items).Fits) (hfits' : (Cbor.array items').Fits)
    (h : Same (.array items) (.array items')) : List.Forall₂ Same items items' := by
  cases hfits with
  | array hlength hitems =>
    cases hfits' with
    | array hlength' hitems' =>
      have hpayload : items.flatMap encode ++ [] = items'.flatMap encode ++ [] := by
        rw [show items.flatMap encode = _ from h.split.2.2]
        rfl
      exact (flatMap_delimits
        (fun item hitem item' hitem' => encode_delimits (hitems item hitem) (hitems' item' hitem'))
        (lenU64_inj hlength hlength' h.split.2.1) hpayload).1

/-- Maps have the same encoded entries. -/
theorem map_inj (hfits : (Cbor.map entries).Fits) (hfits' : (Cbor.map entries').Fits)
    (h : Same (.map entries) (.map entries')) :
    (encodeEntries entries).Perm (encodeEntries entries') := by
  cases hfits with
  | map hlength hkeys hvalues =>
    cases hfits' with
    | map hlength' hkeys' hvalues' =>
      have hpayload : (Cbor.map entries).payload ++ [] = (Cbor.map entries').payload ++ [] := by
        rw [h.split.2.2]
      have hsorted := (sortEntries_delimits
        (fun entry hentry entry' hentry' =>
          encode_delimits (hkeys entry hentry) (hkeys' entry' hentry'))
        (fun entry hentry entry' hentry' =>
          encode_delimits (hvalues entry hentry) (hvalues' entry' hentry'))
        (lenU64_inj hlength hlength' h.split.2.1) hpayload).1
      have hperm := (sortEntries_perm (encodeEntries entries)).symm
      rw [hsorted] at hperm
      exact hperm.trans (sortEntries_perm _)

end Same

end Cbor

end Astrid.Audit
