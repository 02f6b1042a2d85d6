import Astrid.Lib.BigEndian

/-!
# Deterministic CBOR

`astrid-audit`, `entry_v2/cbor.rs`: the subset of CBOR in which everything that the audit log
hashes or signs is written. Heads take their shortest form, and the entries of a map are sorted
by the bytes of their encoded keys. An item is encoded in one way only.
-/

namespace Astrid.Audit

open Std

/-- One CBOR data item. A negative integer `-1 - n` holds `n`. -/
inductive Cbor
  | uint (value : UInt64)
  | nint (value : UInt64)
  | bytes (content : Bytes)
  | text (content : String)
  | array (items : List Cbor)
  | map (entries : List (Cbor × Cbor))
  | bool (value : Bool)
  | null

namespace Cbor

def majorUint : UInt8 := 0x00
def majorNint : UInt8 := 0x20
def majorBytes : UInt8 := 0x40
def majorText : UInt8 := 0x60
def majorArray : UInt8 := 0x80
def majorMap : UInt8 := 0xa0

def infoOneByte : UInt8 := 0x18
def infoTwoBytes : UInt8 := 0x19
def infoFourBytes : UInt8 := 0x1a
def infoEightBytes : UInt8 := 0x1b

def simpleFalse : UInt8 := 0xf4
def simpleTrue : UInt8 := 0xf5
def simpleNull : UInt8 := 0xf6

/-- A length as a 64-bit argument. -/
def lenU64 (len : Nat) : UInt64 :=
  if len < 2 ^ 64 then UInt64.ofNat len else UInt64.ofNat (2 ^ 64 - 1)

/-- The shortest head for `major` with argument `value`. -/
def head (major : UInt8) (value : UInt64) : Bytes :=
  let value := value.toNat
  if value ≤ 23 then [major ||| UInt8.ofNat value]
  else if value ≤ 0xff then (major ||| infoOneByte) :: beBytes 1 value
  else if value ≤ 0xffff then (major ||| infoTwoBytes) :: beBytes 2 value
  else if value ≤ 0xffffffff then (major ||| infoFourBytes) :: beBytes 4 value
  else (major ||| infoEightBytes) :: beBytes 8 value

/-- The UTF-8 bytes of a text. -/
def utf8 (text : String) : Bytes := text.toByteArray.data.toList

/-- Sort encoded map entries by their encoded keys. -/
def sortEntries (entries : List (Bytes × Bytes)) : List (Bytes × Bytes) :=
  entries.insertionSort fun left right => (compare left.1 right.1).isLE

mutual

/-- Encode an item deterministically. -/
def encode : Cbor → Bytes
  | .uint value => head majorUint value
  | .nint value => head majorNint value
  | .bytes content => head majorBytes (lenU64 content.length) ++ content
  | .text content => head majorText (lenU64 (utf8 content).length) ++ utf8 content
  | .array items => head majorArray (lenU64 items.length) ++ encodeItems items
  | .map entries =>
    head majorMap (lenU64 entries.length) ++
      (sortEntries (encodeEntries entries)).flatMap fun entry => entry.1 ++ entry.2
  | .bool false => [simpleFalse]
  | .bool true => [simpleTrue]
  | .null => [simpleNull]

def encodeItems : List Cbor → Bytes
  | [] => []
  | item :: items => encode item ++ encodeItems items

def encodeEntries : List (Cbor × Cbor) → List (Bytes × Bytes)
  | [] => []
  | (key, value) :: entries => (encode key, encode value) :: encodeEntries entries

end

end Cbor

example : Cbor.encode (.map [(.text "b", .uint 1000), (.text "a", .null)]) =
    [0xa2, 0x61, 0x61, 0xf6, 0x61, 0x62, 0x19, 0x03, 0xe8] := by decide +kernel

end Astrid.Audit
