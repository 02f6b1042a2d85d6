import Astrid.Lib.Bytes

/-!
# Bounds-checked readers

A reader consumes a byte string from the front and can fail. `Parses p bytes a`
says that `p` reads exactly `bytes`, whatever follows, and returns `a`; it
composes along `do` blocks (`Parses.bind`), so the round trip of a format is put
together from those of its fields, in the order the fields are written.

Readers know their position, because the code they model reports an overflow of
the position separately from a truncated string.
-/

namespace Astrid

open List

/-- The unread bytes and the position reached. -/
structure SliceReader where
  offset : Nat
  rest : Bytes

/-- How the primitive reads report failure. -/
structure ReaderErrors (ε : Type) where
  overflow : Nat → ε
  truncated : ε

abbrev Reads (ε α : Type) := StateT SliceReader (Except ε) α

namespace Reads

variable {ε α β : Type}

def take (errors : ReaderErrors ε) (len : Nat) : Reads ε Bytes := fun reader =>
  match checkedAdd reader.offset len with
  | none => .error (errors.overflow len)
  | some stop =>
    if len ≤ reader.rest.length then
      .ok (reader.rest.take len, ⟨stop, reader.rest.drop len⟩)
    else .error errors.truncated

/-- A little-endian word of `n` bytes. -/
def word (errors : ReaderErrors ε) (n : Nat) : Reads ε Nat := do
  let bytes ← take errors n
  pure (ofLe bytes)

def remaining : Reads ε Nat := fun reader => .ok (reader.rest.length, reader)

/-- Stop with an error unless the condition holds. -/
def ensure (condition : Bool) (error : ε) : Reads ε Unit := fun reader =>
  if condition then .ok ((), reader) else .error error

/-- Accept a decoded value or stop with an error. -/
def accept (value : Option α) (error : ε) : Reads ε α := fun reader =>
  match value with
  | some a => .ok (a, reader)
  | none => .error error

/-- The same read, `n` times. -/
def many (p : Reads ε α) : Nat → Reads ε (List α)
  | 0 => pure []
  | n + 1 => do
    let a ← p
    let as ← many p n
    pure (a :: as)

/-- Read to the end of the string. -/
def finished (p : Reads ε α) (error : ε) : Reads ε α := do
  let a ← p
  let left ← remaining
  ensure (left = 0) error
  pure a

/-- `p` reads exactly `bytes` and returns `a`, whatever follows. -/
def Parses (p : Reads ε α) (bytes : Bytes) (a : α) : Prop :=
  ∀ offset rest, offset + (bytes ++ rest).length < wordLimit →
    p ⟨offset, bytes ++ rest⟩ = .ok (a, ⟨offset + bytes.length, rest⟩)

variable {p : Reads ε α} {f : α → Reads ε β} {a : α}

theorem bind_ok {reader reader' : SliceReader} (h : p reader = .ok (a, reader')) :
    (p >>= f) reader = f a reader' := by
  show (p reader >>= fun result => f result.1 result.2) = _
  rw [h]
  rfl

variable {b : β}

theorem Parses.bind {left right : Bytes} (hp : Parses p left a) (hf : Parses (f a) right b) :
    Parses (p >>= f) (left ++ right) b := by
  intro offset rest hfits
  rw [append_assoc] at hfits ⊢
  rw [bind_ok (hp offset (right ++ rest) hfits)]
  rw [length_append] at hfits
  rw [hf (offset + left.length) rest (by omega), length_append, add_assoc]

theorem Parses.pure (a : α) : Parses (pure a : Reads ε α) [] a :=
  fun _ _ _ => rfl

variable {bytes : Bytes}

/-- A step that reads nothing. -/
theorem Parses.bind_silent (hp : Parses p [] a) (hf : Parses (f a) bytes b) :
    Parses (p >>= f) bytes b :=
  hp.bind hf

/-- The last step that reads; what follows only checks and packs. -/
theorem Parses.bind_last (hp : Parses p bytes a) (hf : Parses (f a) [] b) :
    Parses (p >>= f) bytes b := by
  have h := hp.bind hf
  rwa [append_nil] at h

variable (errors : ReaderErrors ε)

theorem Parses.take (bytes : Bytes) : Parses (take errors bytes.length) bytes bytes := by
  intro offset rest hfits
  rw [length_append] at hfits
  have hadd : checkedAdd offset bytes.length = some (offset + bytes.length) :=
    checkedAdd_eq_some.2 ⟨rfl, by omega⟩
  simp [Reads.take, hadd]

theorem Parses.word {n x : Nat} (hx : x < 256 ^ n) : Parses (word errors n) (leBytes n x) x := by
  have htake := Parses.take errors (leBytes n x)
  rw [length_leBytes] at htake
  refine htake.bind_last ?_
  rw [ofLe_leBytes hx]
  exact Parses.pure x

/-- One byte. -/
def byte : Reads ε UInt8 := do
  let bytes ← take errors 1
  pure (bytes.headD 0)

theorem Parses.byte (b : UInt8) : Parses (byte errors) [b] b :=
  (Parses.take errors [b]).bind_last (Parses.pure b)

theorem ensure_ok {condition : Bool} (h : condition = true) {error : ε} {reader : SliceReader} :
    ensure condition error reader = .ok ((), reader) := by
  simp [ensure, h]

theorem Parses.ensure {condition : Bool} (h : condition = true) (error : ε) :
    Parses (ensure condition error) [] () :=
  fun _ _ _ => ensure_ok h

theorem Parses.finished (h : Parses p bytes a) (error : ε) {offset : Nat}
    (hfits : offset + bytes.length < wordLimit) :
    finished p error ⟨offset, bytes⟩ = .ok (a, ⟨offset + bytes.length, []⟩) := by
  have hp := h offset [] (by rw [append_nil]; exact hfits)
  rw [append_nil] at hp
  unfold Reads.finished
  rw [bind_ok hp]
  rfl

theorem Parses.accept {value : Option α} (h : value = some a) (error : ε) :
    Parses (accept value error) [] a :=
  fun _ _ _ => by simp [Reads.accept, h]

theorem Parses.many {encode : α → Bytes} :
    ∀ {as : List α}, (∀ a ∈ as, Parses p (encode a) a) →
      Parses (many p as.length) (as.flatMap encode) as := by
  intro as
  induction as with
  | nil => intro _; exact Parses.pure []
  | cons a _ ih =>
    intro h
    rw [flatMap_cons]
    refine (h a mem_cons_self).bind ?_
    exact (ih (forall_mem_cons.1 h).2).bind_last (Parses.pure _)

end Reads

end Astrid
