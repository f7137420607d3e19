import LasFile.Byte.Order
import LasFile.Byte.Slice
import LasFile.Error
import LasFile.Text.Fixed

/-!
# Typed reading

A `Source` is a string of bytes with a position of its own. A `ByteReader` reads typed values from
one and keeps track of the position itself. A read that asks for more bytes than are left fails,
sends the source to its end and leaves the tracked position where it was; seeking brings the two
together again.
-/

namespace LasFile

/-- Bytes that can be read from any position. -/
structure Source where
  bytes : Bytes
  position : Nat
  deriving DecidableEq, Repr, Inhabited

namespace Source

/-- The bytes from the position on. -/
def rest (s : Source) : Bytes := s.bytes.drop s.position

/-- The next `n` bytes, if there are so many. -/
def take (s : Source) (n : Nat) : Option Bytes × Source :=
  if n ≤ s.rest.length then (some (s.rest.take n), { s with position := s.position + n })
  else (none, { s with position := s.bytes.length })

end Source

/-- A source read in one byte order. -/
structure ByteReader where
  order : ByteOrder
  source : Source
  /-- The tracked position. -/
  pos : Nat
  deriving DecidableEq, Repr, Inhabited

/-- A reader at the start of some bytes. -/
def ByteReader.ofBytes (order : ByteOrder) (bytes : Bytes) : ByteReader := ⟨order, ⟨bytes, 0⟩, 0⟩

/-- A step that reads typed values. The reader that it leaves is known after a failure, too. -/
abbrev Read := EStateM Error ByteReader

namespace Read

/-- Goes to a position, which may lie past the end. -/
def seek (position : Nat) : Read Unit :=
  modify fun r ↦ { r with source := { r.source with position := position }, pos := position }

/-- Leaves out some bytes. -/
def skip (n : Nat) : Read Unit := do
  seek ((← get).pos + n)

/-- The next `n` bytes. -/
def bytes (n : Nat) : Read Bytes := do
  let r ← get
  let (found, source) := r.source.take n
  match found with
  | some bs => do
    set { r with source := source, pos := r.pos + n }
    return bs
  | none => do
    set { r with source := source }
    throw (.io .unexpectedEof)

/-- The next `width` bytes as a number. -/
def number (width : Nat) : Read Nat := do
  let bs ← bytes width
  return (← get).order.toNat bs

def u8 : Read UInt8 := UInt8.ofNat <$> number 1

def i8 : Read Int8 := (fun n ↦ Int8.ofInt (ByteOrder.ofComplement 1 n)) <$> number 1

def u16 : Read UInt16 := UInt16.ofNat <$> number 2

def u32 : Read UInt32 := UInt32.ofNat <$> number 4

def u64 : Read UInt64 := UInt64.ofNat <$> number 8

def double : Read Double := (fun n ↦ ⟨UInt64.ofNat n⟩) <$> number 8

/-- A text field of fixed width. -/
def text (width : Nat) : Read String := FixedText.decode <$> bytes width

/-- The values of `n` reads in order. -/
def times {α : Type} (read : Read α) : (n : Nat) → Read (Vector α n)
  | 0 => return #v[]
  | n + 1 => do
    let before ← times read n
    return before.push (← read)

/-- What a step reads at the beginning of some bytes, low byte first. -/
def decode {α : Type} (read : Read α) (bs : Bytes) : Except Error α :=
  match read.run (.ofBytes .little bs) with
  | .ok a _ => .ok a
  | .error e _ => .error e

end Read

end LasFile
