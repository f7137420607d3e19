import LasFile.Byte.Order
import LasFile.Byte.Slice
import LasFile.Number.Double
import LasFile.Text.Fixed

/-!
# Typed writing

An `Item` is one value of a file together with its width. The records of a file are lists of items,
so that their layout can be read off. A `ByteWriter` appends items and counts the bytes; a `Sink`
is a file under construction that can be written at any position.
-/

namespace LasFile

/-- A value and the form in which it is written. -/
inductive Item where
  | u8 (value : UInt8)
  | u16 (value : UInt16)
  | u32 (value : UInt32)
  | u64 (value : UInt64)
  | double (value : Double)
  | bytes (value : Bytes)
  | zeros (count : Nat)
  /-- A text field of fixed width. -/
  | text (value : String) (width : Nat)
  deriving DecidableEq, Repr

namespace Item

/-- The bytes of an item. -/
def encode (order : ByteOrder) : Item → Bytes
  | u8 v => order.bytes 1 v.toNat
  | u16 v => order.bytes 2 v.toNat
  | u32 v => order.bytes 4 v.toNat
  | u64 v => order.bytes 8 v.toNat
  | double v => order.bytes 8 v.bits.toNat
  | bytes bs => bs
  | zeros n => List.replicate n 0
  | text s width => FixedText.encode width s

/-- The number of bytes of an item. -/
def size : Item → Nat
  | u8 _ => 1
  | u16 _ => 2
  | u32 _ => 4
  | u64 _ | double _ => 8
  | bytes bs => bs.length
  | zeros n => n
  | text _ width => width

@[simp]
theorem length_encode (order : ByteOrder) (i : Item) : (i.encode order).length = i.size := by
  cases i <;> simp [encode, size]

/-- The bytes of items one after the other. -/
def encodeAll (order : ByteOrder) (items : List Item) : Bytes := items.flatMap (encode order)

end Item

/-- Bytes to which items are appended. -/
structure ByteWriter where
  order : ByteOrder
  bytes : Bytes
  /-- How many bytes were written. -/
  count : Nat
  deriving DecidableEq, Repr, Inhabited

/-- A writer that has written nothing. -/
def ByteWriter.empty (order : ByteOrder) : ByteWriter := ⟨order, [], 0⟩

/-- Appends an item. -/
def ByteWriter.put (w : ByteWriter) (i : Item) : ByteWriter :=
  { w with bytes := w.bytes ++ i.encode w.order, count := w.count + i.size }

/-- A file in memory and the position of the next write. -/
structure Sink where
  bytes : Bytes
  position : Nat
  deriving DecidableEq, Repr, Inhabited

namespace Sink

def seek (s : Sink) (position : Nat) : Sink := { s with position := position }

/-- Writes over what stands at the position and moves behind it. -/
def write (s : Sink) (part : Bytes) : Sink where
  bytes := s.bytes.overwrite s.position part
  position := s.position + part.length

end Sink

end LasFile
