import LasFile.ExtraDim.Basic
import LasFile.Record.Core

/-!
# Slots of a record

A `Slot` is a run of bytes of a record with the fields in it: how they are read from these bytes,
and how a point is written into them. A `Section` is a list of slots that are checked against the
length of a buffer together. Reading a section sets the fields of its slots; writing it overwrites
its slots one after the other and stops at the first that fails, so that the earlier ones stay
written.
-/

namespace LasFile

/-- A run of bytes in a record and its fields. -/
structure Slot where
  start : Nat
  width : Nat
  /-- The fields in exactly `width` bytes. -/
  decode : Bytes → List (Dimension × Value)
  /-- The bytes for a point. -/
  encode : Point → Except Error Bytes

namespace Slot

/-- The point with the fields of a record's slot set. -/
def load (s : Slot) (record : Bytes) (p : Point) : Point :=
  p.setAll (s.decode (record.slice s.start s.width))

/-- Writes a point's slot into a record. -/
def pack (s : Slot) (p : Point) : EStateM Error Bytes Unit :=
  match s.encode p with
  | .ok part => modify (·.overwrite s.start part)
  | .error e => throw e

/-- A number of two bytes. -/
def word (start : Nat) (d : Dimension) : Slot where
  start := start
  width := 2
  decode bs := [Core.natural d (ByteOrder.little.toNat bs)]
  encode p := Value.unsignedBytes .two <$> Core.word p d

/-- The GPS time, a number with fraction. -/
def gpsTime (start : Nat) : Slot where
  start := start
  width := 8
  decode bs := [(.gpsTime, .float ⟨.ofNat (ByteOrder.little.toNat bs)⟩)]
  encode p := .ok (Value.doubleBytes (p.number .gpsTime))

def legacyCore (scaling : Scaling) : Slot where
  start := 0
  width := LegacyCore.size
  decode := LegacyCore.decode scaling
  encode := LegacyCore.encode scaling

def extendedCore (scaling : Scaling) : Slot where
  start := 0
  width := ExtendedCore.size
  decode := ExtendedCore.decode scaling
  encode := ExtendedCore.encode scaling

end Slot

namespace ExtraDim

/-- The value that is stored for a point's value. Integers are rounded on the grid of the transform,
other numbers are not, and a value that the point does not carry is stored as zero itself. -/
def stored (dim : ExtraDim) (scalar : Scalar) (p : Point) : Value :=
  match p.get? dim.id with
  | none => .unsigned 0
  | some (.bytes bs) => .bytes bs
  | some v =>
    if dim.transform.isNonstandard then
      if scalar.isFloat then .float (dim.transform.onGrid v.toDouble)
      else .float (dim.transform.toStored v.toDouble)
    else v

/-- The bytes of an extra dimension for a point. An untyped run takes the bytes of the point's value
and is zero if that is a number. -/
def encode (dim : ExtraDim) (p : Point) : Except Error Bytes :=
  match dim.storage with
  | .raw n =>
    match p.get? dim.id with
    | some (.bytes bs) => .ok (bs.padded n.toNat)
    | _ => .ok (List.replicate n.toNat 0)
  | .scalar s => (dim.stored s p).encode s dim.name

/-- The value of an extra dimension stored in exactly its bytes. -/
def decode (dim : ExtraDim) (bs : Bytes) : Value :=
  match dim.storage with
  | .raw _ => .bytes bs
  | .scalar s =>
    let v := Value.decode s bs
    if dim.transform.isNonstandard then .float (dim.transform.fromStored v.toDouble) else v

/-- The slot of an extra dimension. -/
def slot (dim : ExtraDim) : Slot where
  start := dim.start
  width := dim.size
  decode bs := [(dim.id, dim.decode bs)]
  encode := dim.encode

end ExtraDim

/-- Slots that are read and written together. -/
inductive Section where
  | legacyCore (scaling : Scaling)
  | extendedCore (scaling : Scaling)
  | gpsTime (start : Nat)
  | color (start : Nat)
  | nearInfrared (start : Nat)
  | extraDims (dims : List ExtraDim)
  deriving DecidableEq, Repr

namespace Section

/-- The name in listings. -/
def name : Section → String
  | legacyCore _ => "V10Base"
  | extendedCore _ => "V14Base"
  | gpsTime _ => "Gpstime"
  | color _ => "Color"
  | nearInfrared _ => "Nir"
  | extraDims _ => "ExtraDim"

/-- One past the last byte of the section. -/
def limit : Section → Nat
  | legacyCore _ => LegacyCore.size
  | extendedCore _ => ExtendedCore.size
  | gpsTime start => start + 8
  | color start => start + 6
  | nearInfrared start => start + 2
  | extraDims dims => (dims.map ExtraDim.limit).foldl max 0

def slots : Section → List Slot
  | legacyCore scaling => [.legacyCore scaling]
  | extendedCore scaling => [.extendedCore scaling]
  | gpsTime start => [.gpsTime start]
  | color start => [.word start .red, .word (start + 2) .green, .word (start + 4) .blue]
  | nearInfrared start => [.word start .infrared]
  | extraDims dims => dims.map ExtraDim.slot

/-- Whether a buffer holds the whole section. -/
def checkLength (s : Section) (available : Nat) : Except Error Unit :=
  if available < s.limit then .error (.bufferTooSmall s.limit available) else .ok ()

/-- Sets the fields of the section from a record. -/
def load (s : Section) (record : Bytes) : EStateM Error Point Unit :=
  match s.checkLength record.length with
  | .error e => throw e
  | .ok () => modify fun p ↦ s.slots.foldl (fun q slot ↦ slot.load record q) p

/-- Writes a point's section into a record. -/
def pack (s : Section) (p : Point) : EStateM Error Bytes Unit := do
  match s.checkLength (← get).length with
  | .error e => throw e
  | .ok () => s.slots.forM fun slot ↦ slot.pack p

end Section

end LasFile
