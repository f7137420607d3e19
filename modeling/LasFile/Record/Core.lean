import LasFile.Point
import LasFile.Transform

/-!
# The core of a record

Every record begins with coordinates, intensity, return numbers, flags, class, scan angle, user data
and source. Formats 0 to 5 store them in twenty bytes, formats 6 to 10 in twenty-two. Each value is
checked against the whole byte or word that it is stored in; return numbers, flags and classes then
share bytes, of which each keeps its low bits.
-/

namespace LasFile

/-- Degrees in one unit of an extended record's scan angle. -/
def scanAngleUnit : Double := .ofRatio false 6 1000

namespace Core

/-- A coordinate on its grid, if it fits four bytes. -/
def coordinate (p : Point) (d : Dimension) (t : Transform) : Except Error Int :=
  (Value.float (t.toStored (p.number d))).whole d.name .four

/-- A value stored in one byte. -/
def byte (p : Point) (d : Dimension) : Except Error Nat := (p.valueOrZero d).natural d.name .one

/-- A value stored in two bytes. -/
def word (p : Point) (d : Dimension) : Except Error Nat := (p.valueOrZero d).natural d.name .two

/-- A stored number as a value. -/
def natural (d : Dimension) (n : Nat) : Dimension × Value := (d, .unsigned (.ofNat n))

/-- The number of some bytes. -/
def numberAt (bs : Bytes) (start width : Nat) : Nat := ByteOrder.little.toNat (bs.slice start width)

/-- The integer of some bytes in two's complement. -/
def integerAt (bs : Bytes) (start width : Nat) : Int :=
  ByteOrder.ofComplement width (numberAt bs start width)

/-- The fields that both cores begin with. -/
def decodeCommon (scaling : Scaling) (bs : Bytes) : List (Dimension × Value) :=
  [(.x, .float (scaling.x.fromStored (.ofInt (integerAt bs 0 4)))),
    (.y, .float (scaling.y.fromStored (.ofInt (integerAt bs 4 4)))),
    (.z, .float (scaling.z.fromStored (.ofInt (integerAt bs 8 4)))),
    natural .intensity (numberAt bs 12 2)]

end Core

/-! ## Formats 0 to 5 -/

namespace LegacyCore

/-- Bytes of the core. -/
def size : Nat := 20

/-- The fields of a record's core. -/
def decode (scaling : Scaling) (bs : Bytes) : List (Dimension × Value) :=
  let flags := Core.numberAt bs 14 1
  let classes := Core.numberAt bs 15 1
  Core.decodeCommon scaling bs ++
    [Core.natural .returnNumber (flags % 8),
      Core.natural .numberOfReturns (flags / 8 % 8),
      Core.natural .scanDirectionFlag (flags / 64 % 2),
      Core.natural .edgeOfFlightLine (flags / 128),
      Core.natural .classification (classes % 32),
      Core.natural .classFlags (classes / 32),
      (.scanAngleRank, .float (.ofInt (Core.integerAt bs 16 1))),
      Core.natural .userData (Core.numberAt bs 17 1),
      Core.natural .pointSourceId (Core.numberAt bs 18 2)]

/-- The core of a point's record. -/
def encode (scaling : Scaling) (p : Point) : Except Error Bytes := do
  let x ← Core.coordinate p .x scaling.x
  let y ← Core.coordinate p .y scaling.y
  let z ← Core.coordinate p .z scaling.z
  let intensity ← Core.word p .intensity
  let returnNumber ← Core.byte p .returnNumber
  let numberOfReturns ← Core.byte p .numberOfReturns
  let direction ← Core.byte p .scanDirectionFlag
  let edge ← Core.byte p .edgeOfFlightLine
  let classification ← Core.byte p .classification
  let classFlags ← Core.byte p .classFlags
  let angle ← (p.valueOrZero .scanAngleRank).whole Dimension.scanAngleRank.name .one
  let userData ← Core.byte p .userData
  let source ← Core.word p .pointSourceId
  return Value.signedBytes .four x ++ Value.signedBytes .four y ++ Value.signedBytes .four z ++
    Value.unsignedBytes .two intensity ++
    Value.unsignedBytes .one (returnNumber % 8 + 8 * (numberOfReturns % 8) +
      64 * (direction % 2) + 128 * (edge % 2)) ++
    Value.unsignedBytes .one (classification % 32 + 32 * (classFlags % 8)) ++
    Value.signedBytes .one angle ++
    Value.unsignedBytes .one userData ++
    Value.unsignedBytes .two source

end LegacyCore

/-! ## Formats 6 to 10 -/

namespace ExtendedCore

/-- Bytes of the core. -/
def size : Nat := 22

/-- The fields of a record's core. -/
def decode (scaling : Scaling) (bs : Bytes) : List (Dimension × Value) :=
  let returns := Core.numberAt bs 14 1
  let flags := Core.numberAt bs 15 1
  Core.decodeCommon scaling bs ++
    [Core.natural .returnNumber (returns % 16),
      Core.natural .numberOfReturns (returns / 16),
      Core.natural .classFlags (flags % 16),
      Core.natural .scanChannel (flags / 16 % 4),
      Core.natural .scanDirectionFlag (flags / 64 % 2),
      Core.natural .edgeOfFlightLine (flags / 128),
      Core.natural .classification (Core.numberAt bs 16 1),
      Core.natural .userData (Core.numberAt bs 17 1),
      (.scanAngleRank, .float (.ofInt (Core.integerAt bs 18 2) * scanAngleUnit)),
      Core.natural .pointSourceId (Core.numberAt bs 20 2)]

/-- The scan angle in stored units. -/
def angle (p : Point) : Except Error Int :=
  (Value.float (p.number .scanAngleRank / scanAngleUnit)).whole Dimension.scanAngleRank.name .two

/-- The core of a point's record. -/
def encode (scaling : Scaling) (p : Point) : Except Error Bytes := do
  let x ← Core.coordinate p .x scaling.x
  let y ← Core.coordinate p .y scaling.y
  let z ← Core.coordinate p .z scaling.z
  let intensity ← Core.word p .intensity
  let returnNumber ← Core.byte p .returnNumber
  let numberOfReturns ← Core.byte p .numberOfReturns
  let classFlags ← Core.byte p .classFlags
  let channel ← Core.byte p .scanChannel
  let direction ← Core.byte p .scanDirectionFlag
  let edge ← Core.byte p .edgeOfFlightLine
  let classification ← Core.byte p .classification
  let userData ← Core.byte p .userData
  let angle ← angle p
  let source ← Core.word p .pointSourceId
  return Value.signedBytes .four x ++ Value.signedBytes .four y ++ Value.signedBytes .four z ++
    Value.unsignedBytes .two intensity ++
    Value.unsignedBytes .one (returnNumber % 16 + 16 * (numberOfReturns % 16)) ++
    Value.unsignedBytes .one (classFlags % 16 + 16 * (channel % 4) +
      64 * (direction % 2) + 128 * (edge % 2)) ++
    Value.unsignedBytes .one classification ++
    Value.unsignedBytes .one userData ++
    Value.signedBytes .two angle ++
    Value.unsignedBytes .two source

end ExtendedCore

end LasFile
