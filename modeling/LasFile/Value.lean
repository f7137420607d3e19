import LasFile.Byte.Order
import LasFile.Byte.Slice
import LasFile.Error
import LasFile.Number.Single

/-!
# Values

A point carries values of four kinds. `Value.encode` stores one as a scalar and `Value.decode` reads
it back. A number stored as an integer is rounded, halves away from zero, and has to fit; one stored
as a floating point number is converted. Records are written low byte first.
-/

namespace LasFile

inductive Value where
  | signed (value : Int64)
  | unsigned (value : UInt64)
  | float (value : Double)
  | bytes (value : Bytes)
  deriving DecidableEq, Repr, Inhabited

namespace Value

/-- The value as a double, zero for bytes. -/
def toDouble : Value → Double
  | signed v => .ofInt v.toInt
  | unsigned v => .ofInt v.toNat
  | float v => v
  | bytes _ => .zero

/-- The nearest integer, if the value is a finite number. -/
def nearestInt? : Value → Option Int
  | signed v => some v.toInt
  | unsigned v => some v.toNat
  | float v => v.nearestInt?
  | bytes _ => none

/-- The nearest integer if it lies in a range. The error names the dimension and the value. -/
def integer (v : Value) (dimension : String) (low high : Int) : Except Error Int :=
  match v.nearestInt? with
  | some n =>
    if low ≤ n ∧ n ≤ high then .ok n else .error (.outOfRange dimension v.toDouble)
  | none => .error (.outOfRange dimension v.toDouble)

/-- The nearest integer if it fits an unsigned number of `width` bytes. -/
def natural (v : Value) (dimension : String) (width : Width) : Except Error Nat :=
  Int.toNat <$> v.integer dimension 0 (ByteOrder.capacity width.bytes - 1)

/-- The nearest integer if it fits a signed number of `width` bytes. -/
def whole (v : Value) (dimension : String) (width : Width) : Except Error Int :=
  let half : Int := ByteOrder.capacity width.bytes / 2
  v.integer dimension (-half) (half - 1)

/-- The bytes of an integer in two's complement, low byte first. -/
def signedBytes (width : Width) (n : Int) : Bytes :=
  ByteOrder.little.bytes width.bytes (ByteOrder.complement width.bytes n)

/-- The bytes of a number, low byte first. -/
def unsignedBytes (width : Width) (n : Nat) : Bytes := ByteOrder.little.bytes width.bytes n

def doubleBytes (d : Double) : Bytes := ByteOrder.little.bytes 8 d.bits.toNat

def singleBytes (s : Single) : Bytes := ByteOrder.little.bytes 4 s.bits.toNat

/-- The value of a scalar stored in exactly its bytes. -/
def decode (type : Scalar) (bs : Bytes) : Value :=
  let n := ByteOrder.little.toNat bs
  match type with
  | .signed w => signed (.ofInt (ByteOrder.ofComplement w.bytes n))
  | .unsigned _ => unsigned (.ofNat n)
  | .single => float (Single.toDouble ⟨.ofNat n⟩)
  | .double => float ⟨.ofNat n⟩

/-- The bytes of a value stored as a scalar. -/
def encode (type : Scalar) (dimension : String) (v : Value) : Except Error Bytes :=
  match type with
  | .signed w => signedBytes w <$> v.whole dimension w
  | .unsigned w => unsignedBytes w <$> v.natural dimension w
  | .single => .ok (singleBytes v.toDouble.toSingle)
  | .double => .ok (doubleBytes v.toDouble)

end Value

end LasFile
