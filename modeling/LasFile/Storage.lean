import LasFile.Text.Blank

/-!
# Storage types

A dimension of a point record is stored as a `Scalar`, or as an opaque run of bytes; `Storage` is
either. A scalar has one name of its own and a few that options may use for it.
-/

namespace LasFile

/-- The width of a whole number in a record. -/
inductive Width where
  | one
  | two
  | four
  | eight
  deriving DecidableEq, Repr, Inhabited

/-- The number of bytes. -/
def Width.bytes : Width → Nat
  | .one => 1
  | .two => 2
  | .four => 4
  | .eight => 8

/-- The number of bits. -/
def Width.bits (w : Width) : Nat := 8 * w.bytes

/-- The type of a single stored number. -/
inductive Scalar where
  | signed (width : Width)
  | unsigned (width : Width)
  | single
  | double
  deriving DecidableEq, Repr, Inhabited

namespace Scalar

/-- Bytes of one value. -/
def size : Scalar → Nat
  | signed w | unsigned w => w.bytes
  | single => 4
  | double => 8

def isSigned : Scalar → Bool
  | signed _ => true
  | _ => false

def isFloat : Scalar → Bool
  | single | double => true
  | _ => false

/-- The name written in listings. -/
def name : Scalar → String
  | signed w => "int" ++ toString w.bits
  | unsigned w => "uint" ++ toString w.bits
  | single => "float"
  | double => "double"

/-- The name used when a type cannot be coded. -/
def label : Scalar → String
  | signed w => "Signed" ++ toString w.bits
  | unsigned w => "Unsigned" ++ toString w.bits
  | single => "Float"
  | double => "Double"

/-- The names that options may use, in lower case. -/
def names : List (Scalar × List String) :=
  [(signed .one, ["int8", "char"]),
    (signed .two, ["int16", "short"]),
    (signed .four, ["int32", "int"]),
    (signed .eight, ["int64", "long"]),
    (unsigned .one, ["uint8", "uchar"]),
    (unsigned .two, ["uint16", "ushort"]),
    (unsigned .four, ["uint32", "uint"]),
    (unsigned .eight, ["uint64", "ulong"]),
    (single, ["float", "float32"]),
    (double, ["double", "float64"])]

/-- The text without a final `_t`. -/
def withoutTypeMark (s : String) : String :=
  if "_t".toList.isSuffixOf s.toList then String.ofList (s.toList.take (s.length - 2)) else s

/-- The scalar with the given name. Case, blanks at the ends and a final `_t` do not matter. -/
def ofName? (text : String) : Option Scalar :=
  let word := withoutTypeMark (Text.keyword text)
  (names.find? fun (_, words) ↦ words.contains word).map (·.1)

end Scalar

/-- How a dimension occupies its bytes. -/
inductive Storage where
  /-- An opaque run of bytes. -/
  | raw (size : UInt8)
  | scalar (type : Scalar)
  deriving DecidableEq, Repr, Inhabited

namespace Storage

/-- Bytes of one value. -/
def size : Storage → Nat
  | raw n => n.toNat
  | scalar s => s.size

def scalar? : Storage → Option Scalar
  | raw _ => none
  | scalar s => some s

end Storage

/-- The name of a type in listings, `none` for an untyped run of bytes. -/
def Scalar.nameOf : Option Scalar → String
  | none => "none"
  | some s => s.name

end LasFile
