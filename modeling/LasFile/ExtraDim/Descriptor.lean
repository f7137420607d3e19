import LasFile.Byte.Reader
import LasFile.Byte.Writer
import LasFile.ExtraDim.Basic

/-!
# Extra bytes descriptors

A file describes its extra dimensions by records of 192 bytes, one for each entry. An entry is a
vector of one to three numbers of one type, or an untyped run of bytes. `Descriptor.encode` gives
the record of an entry, `Descriptor.append` writes it behind others, `Descriptor.read` reads one,
and `Descriptor.dims` unfolds an entry into dimensions.
-/

namespace LasFile

namespace Scalar

/-- The scalars in the order of their codes, which start at one. -/
def coded : List Scalar :=
  [unsigned .one, signed .one, unsigned .two, signed .two, unsigned .four, signed .four,
    unsigned .eight, signed .eight, single, double]

/-- The code of a single number. -/
def code (s : Scalar) : Nat := coded.idxOf s + 1

end Scalar

/-- One entry of a file's extra bytes description. -/
structure Descriptor where
  name : String
  /-- The type of the components, none for an untyped run of bytes. -/
  scalar : Option Scalar
  /-- The number of components. -/
  fieldCount : Nat
  /-- Factors of the components, zero where none is set. -/
  scale : Vector Double 3
  offset : Vector Double 3
  description : String
  /-- The length of an untyped run. -/
  rawSize : Nat
  deriving DecidableEq, Repr

namespace Descriptor

/-- The length of a record. -/
def recordSize : Nat := 192

/-- The entry that nothing was said about. -/
def blank : Descriptor where
  name := ""
  scalar := none
  fieldCount := 0
  scale := .replicate 3 .one
  offset := .replicate 3 .zero
  description := ""
  rawSize := 0

instance : Inhabited Descriptor := ⟨blank⟩

/-- The entry that declares a dimension for writing. It sets no factor, and a factor that is not set
reads as zero. -/
def declare (name : String) (scalar : Option Scalar) (description : String) : Descriptor where
  name := name
  scalar := scalar
  fieldCount := if scalar.isSome then 1 else 0
  scale := .replicate 3 .zero
  offset := .replicate 3 .zero
  description := description
  rawSize := 0

/-- The entry that declares an untyped run of bytes. -/
def raw (name : String) (size : Nat) (description : String) : Descriptor :=
  { declare name none description with rawSize := size }

/-- The entry that declares an extra dimension. -/
def ofDim (dim : ExtraDim) : Descriptor :=
  match dim.storage with
  | .raw n => raw dim.name n.toNat ""
  | .scalar s => declare dim.name (some s) ""

/-- Bytes that the entry takes in a point record. -/
def size (d : Descriptor) : Nat :=
  match d.scalar with
  | none => d.rawSize
  | some s => s.size * d.fieldCount

/-- The code of type and number of components. -/
def typeCode (d : Descriptor) : Except Error UInt8 :=
  if 3 < d.fieldCount then .error (.fieldCount d.fieldCount)
  else
    match d.scalar with
    | none => .ok 0
    | some s =>
      if d.fieldCount = 0 then .error (.unmappableType s 0)
      else .ok (.ofNat (10 * (d.fieldCount - 1) + s.code))

/-- The entry with type and number of components taken from a code. -/
def withTypeCode (d : Descriptor) (code : UInt8) : Except Error Descriptor :=
  if code = 0 then .ok { d with scalar := none, fieldCount := 0 }
  else
    let index := code.toNat - 1
    if index < 30 then
      .ok { d with scalar := Scalar.coded[index % 10]?, fieldCount := index / 10 + 1 }
    else .error (.typeCode code)

/-- The options byte, which holds the length of an untyped run and is clear otherwise. -/
def optionsByte (d : Descriptor) (code : UInt8) : Except Error UInt8 :=
  if code = 0 then
    if d.rawSize = 0 || 255 < d.rawSize then .error (.extraBytesSize d.rawSize)
    else .ok (.ofNat d.rawSize)
  else .ok 0

/-- The layout of a record. The values for no data, minimum, maximum, scale and offset are left
clear. -/
def items (d : Descriptor) (code options : UInt8) : List Item :=
  [.zeros 2, .u8 code, .u8 options, .text d.name 32, .zeros 4, .zeros (5 * 3 * 8),
    .text d.description 32]

/-- The record of an entry. -/
def encode (d : Descriptor) : Except Error Bytes := do
  let code ← d.typeCode
  let options ← d.optionsByte code
  return Item.encodeAll .little (d.items code options)

/-- Appends the record of an entry to some bytes, item by item, once type and size were checked. -/
def append (d : Descriptor) : EStateM Error Bytes Unit :=
  match d.typeCode with
  | .error e => throw e
  | .ok code =>
    match d.optionsByte code with
    | .error e => throw e
    | .ok options => (d.items code options).forM fun i ↦ modify (· ++ i.encode .little)

/-- The option bits that say whether factors and offsets are set. -/
def scaleOption : UInt8 := 0x08

def offsetOption : UInt8 := 0x10

/-- Reads a record. Factors and offsets count only if their option is set, and never for an untyped
run, whose options byte is its length. -/
def read : Read Descriptor := do
  Read.skip 2
  let code ← Read.u8
  let options ← Read.u8
  let name ← Read.text 32
  Read.skip 4
  Read.skip (3 * 3 * 8)
  let scale ← Read.times Read.double 3
  let offset ← Read.times Read.double 3
  let description ← Read.text 32
  match ({ blank with name, description } : Descriptor).withTypeCode code with
  | .error e => throw e
  | .ok d =>
    let clear : Vector Double 3 := .replicate 3 .zero
    if d.scalar.isNone then
      return { d with rawSize := options.toNat, scale := clear, offset := clear }
    else
      return { d with
        scale := if options &&& scaleOption = 0 then clear else scale
        offset := if options &&& offsetOption = 0 then clear else offset }

/-- The entry of a record at the start of some bytes. -/
def decode (bs : Bytes) : Except Error Descriptor := Read.decode read bs

/-- The name of a component: the entry's own for the first, then with a number behind it. -/
def componentName (d : Descriptor) (i : Nat) : String :=
  if i = 0 then d.name else d.name ++ s!" ({i})"

/-- The dimensions of an entry, one for each component, not yet placed. A factor of zero means that
none is set, and a run of no bytes is left out. -/
def dims (d : Descriptor) : List ExtraDim :=
  match d.scalar with
  | none => if d.rawSize = 0 then [] else [.plain d.name (.raw (.ofNat d.rawSize)) 0]
  | some s =>
    ((d.scale.toList.zip d.offset.toList).take d.fieldCount).mapIdx fun i (scale, offset) ↦
      { name := d.componentName i
        storage := .scalar s
        transform := ⟨if scale.ieeeEq .zero then .one else scale, offset⟩
        offset := 0 }

/-- The dimensions described by records one after the other, placed from `start` on. A rest that is
no whole record is left out. -/
def toExtraDims (bs : Bytes) (start : Int) : Except Error (List ExtraDim) := do
  let entries ← (bs.chunks recordSize).mapM decode
  return ExtraDim.contiguous start (entries.flatMap dims)

/-- The records of entries one after the other. -/
def encodeAll (entries : List Descriptor) : Except Error Bytes :=
  List.flatten <$> entries.mapM encode

end Descriptor

end LasFile
