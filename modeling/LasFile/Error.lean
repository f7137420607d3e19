import LasFile.Compression
import LasFile.Number.Decimal
import LasFile.Storage

/-!
# Errors

An error is a cause with the data that caused it. `Error.message` is the one place that words it.
-/

namespace LasFile

/-- What went wrong with a byte source. -/
inductive IoFault where
  | unexpectedEof
  | notFound
  | other
  deriving DecidableEq, Repr, Inhabited

def IoFault.name : IoFault → String
  | unexpectedEof => "UnexpectedEof"
  | notFound => "NotFound"
  | other => "Other"

/-- Why bytes are no readable file, or a file cannot be written. -/
inductive FileFault where
  | signature (found : String)
  | version (major minor : UInt8)
  | headerSize (size : UInt16) (minor : UInt8)
  | offsetOverflow (length position : Nat)
  | pastEnd (length offset fileSize : Nat)
  | shortRecord (length needed : Nat) (format : UInt8)
  | pointPastEnd (index : Nat)
  | tooManyPoints (count length : Nat)
  | longRecord (length : Nat)
  | longVlr (userId : String) (recordId : UInt16) (length : Nat)
  | formatVersion (format minor : UInt8)
  /-- A fault stated by the caller's own source. -/
  | stated (text : String)
  deriving DecidableEq, Repr, Inhabited

/-- Where compression was met. -/
inductive CompressionFault where
  | pointFormat (formatByte : UInt8)
  | requested (compression : Compression)
  deriving DecidableEq, Repr

inductive Error where
  | io (fault : IoFault)
  | pointFormat (format : UInt8)
  | fieldCount (count : Nat)
  | unmappableType (type : Scalar) (count : Nat)
  | typeCode (code : UInt8)
  | extraBytesSize (size : Nat)
  | extraDim (option : String)
  | extraDimType (name : String)
  | extraDimMismatch (configured found : List (String × Storage))
  | ignoreOption (option : String)
  | bufferTooSmall (needed available : Nat)
  | outOfRange (dimension : String) (value : Double)
  | file (fault : FileFault)
  | compression (fault : CompressionFault)
  | settings
  deriving DecidableEq, Repr

namespace FileFault

def message : FileFault → String
  | signature found => s!"bad file signature '{found}'"
  | version major minor => s!"unsupported LAS version {major}.{minor}"
  | headerSize size minor => s!"header size {size} is too small for LAS 1.{minor}"
  | offsetOverflow length position =>
    s!"record of {length} bytes at {position} overflows a 64-bit offset"
  | pastEnd length offset fileSize =>
    s!"{length} bytes at offset {offset} lie past the end of the {fileSize} byte file"
  | shortRecord length needed format =>
    s!"point record length {length} is shorter than the {needed} bytes format {format} needs"
  | pointPastEnd index => s!"point {index} lies past the end of the file"
  | tooManyPoints count length =>
    s!"{count} points of {length} bytes exceed the address space"
  | longRecord length => s!"point record length {length} exceeds 65535 bytes"
  | longVlr userId recordId length =>
    s!"VLR {userId}/{recordId} payload of {length} bytes does not fit a VLR"
  | formatVersion format minor =>
    s!"point format {format} cannot be written as LAS 1.{minor}"
  | stated text => text

end FileFault

def CompressionFault.message : CompressionFault → String
  | pointFormat formatByte => s!"point format byte {formatByte}"
  | requested compression => compression.name ++ " requested"

/-- Dimensions and their types as listed in a mismatch. -/
def describeDims (dims : List (String × Storage)) : String :=
  ", ".intercalate (dims.map fun (name, storage) ↦ name ++ "=" ++ Scalar.nameOf storage.scalar?)

namespace Error

/-- The text of an error. -/
def message : Error → String
  | io fault => fault.name
  | pointFormat format => s!"Unsupported point data record format {format}"
  | fieldCount count => s!"Invalid extra bytes field count {count}, must be 0 - 3"
  | unmappableType type count =>
    "No LAS extra bytes data type for " ++ type.label ++ s!" with {count} field(s)"
  | typeCode code => s!"Invalid LAS extra bytes data type {code}"
  | extraBytesSize size => s!"Invalid extra bytes field size {size}, must be 1 - 255"
  | extraDim option =>
    s!"Invalid extra dimension specified: '{option}'. Need <dimension>=<type>."
  | extraDimType name => s!"Invalid extra dimension type specified: '{name}'."
  | extraDimMismatch configured found =>
    "Extra dimensions [" ++ describeDims configured ++ "] do not match the Extra Bytes VLR [" ++
      describeDims found ++ "]"
  | ignoreOption option => s!"Invalid VLR user_id/record_id specified: '{option}'."
  | bufferTooSmall needed available =>
    s!"Point buffer too small: {needed} bytes needed, {available} available"
  | outOfRange dimension value =>
    "Value " ++ value.describe ++ " is out of range for dimension " ++ dimension
  | file fault => "Invalid LAS file: " ++ fault.message
  | compression fault => "Compressed point data is not supported: " ++ fault.message
  | settings => "Configuration error"

end Error

end LasFile
