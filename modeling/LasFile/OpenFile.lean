import LasFile.Header.Codec
import LasFile.Settings.Basic
import LasFile.Vlr.Catalog

/-!
# Opened files

A file is opened by reading its header and the headers of its records, which settles the layout of
its points. Points and payloads are read when they are wanted. Every place and length comes from the
file itself, so that a range is checked against the size of the file before it is read.
-/

namespace LasFile

/-- The bytes of a range that lies in a file. -/
def Bytes.range (file : Bytes) (offset length : Nat) : Except Error Bytes :=
  if offset + length ≤ file.length then .ok (file.slice offset length)
  else .error (.file (.pastEnd length offset file.length))

theorem Bytes.range_of_le {file : Bytes} {offset length : Nat} (h : offset + length ≤ file.length) :
    file.range offset length = .ok (file.slice offset length) := if_pos h

theorem Bytes.range_of_lt {file : Bytes} {offset length : Nat} (h : file.length < offset + length) :
    file.range offset length = .error (.file (.pastEnd length offset file.length)) :=
  if_neg (Nat.not_le.2 h)

/-- The range reader of a file, which has no state. -/
def Bytes.rangeReader (file : Bytes) : RangeReader Unit := fun offset length ↦
  match file.range offset length with
  | .ok bs => return bs
  | .error e => throw e

structure OpenFile where
  bytes : Bytes
  header : Header
  catalog : Catalog Unit
  extraDims : List ExtraDim
  layout : RecordLayout
  ignored : List IgnoreRule
  deriving DecidableEq, Repr

namespace OpenFile

/-! ## Opening -/

/-- How many extended records a file has. There are none before version 1.4. -/
def extendedCount (h : Header) : Nat := if h.version.isExtended then h.evlrCount.toNat else 0

/-- The catalog of the records of a file. -/
def catalogOf (file : Bytes) (h : Header) : Except Error (Catalog Unit) :=
  match Catalog.load file.rangeReader h.headerSize.toNat h.vlrCount.toNat h.evlrOffset.toNat
      (extendedCount h) ⟨[], ()⟩ with
  | .ok () catalog => .ok catalog
  | .error e _ => .error e

/-- The payload of the first record of a catalog with a user and a number, or no bytes. -/
def payload (file : Bytes) (catalog : Catalog Unit) (userId : String) (recordId : UInt16) :
    Except Error Bytes :=
  match Catalog.fetch file.rangeReader userId recordId catalog with
  | .ok bs _ => .ok bs
  | .error e _ => .error e

/-- The extra dimensions of a file: those that its own record describes, or else those of the
settings. Where both state some they have to agree. -/
def chooseDims (start : Int) (stated : List ExtraDim) (description : Bytes) :
    Except Error (List ExtraDim) :=
  if description.isEmpty then .ok stated
  else do
    let found ← Descriptor.toExtraDims description start
    if stated.isEmpty || ExtraDim.allAgree stated found then return found
    else throw (.extraDimMismatch (stated.map fun d ↦ (d.name, d.storage))
      (found.map fun d ↦ (d.name, d.storage)))

/-- Checks that a record has room for what is read from it. -/
def checkRecordLength (h : Header) (layout : RecordLayout) : Except Error Unit :=
  if h.recordLength.toNat < layout.recordLength then
    .error (.file (.shortRecord h.recordLength.toNat layout.recordLength h.format))
  else .ok ()

/-- The layout of the format of a file, unless the points are compressed. -/
def formatOf (h : Header) : Except Error FormatLayout :=
  if h.isCompressed then .error (.compression (.pointFormat h.formatByte))
  else
    match FormatLayout.ofNumber? h.format with
    | none => .error (.pointFormat h.format)
    | some format => .ok format

/-- Opens a file with the user's settings. -/
def ofBytes (file : Bytes) (settings : Settings) : Except Error OpenFile := do
  let header ← Header.decode file
  let format ← formatOf header
  let catalog ← catalogOf file header
  let selection ← settings.selection false
  let description ← payload file catalog Vlr.extraBytesUser Vlr.extraBytesRecord
  let start : Int := format.baseSize
  let extraDims ← chooseDims start (ExtraDim.relocate start selection.explicit) description
  let layout := RecordLayout.ofFormat header.format header.scaling extraDims
  checkRecordLength header layout
  let ignored ← settings.ignored
  return { bytes := file, header, catalog, extraDims, layout, ignored }

/-! ## Points -/

def pointCount (f : OpenFile) : Nat := f.header.pointCount.toNat

/-- The bytes of a record. Places have sixty-four bits. -/
def record (f : OpenFile) (index : Nat) : Except Error Bytes :=
  let length := f.header.recordLength.toNat
  let offset := index * length + f.header.offsetToPoints.toNat
  if offset < UInt64.size then f.bytes.range offset length
  else .error (.file (.pointPastEnd index))

/-- Sets the fields of a point from a record. False, and the point is kept, past the last record. -/
def readPoint (f : OpenFile) (index : Nat) : EStateM Error Point Bool :=
  if f.pointCount ≤ index then return false
  else
    match f.record index with
    | .error e => throw e
    | .ok record => f.layout.load record

/-- The point of a record alone. -/
def decodePoint (f : OpenFile) (record : Bytes) : Except Error Point :=
  match f.layout.load record .empty with
  | .ok _ p => .ok p
  | .error e _ => .error e

/-- All points in order. -/
def readPoints (f : OpenFile) : Except Error (List Point) := do
  let length := f.header.recordLength.toNat
  if UInt64.size ≤ f.pointCount * length then throw (.file (.tooManyPoints f.pointCount length))
  let bs ← f.bytes.range f.header.offsetToPoints.toNat (f.pointCount * length)
  (bs.chunks length).mapM f.decodePoint

/-! ## Records beside the points -/

/-- The record of an entry. Its description ends where its payload begins. -/
def vlr (f : OpenFile) (entry : VlrEntry) : Except Error Vlr := do
  let description ← f.bytes.range (entry.offset - Vlr.descriptionWidth) Vlr.descriptionWidth
  let data ← f.bytes.range entry.offset entry.length
  return .of entry.userId entry.recordId (FixedText.decode description) data

/-- The records of the file without those that the settings ignore. -/
def vlrs (f : OpenFile) : Except Error (List Vlr) := do
  let all ← f.catalog.entries.mapM f.vlr
  return all.filter fun v ↦ !f.ignored.any (·.covers v)

/-- The payload of the first record with a user and a number, or no bytes if there is none. -/
def fetch (f : OpenFile) (userId : String) (recordId : UInt16) : Except Error Bytes :=
  payload f.bytes f.catalog userId recordId

end OpenFile

end LasFile
