import LasFile.ExtraDim.Descriptor

/-!
# Variable length records

A file carries records of its own beside the points: a user and a number say what a record is, a
payload what it holds. A record is written with a short header, which limits the payload, or with
the extended one. The payload of the record `LASF_Spec/4` describes the extra dimensions.
-/

namespace LasFile

/-- The two kinds of record header. -/
inductive VlrKind where
  | short
  | extended
  deriving DecidableEq, Repr, Inhabited

namespace VlrKind

/-- Bytes of the header. -/
def headerSize : VlrKind → Nat
  | short => 54
  | extended => 60

/-- Bytes of the length field. -/
def lengthWidth : VlrKind → Nat
  | short => 2
  | extended => 8

end VlrKind

structure Vlr where
  reserved : UInt16
  userId : String
  recordId : UInt16
  /-- The length stated by the record, which need not be that of the payload. -/
  statedLength : UInt64
  description : String
  data : Bytes
  deriving DecidableEq, Repr, Inhabited

namespace Vlr

/-- The user and the number of the record that describes extra dimensions. -/
def extraBytesUser : String := "LASF_Spec"

def extraBytesRecord : UInt16 := 4

/-- Bytes of the user field. -/
def userIdWidth : Nat := 16

/-- Bytes of the description field. -/
def descriptionWidth : Nat := 32

/-- A record with the length of its payload. -/
def of (userId : String) (recordId : UInt16) (description : String) (data : Bytes) : Vlr where
  reserved := 0
  userId := userId
  recordId := recordId
  statedLength := .ofNat data.length
  description := description
  data := data

/-- The record that describes extra dimensions. -/
def extraBytes (entries : List Descriptor) : Except Error Vlr := do
  let data ← Descriptor.encodeAll entries
  return of extraBytesUser extraBytesRecord "Extra Bytes Record" data

def isExtraBytes (v : Vlr) : Bool :=
  v.userId == extraBytesUser && v.recordId == extraBytesRecord

/-- Bytes of the whole record. -/
def size (v : Vlr) (kind : VlrKind) : Nat := kind.headerSize + v.data.length

/-- Bytes of records one after the other. -/
def totalSize (kind : VlrKind) : List Vlr → Nat
  | [] => 0
  | v :: vs => v.size kind + totalSize kind vs

/-- The layout of a record. -/
def items (v : Vlr) (kind : VlrKind) : List Item :=
  [.u16 v.reserved, .text v.userId userIdWidth, .u16 v.recordId,
    match kind with
    | .short => .u16 (.ofNat v.data.length)
    | .extended => .u64 (.ofNat v.data.length),
    .text v.description descriptionWidth, .bytes v.data]

/-- The bytes of a record. A short header has no room for the length of a payload of more than 65535
bytes. -/
def encode (v : Vlr) (kind : VlrKind) : Except Error Bytes :=
  if kind = .short ∧ 65535 < v.data.length then
    .error (.file (.longVlr v.userId v.recordId v.data.length))
  else .ok (Item.encodeAll .little (v.items kind))

/-! ## Description -/

/-- The numbers of the records that hold projection keys and their parameters. -/
def geoKeyRecord : UInt16 := 34735

def geoParameterRecord : UInt16 := 34736

/-- The payload as text without NULs and blanks around it. -/
def payloadText (data : Bytes) : String :=
  String.ofList (Text.trimBoth Text.isBlank (Text.trimBoth (· == '\x00') (Utf8.decode data)))

/-- The payload as a list of values: numbers for projection records, or else one text. -/
def values (v : Vlr) : List String :=
  if v.recordId = geoKeyRecord then
    (Bytes.chunks 2 v.data).map fun bs ↦ toString (ByteOrder.little.toNat bs)
  else if v.recordId = geoParameterRecord then
    (Bytes.chunks 8 v.data).map fun bs ↦
      Double.describe ⟨.ofNat (ByteOrder.little.toNat bs)⟩
  else [payloadText v.data]

/-- A listing of the record. -/
def describe (v : Vlr) : String :=
  "\tReserved: " ++ toString v.reserved ++
    "\n\tUser ID: " ++ v.userId ++
    "\n\tRecord ID: " ++ toString v.recordId ++
    "\n\tRecord After Length: " ++ toString v.statedLength ++
    "\n\tDescription: " ++ v.description ++
    "\n\tVLR Data: [" ++ ", ".intercalate v.values ++ "]"

end Vlr

end LasFile
