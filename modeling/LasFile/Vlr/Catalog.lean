import LasFile.Vlr.Basic

/-!
# Record catalogs

A catalog lists where the payloads of a file's records lie. It asks a range reader for one record
header after the other and never for a payload before that is wanted. The range reader may fail,
give back too few or too many bytes, and change a state of its own; a load that fails leaves the
catalog empty.
-/

namespace LasFile

/-- Where the payload of one record lies. -/
structure VlrEntry where
  userId : String
  recordId : UInt16
  /-- Place of the first payload byte in the file. -/
  offset : Nat
  length : Nat
  deriving DecidableEq, Repr, Inhabited

/-- Reads a number of bytes from a place in a file. -/
abbrev RangeReader (σ : Type) := (offset length : Nat) → EStateM Error σ Bytes

/-- The entries found, and the state of the range reader. -/
structure Catalog (σ : Type) where
  entries : List VlrEntry
  state : σ
  deriving DecidableEq, Repr, Inhabited

namespace Catalog

/-- A place moved on. Places have sixty-four bits. -/
def advance (position length : Nat) : Except Error Nat :=
  if position + length < UInt64.size then .ok (position + length)
  else .error (.file (.offsetOverflow length position))

/-- Reads the user, number and payload length of a record header. The description is not kept, but
its last byte has to be there. -/
def readHeader (kind : VlrKind) : Read (String × UInt16 × Nat) := do
  Read.skip 2
  let userId ← Read.text Vlr.userIdWidth
  let recordId ← Read.u16
  let length ← Read.number kind.lengthWidth
  Read.skip (Vlr.descriptionWidth - 1)
  let _ ← Read.u8
  return (userId, recordId, length)

/-- The entry of the record whose header stands at a position. -/
def decodeHeader (kind : VlrKind) (position : Nat) (header : Bytes) : Except Error VlrEntry := do
  let (userId, recordId, length) ← Read.decode (readHeader kind) header
  let offset ← advance position kind.headerSize
  return { userId, recordId, offset, length }

/-- The entry at a position together with the position behind its payload. -/
def step (kind : VlrKind) (position : Nat) (header : Bytes) : Except Error (VlrEntry × Nat) := do
  let entry ← decodeHeader kind position header
  let next ← advance entry.offset entry.length
  return (entry, next)

/-- The entries of `count` records that follow each other from a position on. -/
def walk {σ : Type} (range : RangeReader σ) (kind : VlrKind) :
    Nat → Nat → EStateM Error σ (List VlrEntry)
  | 0, _ => return []
  | count + 1, position => do
    let header ← range position kind.headerSize
    match step kind position header with
    | .error e => throw e
    | .ok (entry, next) => return entry :: (← walk range kind count next)

/-- The entries of the records and the extended records of a file. -/
def scan {σ : Type} (range : RangeReader σ) (vlrOffset vlrCount evlrOffset evlrCount : Nat) :
    EStateM Error σ (List VlrEntry) := do
  let vlrs ← walk range .short vlrCount vlrOffset
  let evlrs ← walk range .extended evlrCount evlrOffset
  return vlrs ++ evlrs

/-- Replaces the entries by those found in a file. -/
def load {σ : Type} (range : RangeReader σ) (vlrOffset vlrCount evlrOffset evlrCount : Nat) :
    EStateM Error (Catalog σ) Unit := fun c ↦
  match scan range vlrOffset vlrCount evlrOffset evlrCount c.state with
  | .ok entries state => .ok () ⟨entries, state⟩
  | .error e state => .error e ⟨[], state⟩

/-- The first entry with a user and a number. -/
def find? (entries : List VlrEntry) (userId : String) (recordId : UInt16) : Option VlrEntry :=
  entries.find? fun e ↦ e.userId == userId && e.recordId == recordId

def contains (entries : List VlrEntry) (userId : String) (recordId : UInt16) : Bool :=
  (find? entries userId recordId).isSome

/-- The payload of the first record with a user and a number, or no bytes if there is none. -/
def fetch {σ : Type} (range : RangeReader σ) (userId : String) (recordId : UInt16) :
    EStateM Error (Catalog σ) Bytes := fun c ↦
  match find? c.entries userId recordId with
  | none => .ok [] c
  | some e =>
    match range e.offset e.length c.state with
    | .ok bs state => .ok bs { c with state := state }
    | .error error state => .error error { c with state := state }

end Catalog

end LasFile
