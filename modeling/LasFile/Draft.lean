import LasFile.Header.Codec
import LasFile.Settings.Basic

/-!
# Files under construction

A `Draft` is a file that points are added to. Header and records go in front of the points and are
written as soon as the layout of a point is known: at once, or with the first point if the settings
ask for all of its dimensions. Counts and bounds are gathered on the way and written into the header
at the end.

A step that fails keeps what was done before the failure. In particular a header and records that
could not be written entirely are written once more by the next step.
-/

namespace LasFile

/-! ## What is counted -/

/-- Counts and bounds of the points of a file. -/
structure Tally where
  count : Nat
  /-- Points by return number, from one on. -/
  byReturn : Vector Nat 15
  min : Axes Double
  max : Axes Double
  deriving DecidableEq, Repr

namespace Tally

/-- No points. -/
def empty : Tally where
  count := 0
  byReturn := .replicate 15 0
  min := .replicate (.infinity false)
  max := .replicate (.infinity true)

instance : Inhabited Tally := ⟨empty⟩

/-- The number of a return, its fraction dropped. -/
def returnOf (p : Point) : Nat := (p.number .returnNumber).clamp (UInt64.size - 1)

def coordinates (p : Point) : Axes Double := ⟨p.number .x, p.number .y, p.number .z⟩

/-- Counts a point. Returns past the fifteenth are counted in the total alone. -/
def add (t : Tally) (p : Point) : Tally where
  count := t.count + 1
  byReturn := .ofFn fun i ↦ t.byReturn.get i + if returnOf p = i.val + 1 then 1 else 0
  min := t.min.zipWith Double.min (coordinates p)
  max := t.max.zipWith Double.max (coordinates p)

end Tally

/-- The header with counts and bounds. The bounds of no points are left as they are. -/
def Header.withTally (h : Header) (t : Tally) : Header :=
  let h := h.withPointCounts (.ofNat t.count) (t.byReturn.map UInt64.ofNat)
  if t.count = 0 then h else { h with min := t.min, max := t.max }

/-! ## Drafts -/

structure Draft where
  sink : Sink
  header : Header
  /-- The records to go in front of the points. -/
  vlrs : List Vlr
  /-- The layout of the points, once header and records are written. -/
  layout : Option RecordLayout
  tally : Tally
  deriving DecidableEq, Repr

namespace Draft

/-- The longest record of a point. -/
def maxRecordLength : Nat := 65535

/-- The layout of the draft's format. -/
def format (d : Draft) : Except Error FormatLayout :=
  match FormatLayout.ofNumber? d.header.format with
  | none => .error (.pointFormat d.header.format)
  | some format => .ok format

/-- The length of a record, which has to fit two bytes. -/
def recordLength (format : FormatLayout) (dims : List ExtraDim) : Except Error Nat :=
  let length := format.recordLength dims
  if maxRecordLength < length then .error (.file (.longRecord length)) else .ok length

/-- The records that describe some extra dimensions: one, or none if there are none. -/
def dimRecords (dims : List ExtraDim) : Except Error (List Vlr) :=
  if dims.isEmpty then .ok []
  else (fun v ↦ [v]) <$> Vlr.extraBytes (dims.map Descriptor.ofDim)

/-- The header that goes with some records and a length of point records. -/
def headerFor (h : Header) (vlrs : List Vlr) (recordLength : Nat) : Header :=
  { h with
    vlrCount := .ofNat vlrs.length
    recordLength := .ofNat recordLength
    offsetToPoints := .ofNat (h.headerSize.toNat + Vlr.totalSize .short vlrs) }

/-- The draft with records added and the header made to fit. -/
def prepare (dims : List ExtraDim) (d : Draft) : Except Error Draft := do
  let length ← recordLength (← d.format) dims
  let vlrs := d.vlrs ++ (← dimRecords dims)
  return { d with vlrs := vlrs, header := headerFor d.header vlrs length }

/-- Writes some bytes where the last ones ended. -/
def append (part : Bytes) : EStateM Error Draft Unit :=
  modify fun d ↦ { d with sink := d.sink.write part }

/-- Writes the header at the beginning of the file. -/
def writeHeader : EStateM Error Draft Unit :=
  modify fun d ↦ { d with sink := (d.sink.seek 0).write d.header.encode }

/-- Writes a record, unless it is too long. -/
def writeVlr (v : Vlr) : EStateM Error Draft Unit :=
  match v.encode .short with
  | .ok part => append part
  | .error e => throw e

/-- Settles the layout of the points, and writes the header and the records. -/
def start (dims : List ExtraDim) : EStateM Error Draft Unit := do
  match prepare dims (← get) with
  | .error e => throw e
  | .ok d => set d
  writeHeader
  (← get).vlrs.forM writeVlr
  modify fun d ↦
    { d with layout := some (.ofFormat d.header.format d.header.scaling dims) }

/-- Settles the layout by a point that carries all dimensions wanted. -/
def startWith (p : Point) : EStateM Error Draft Unit := do
  let d ← get
  match d.format with
  | .error e => throw e
  | .ok format =>
    start (ExtraDim.relocate format.baseSize (Selection.sampled p d.header.format))

/-- Starts the draft if that was not done yet. -/
def ensureStarted (begin : EStateM Error Draft Unit) : EStateM Error Draft Unit := do
  if (← get).layout.isNone then begin

/-- The record of a point in the layout of the draft. -/
def encodePoint (d : Draft) (p : Point) : Except Error Bytes :=
  (d.layout.getD .unconfigured).encode d.header.recordLength.toNat p

/-- Adds a point. -/
def writePoint (p : Point) : EStateM Error Draft Unit := do
  ensureStarted (startWith p)
  match (← get).encodePoint p with
  | .error e => throw e
  | .ok record =>
    append record
    modify fun d ↦ { d with tally := d.tally.add p }

/-- Writes the header with counts and bounds. -/
def finish : EStateM Error Draft Unit := do
  ensureStarted (start [])
  modify fun d ↦ { d with header := d.header.withTally d.tally }
  writeHeader

/-- The finished file. What was in memory past its end stays. -/
def close (d : Draft) : Except Error Bytes :=
  match finish d with
  | .ok () d => .ok d.sink.bytes
  | .error e _ => .error e

/-- A draft that nothing was written to. A given description of extra dimensions is left out. -/
def blank (memory : Bytes) (header : Header) (vlrs : List Vlr) : Draft where
  sink := ⟨memory, 0⟩
  header := header
  vlrs := vlrs.filter fun v ↦ !v.isExtraBytes
  layout := none
  tally := .empty

/-- A new file over some memory. -/
def create (memory : Bytes) (created : CreationDate) (settings : Settings) (vlrs : List Vlr) :
    Except Error Draft := do
  if settings.compression ≠ .plain then throw (.compression (.requested settings.compression))
  match FormatLayout.ofNumber? settings.pointFormat with
  | none => throw (.pointFormat settings.pointFormat)
  | some format =>
    let minor ← settings.minorToWrite
    let selection ← settings.selection true
    let draft := blank memory (.create created settings.pointFormat minor settings.scaling) vlrs
    match selection with
    | .all => return draft
    | .only dims =>
      match start (ExtraDim.relocate format.baseSize dims) draft with
      | .ok () d => return d
      | .error e _ => throw e

end Draft

end LasFile
