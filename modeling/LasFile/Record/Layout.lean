import LasFile.Format
import LasFile.Record.Slot

/-!
# Record layouts

The sections of one point format, with the extra dimensions behind them. A layout that was made for
a number that names no format has no sections and neither reads nor writes.
-/

namespace LasFile

inductive RecordLayout where
  | unconfigured
  | configured (sections : List Section)
  deriving DecidableEq, Repr, Inhabited

namespace RecordLayout

/-- The sections of a format. The waveform packet is none of them. -/
def sectionsOf (l : FormatLayout) (scaling : Scaling) (dims : List ExtraDim) : List Section :=
  [if l.extended then .extendedCore scaling else .legacyCore scaling] ++
    (l.gpsTime.map Section.gpsTime).toList ++
    (l.color.map Section.color).toList ++
    (l.nearInfrared.map Section.nearInfrared).toList ++
    (if dims.isEmpty then [] else [.extraDims dims])

/-- The layout of a format number. -/
def ofFormat (format : UInt8) (scaling : Scaling) (dims : List ExtraDim) : RecordLayout :=
  match FormatLayout.ofNumber? format with
  | none => unconfigured
  | some l => configured (sectionsOf l scaling dims)

def isConfigured : RecordLayout → Bool
  | unconfigured => false
  | configured _ => true

def sections : RecordLayout → List Section
  | unconfigured => []
  | configured sections => sections

/-- The number of record bytes that are read or written. -/
def recordLength (l : RecordLayout) : Nat := (l.sections.map Section.limit).foldl max 0

/-- Sets the fields of a record section by section. False if the layout is unconfigured. -/
def load (l : RecordLayout) (record : Bytes) : EStateM Error Point Bool := do
  l.sections.forM fun s ↦ s.load record
  return l.isConfigured

/-- Writes a point into a record section by section. False if the layout is unconfigured. -/
def pack (l : RecordLayout) (p : Point) : EStateM Error Bytes Bool := do
  l.sections.forM fun s ↦ s.pack p
  return l.isConfigured

/-- The record of a point, written into zeros. -/
def encode (l : RecordLayout) (length : Nat) (p : Point) : Except Error Bytes :=
  match (l.pack p).run (List.replicate length 0) with
  | .ok _ record => .ok record
  | .error e _ => .error e

end RecordLayout

end LasFile
