import LasFile.Dimension
import LasFile.Storage

/-!
# Point formats

The eleven point data record formats: where each optional field begins, how long a record is, which
dimensions it carries, and the first version of the standard that defines it. A format is named by
the number in the file header; a number above ten names none.
-/

namespace LasFile

/-- The fixed bytes of one point format. -/
structure FormatLayout where
  /-- Record length without extra bytes. -/
  baseSize : Nat
  /-- Whether the core is that of formats 6 to 10. -/
  extended : Bool
  gpsTime : Option Nat
  color : Option Nat
  nearInfrared : Option Nat
  waveform : Option Nat
  deriving DecidableEq, Repr, Inhabited

namespace FormatLayout

/-- A format with the twenty byte core. -/
def legacy (baseSize : Nat) (gpsTime color waveform : Option Nat) : FormatLayout :=
  ⟨baseSize, false, gpsTime, color, none, waveform⟩

/-- A format with the core of version 1.4, which always stores the GPS time. -/
def modern (baseSize : Nat) (color nearInfrared waveform : Option Nat) : FormatLayout :=
  ⟨baseSize, true, some 22, color, nearInfrared, waveform⟩

/-- The formats in the order of their numbers. -/
def all : List FormatLayout :=
  [legacy 20 none none none,
    legacy 28 (some 20) none none,
    legacy 26 none (some 20) none,
    legacy 34 (some 20) (some 28) none,
    legacy 57 (some 20) none (some 28),
    legacy 63 (some 20) (some 28) (some 34),
    modern 30 none none none,
    modern 36 (some 30) none none,
    modern 38 (some 30) (some 36) none,
    modern 59 none none (some 30),
    modern 67 (some 30) (some 36) (some 38)]

/-- The format with a number. -/
def ofNumber? (format : UInt8) : Option FormatLayout := all[format.toNat]?

/-- The first minor version of LAS 1 that defines a format. -/
def minimumMinor? (format : UInt8) : Option UInt8 :=
  if format ≤ 1 then some 0
  else if format ≤ 3 then some 2
  else if format ≤ 5 then some 3
  else if format ≤ 10 then some 4
  else none

/-- The standard dimensions that records of the format carry. -/
def dimensions (l : FormatLayout) : List Dimension :=
  [.x, .y, .z, .intensity, .returnNumber, .numberOfReturns, .scanDirectionFlag, .edgeOfFlightLine,
    .classification, .classFlags, .scanAngleRank, .userData, .pointSourceId] ++
    (if l.extended then [.scanChannel] else []) ++
    (if l.gpsTime.isSome then [.gpsTime] else []) ++
    (if l.color.isSome then [.red, .green, .blue] else []) ++
    (if l.nearInfrared.isSome then [.infrared] else [])

/-- The standard dimensions of a format, none for a number that names no format. -/
def dimensionsOf (format : UInt8) : List Dimension :=
  ((ofNumber? format).map dimensions).getD []

end FormatLayout

end LasFile
